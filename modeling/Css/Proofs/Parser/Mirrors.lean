import Css.Proofs.Component.Comments
import Css.Proofs.Declaration.Items

/-!
# Parsers that do not see comments

`Mirrors R p q` compares a run of `p` on some components with a run of `q` on the same components
without comments: both fail, or both succeed with results that are related by `R` and leave the same
but for the comments. A parser is `Transparent` if it mirrors itself with equal results. There is
one rule for each combinator. Moving by one component has none, as it may move over a comment: it is
only done in front of a delimiter, so the rules are for what it is part of.
-/

namespace Css

open Css.Parser
open Component (withoutComments withoutCommentsOf HoldsComments)

/-- The second cursor stands in front of what the first one stands in front of, without comments. It
may end at another place. -/
def Cursor.Clears (c d : Cursor) : Prop := d.rest = withoutCommentsOf c.rest

/-- Cursors stay in front of the same, but for comments, if components to which comments belong are
skipped. -/
theorem Cursor.Clears.skip {c d : Cursor} (hc : c.Clears d) {skipped : Component → Bool}
    (h : HoldsComments skipped) : (c.skip skipped).Clears (d.skip skipped) := by
  show d.rest.dropWhile skipped = _
  rw [hc, h.dropWhile]
  rfl

/-- The cursor does not stand in front of a comment. -/
def Cursor.PastComments (c : Cursor) : Prop :=
  ∀ component ∈ c.rest.head?, component.isComment = false

/-- Behind skipped components to which comments belong there is no comment. -/
theorem Cursor.pastComments_skip (c : Cursor) {skipped : Component → Bool}
    (h : HoldsComments skipped) : (c.skip skipped).PastComments := by
  intro component hhead
  obtain ⟨rest, hrest⟩ := List.head?_eq_some_iff.mp hhead
  exact h.isComment_head hrest

/-- Past comments, more is left if and only if more is left without comments. -/
theorem Cursor.Clears.isEmpty_eq {c d : Cursor} (hc : c.Clears d) (hpast : c.PastComments) :
    d.rest.isEmpty = c.rest.isEmpty := by
  rw [show d.rest = _ from hc]
  cases hrest : c.rest with
  | nil => rfl
  | cons component rest =>
      rw [Component.withoutCommentsOf_cons (hpast component (by rw [hrest]; rfl))]
      rfl

/-- Past comments, the next component may be passed by. -/
theorem Cursor.Clears.drop {c d : Cursor} (hc : c.Clears d) (hpast : c.PastComments) :
    Cursor.Clears { c with rest := c.rest.drop 1 } { d with rest := d.rest.drop 1 } := by
  show d.rest.drop 1 = withoutCommentsOf (c.rest.drop 1)
  rw [show d.rest = _ from hc]
  cases hrest : c.rest with
  | nil => rfl
  | cons component rest =>
      rw [Component.withoutCommentsOf_cons (hpast component (by rw [hrest]; rfl))]
      rfl

/-- The same cursor without comments. -/
def Cursor.withoutComments (c : Cursor) : Cursor := ⟨withoutCommentsOf c.rest, c.stop⟩

namespace Parser

variable {α β γ δ : Type} {R : α → β → Prop} {S : γ → δ → Prop} {p : Parser α} {q : Parser β}

/-- Two outcomes tell the same: both are failures, or both are results that are related, in front of
the same components without comments in the second case. -/
inductive Mirror (R : α → β → Prop) :
    EStateM.Result ParseError Cursor α → EStateM.Result ParseError Cursor β → Prop where
  | ok {a : α} {b : β} {c d : Cursor} (hresult : R a b) (hrest : c.Clears d) :
      Mirror R (.ok a c) (.ok b d)
  | error (e e' : ParseError) (c d : Cursor) : Mirror R (.error e c) (.error e' d)

/-- The second parser does without comments what the first one does with them. -/
def Mirrors (R : α → β → Prop) (p : Parser α) (q : Parser β) : Prop :=
  ∀ ⦃c d : Cursor⦄, c.Clears d → Mirror R (p c) (q d)

/-- The parser does not see comments. -/
def Transparent (p : Parser α) : Prop := Mirrors Eq p p

/-- A parser that does not see comments succeeds with a result if and only if it does without
comments. -/
theorem Transparent.eq_ok_iff (h : Transparent p) (c : Cursor) (a : α) :
    (∃ after, p c = .ok a after) ↔ ∃ after, p c.withoutComments = .ok a after := by
  have hmirror := h (c := c) (d := c.withoutComments) rfl
  generalize p c = first at hmirror
  generalize p c.withoutComments = second at hmirror
  cases hmirror with
  | ok hresult hrest =>
      subst hresult
      simp
  | error e e' c d => simp

/-- Related results mirror each other. -/
theorem mirrors_pure {a : α} {b : β} (h : R a b) : Mirrors R (pure a) (pure b) :=
  fun _ _ hc => .ok h hc

/-- A result without reading does not depend on comments. -/
theorem transparent_pure (a : α) : Transparent (pure a : Parser α) := mirrors_pure rfl

/-- Failures mirror each other. -/
theorem mirrors_fault (f f' : Fault) (location location' : Position) :
    Mirrors R (fault f location) (fault f' location') :=
  fun c d _ => .error _ _ c d

/-- Refused components mirror each other. -/
theorem mirrors_unexpected (component component' : Component) :
    Mirrors R (unexpected component) (unexpected component') :=
  mirrors_fault _ _ _ _

/-- Outcomes of sequences mirror each other if those of the first parts do, and then those of what
follows them, from where the first part leads. -/
theorem Mirror.bind {f : α → Parser γ} {g : β → Parser δ} {c d : Cursor}
    (hfirst : Mirror R (p c) (q d))
    (hf : ∀ {a b mid mid'}, p c = .ok a mid → R a b → mid.Clears mid' →
      Mirror S (f a mid) (g b mid')) :
    Mirror S ((p >>= f) c) ((q >>= g) d) := by
  show Mirror S (EStateM.bind p f c) (EStateM.bind q g d)
  unfold EStateM.bind
  generalize p c = first at hfirst hf ⊢
  generalize q d = second at hfirst ⊢
  cases hfirst with
  | ok hresult hrest => exact hf rfl hresult hrest
  | error e e' c d => exact .error e e' c d

/-- Parts that mirror each other do so in sequence. -/
theorem Mirrors.bind {f : α → Parser γ} {g : β → Parser δ} (hp : Mirrors R p q)
    (hf : ∀ a b, R a b → Mirrors S (f a) (g b)) : Mirrors S (p >>= f) (q >>= g) :=
  fun _ _ hc => (hp hc).bind fun _ hresult hrest => hf _ _ hresult hrest

/-- What follows a parser that does not see comments is compared for each of its results. -/
theorem Transparent.bind {f : α → Parser γ} {g : α → Parser δ} (hp : Transparent p)
    (hf : ∀ a, Mirrors S (f a) (g a)) : Mirrors S (p >>= f) (p >>= g) :=
  Mirrors.bind hp fun a _ hab => hab ▸ hf a

/-- A function of the result does not see comments if its parser does not. -/
theorem Transparent.map {f : α → γ} (hp : Transparent p) : Transparent (f <$> p) := by
  rw [map_eq_pure_bind]
  exact hp.bind fun a => transparent_pure (f a)

/-- Cursors mirror each other. -/
theorem mirrors_get : Mirrors Cursor.Clears get get := fun _ _ hc => .ok hc hc

/-- Going to cursors that mirror each other does so. -/
theorem mirrors_set {c d : Cursor} (h : c.Clears d) :
    Mirrors (fun _ _ => True) (set c : Parser PUnit) (set d) :=
  fun _ _ _ => .ok trivial h

/-- The place of the next component may be that of a comment. -/
theorem mirrors_location : Mirrors (fun _ _ => True) location location :=
  fun _ _ hc => .ok trivial hc

/-- Whether more than fillers is left does not depend on comments. -/
theorem transparent_isExhausted : Transparent isExhausted := by
  intro c d hc
  have hall : d.isExhausted = c.isExhausted := by
    rw [Cursor.isExhausted, hc, Component.all_isFiller_withoutCommentsOf, Cursor.isExhausted]
  exact .ok hall.symm hc

/-- The next components behind skipped ones are the same without the comments in them. -/
theorem mirrors_nextAfter {skipped : Component → Bool} (h : HoldsComments skipped) :
    Mirrors (fun a b => b = a.withoutComments) (nextAfter skipped) (nextAfter skipped) := by
  intro c d hc
  rw [nextAfter_eq, nextAfter_eq, hc, h.dropWhile]
  cases hdrop : c.rest.dropWhile skipped with
  | nil => exact .error _ _ _ _
  | cons component rest =>
      rw [Component.withoutCommentsOf_cons (h.isComment_head hdrop)]
      exact .ok rfl rfl

/-- The next components are the same without the comments in them. -/
theorem mirrors_next : Mirrors (fun a b => b = a.withoutComments) next next :=
  mirrors_nextAfter Component.holdsComments_isFiller

/-- The next components, spaces among them, are the same without the comments in them. -/
theorem mirrors_nextOrSpace :
    Mirrors (fun a b => b = a.withoutComments) nextOrSpace nextOrSpace :=
  mirrors_nextAfter Component.holdsComments_isComment

/-- What is expected of a component may hold comments that are taken out. -/
theorem mirrors_expect {value? : Component → Option α} {other? : Component → Option β}
    (h : ∀ component, Option.Rel R (value? component) (other? component.withoutComments)) :
    Mirrors R (expect value?) (expect other?) := by
  refine mirrors_next.bind ?_
  rintro component _ rfl
  have hrel := h component
  generalize value? component = found at hrel ⊢
  generalize other? component.withoutComments = found' at hrel ⊢
  cases hrel with
  | some hresult => exact mirrors_pure hresult
  | none => exact mirrors_unexpected _ _

/-- What is expected of the outside of a component does not depend on comments. -/
theorem transparent_expect {value? : Component → Option α}
    (h : ∀ component, value? component.withoutComments = value? component) :
    Transparent (expect value?) := by
  refine mirrors_expect fun component => ?_
  rw [h component]
  cases value? component with
  | none => exact .none
  | some a => exact .some rfl

/-- A check does not see comments if what follows it does not. -/
theorem mirrors_check {P : Prop} [Decidable P] {f f' : Fault} {location location' : Position}
    {next : γ → Parser α} {next' : γ → Parser β} (h : Mirrors R p q) :
    Mirrors R (if P then fault f location >>= next else p)
      (if P then fault f' location' >>= next' else q) := by
  split
  · exact fun c d _ => .error _ _ c d
  · exact h

/-- An identifier does not depend on comments. -/
theorem transparent_ident : Transparent ident :=
  transparent_expect Component.identName?_withoutComments

/-- A word that is expected does not depend on comments. -/
theorem transparent_identMatching (word : String) : Transparent (identMatching word) :=
  transparent_expect fun component => by rw [Component.keyword?_withoutComments]

/-- A string does not depend on comments. -/
theorem transparent_string : Transparent Parser.string :=
  transparent_expect fun component => by cases component <;> rfl

/-- A number does not depend on comments. -/
theorem transparent_number : Transparent number :=
  transparent_expect Component.number?_withoutComments

/-- An integer does not depend on comments. -/
theorem transparent_integer : Transparent integer :=
  transparent_expect Component.integer?_withoutComments

/-- A colon does not depend on comments. -/
theorem transparent_colon : Transparent colon :=
  transparent_expect fun component => by cases component <;> rfl

/-- A sign does not depend on comments. -/
theorem transparent_delim (c : Char) : Transparent (delim c) :=
  transparent_expect fun component => by cases component <;> rfl

/-- A word of a vocabulary does not depend on comments. -/
theorem transparent_member (α : Type) [Vocabulary α] : Transparent (member α) :=
  transparent_expect fun component => by rw [Component.keyword?_withoutComments]

/-- A name that an author chose does not depend on comments. -/
theorem transparent_customIdent (excluded : List String) : Transparent (customIdent excluded) :=
  transparent_expect fun component => by rw [Component.identName?_withoutComments]

/-- An integer that is checked for its sign does not depend on comments. -/
theorem transparent_nonNegativeInteger (context : Context) :
    Transparent (nonNegativeInteger context) :=
  mirrors_location.bind fun _ _ _ => transparent_integer.bind fun value =>
    mirrors_check (transparent_pure value)

/-- A block is the same without the comments in it. -/
theorem mirrors_block (bracket : Bracket) :
    Mirrors (fun a b => b = a.withoutComments) (block bracket) (block bracket) := by
  refine mirrors_expect fun component => ?_
  rw [Component.isBlock_withoutComments]
  split
  · exact .some rfl
  · exact .none

/-- An attempt does not see comments if what is attempted does not. -/
theorem Transparent.attempt (hp : Transparent p) : Transparent (attempt p) := by
  intro c d hc
  have hmirror := hp hc
  unfold Parser.attempt
  generalize p c = first at hmirror ⊢
  generalize p d = second at hmirror ⊢
  cases hmirror with
  | ok hresult hrest => exact .ok (congrArg some hresult) hrest
  | error e e' _ _ => exact .ok rfl hc

/-- Whether a parser succeeds does not depend on comments if the parser does not see them. -/
theorem Transparent.succeeds (hp : Transparent p) : Transparent (succeeds p) :=
  hp.attempt.bind fun found => transparent_pure found.isSome

/-- Nothing but fillers is left if this is so without comments. -/
theorem transparent_atEnd : Transparent atEnd := by
  intro c d hc
  rw [atEnd_eq, atEnd_eq, hc, Component.holdsComments_isFiller.dropWhile]
  cases hdrop : c.rest.dropWhile Component.isFiller with
  | nil => exact .ok rfl rfl
  | cons component rest =>
      rw [Component.withoutCommentsOf_cons (Component.holdsComments_isFiller.isComment_head hdrop)]
      exact .error _ _ _ _

/-- Parsers that have to read everything mirror each other if they do otherwise. -/
theorem Mirrors.entirely (hp : Mirrors R p q) : Mirrors R (entirely p) (entirely q) :=
  hp.bind fun _ _ h => transparent_atEnd.bind fun _ => mirrors_pure h

/-- Parsers that are confined to components mirror each other if they do otherwise. -/
theorem Mirrors.within (hp : Mirrors R p q) (contents : List Component) (stop stop' : Position) :
    Mirrors R (within contents stop p) (within (withoutCommentsOf contents) stop' q) := by
  intro c d hc
  have hmirror := hp.entirely (c := ⟨contents, stop⟩) (d := ⟨withoutCommentsOf contents, stop'⟩) rfl
  unfold Parser.within
  generalize Parser.entirely p _ = first at hmirror ⊢
  generalize Parser.entirely q _ = second at hmirror ⊢
  cases hmirror with
  | ok hresult hrest => exact .ok hresult hc
  | error e e' _ _ => exact .error e e' c d

/-- Parsers inside a component, with and without the comments in it, mirror each other if they do
otherwise. -/
theorem Mirrors.inside (hp : Mirrors R p q) (component : Component) :
    Mirrors R (inside component p) (inside component.withoutComments q) := by
  cases component with
  | leaf t => exact mirrors_unexpected _ _
  | group opening contents closing => exact hp.within contents _ _

/-- Parsers in front of a delimiter mirror each other if they do otherwise. -/
theorem Mirrors.untilBefore (hp : Mirrors R p q) (delimiters : List Char) :
    Mirrors R (untilBefore delimiters p) (untilBefore delimiters q) := by
  intro c d hc
  have hskipped := Component.holdsComments_not_isDelimiter delimiters
  unfold Parser.untilBefore
  dsimp only
  rw [Cursor.read_skip, Cursor.read_skip, show d.rest = _ from hc, hskipped.takeWhile]
  have hmirror := hp.within (c.rest.takeWhile fun component => !isDelimiter delimiters component)
    (c.skip fun component => !isDelimiter delimiters component).location
    (d.skip fun component => !isDelimiter delimiters component).location hc
  generalize Parser.within _ _ p c = first at hmirror ⊢
  generalize Parser.within _ _ q d = second at hmirror ⊢
  cases hmirror with
  | ok hresult hrest => exact .ok hresult (hc.skip hskipped)
  | error e e' _ _ => exact .error e e' c d

/-- In front of a delimiter, or at the end, there is no comment. -/
theorem pastComments_untilBefore {delimiters : List Char} {c after : Cursor} {a : α}
    (h : untilBefore delimiters p c = .ok a after) : after.PastComments :=
  (untilBefore_eq_ok.mp h).1 ▸
    c.pastComments_skip (Component.holdsComments_not_isDelimiter delimiters)

/-- Moving over a component that is no comment leads to cursors that mirror each other. -/
theorem mirror_step {c d : Cursor} (hc : c.Clears d) (hpast : c.PastComments) :
    Mirror Eq (step c) (step d) :=
  .ok rfl (hc.drop hpast)

/-- Parsers up to a delimiter mirror each other if they do otherwise. -/
theorem Mirrors.untilAfter (hp : Mirrors R p q) (delimiters : List Char) :
    Mirrors R (untilAfter delimiters p) (untilAfter delimiters q) := by
  intro c d hc
  refine (hp.untilBefore delimiters hc).bind fun hrun hresult hrest => ?_
  refine (mirror_step hrest (pastComments_untilBefore hrun)).bind fun _ _ hrest => ?_
  exact .ok hresult hrest

/-- A repeated parser mirrors itself if each repetition does, as long as the cursor is at a place of
some kind. Repetitions have to lead from such places to such places, and to read something. -/
theorem mirror_repeatWhile (more : Cursor → Bool) (Place : Cursor → Prop) {p : Parser α}
    (hmore : ∀ {c d}, Place c → c.Clears d → more d = more c)
    (hstep : ∀ {c d}, Place c → c.Clears d → more c = true → Mirror Eq (p c) (p d))
    (hplace : ∀ {c a after}, p c = .ok a after → Place after)
    (hless : ∀ {c a after}, more c = true → p c = .ok a after →
      after.rest.length < c.rest.length)
    {c d : Cursor} (hc : Place c) (hclears : c.Clears d) :
    Mirror Eq (repeatWhile more p c) (repeatWhile more p d) := by
  -- each repetition leaves less to read, so the induction is on how much is left
  induction hlength : c.rest.length using Nat.strong_induction_on generalizing c d with
  | _ n ih =>
    subst hlength
    have hsame := hmore hc hclears
    rw [repeatWhile_eq, repeatWhile_eq, hsame]
    cases hleft : more c with
    | false => exact .ok rfl hclears
    | true =>
        have hmirror := hstep hc hclears hleft
        have hlessd : ∀ a after, p d = .ok a after → after.rest.length < d.rest.length :=
          fun _ _ => hless (hsame.trans hleft)
        have hlessc : ∀ a after, p c = .ok a after → after.rest.length < c.rest.length :=
          fun _ _ => hless hleft
        have hafter : ∀ a after, p c = .ok a after → Place after := fun _ _ => hplace
        simp only [if_true]
        generalize p c = first at hmirror hlessc hafter ⊢
        generalize p d = second at hmirror hlessd ⊢
        cases hmirror with
        | error e e' _ _ => exact .error e e' _ _
        | @ok a _ mid mid' hresult hrest =>
            subst hresult
            dsimp only
            rw [if_pos (hlessc _ _ rfl), if_pos (hlessd _ _ rfl)]
            have hothers := ih _ (hlessc _ _ rfl) (hafter _ _ rfl) hrest rfl
            show Mirror Eq (EStateM.map _ (repeatWhile more p) mid)
              (EStateM.map _ (repeatWhile more p) mid')
            unfold EStateM.map
            generalize repeatWhile more p mid = others at hothers ⊢
            generalize repeatWhile more p mid' = others' at hothers ⊢
            cases hothers with
            | ok hresult hrest => exact .ok (congrArg (List.cons a) hresult) hrest
            | error e e' _ _ => exact .error e e' _ _

/-- A parser that is repeated to the end does not see comments if each repetition does not see them
and reads something. -/
theorem Transparent.many (hp : Transparent p) (hconsumes : Consumes p) : Transparent (many p) := by
  intro c d hc
  refine mirror_repeatWhile _ (fun _ => True) (fun _ hc => ?_) (fun _ hc _ => hp hc)
    (fun _ => trivial) (fun _ hrun => (hconsumes hrun).2) trivial hc
  rw [Cursor.isExhausted, hc, Component.all_isFiller_withoutCommentsOf, Cursor.isExhausted]

/-- A parser of segments between commas does not see comments if it does not on each segment. -/
theorem Transparent.commaSeparated (hp : Transparent p) : Transparent (commaSeparated p) := by
  have hsegment : Advances (untilBefore [','] p) := advances_untilBefore [','] p
  intro c d hc
  -- a segment ends in front of a comma or at the end, where no comment can be passed by
  refine (hp.untilBefore [','] hc).bind fun hrun hfirst hrest => ?_
  have hothers := mirror_repeatWhile (fun c => !c.rest.isEmpty) Cursor.PastComments
    (p := do step; untilBefore [','] p)
    (fun hpast hc => by rw [hc.isEmpty_eq hpast])
    (fun hpast hc _ => (mirror_step hc hpast).bind fun _ _ hc => hp.untilBefore [','] hc)
    (fun hrun => by
      obtain ⟨_, mid, -, hrun⟩ := bind_eq_ok.mp hrun
      exact pastComments_untilBefore hrun)
    (fun hmore hrun => by
      obtain ⟨_, mid, hstep, hrun⟩ := bind_eq_ok.mp hrun
      cases hstep
      have hshort := (hsegment hrun).1.length_le
      rw [Bool.not_eq_true', List.isEmpty_eq_false_iff, ← List.length_pos_iff] at hmore
      simp only [List.length_drop] at hshort
      omega)
    (pastComments_untilBefore hrun) hrest
  exact hothers.bind fun _ hothers hrest => .ok (by rw [hfirst, hothers]) hrest

/-- A list of declarations does not see comments if what follows a colon does not. -/
theorem transparent_declarationList {afterColon : String → Parser α}
    (h : ∀ name, Transparent (afterColon name)) : Transparent (declarationList afterColon) := by
  have hitem : Transparent (declarationItem afterColon) := by
    refine mirrors_next.bind ?_
    rintro component _ rfl
    have hvalue (name : String) : Transparent (do colon; afterColon name) :=
      transparent_colon.bind fun _ => h name
    cases component with
    | group opening contents closing => exact mirrors_unexpected _ _
    | leaf t =>
        rw [Component.withoutComments]
        split
        · exact transparent_pure none
        · exact ((hvalue _).untilAfter [';']).bind fun _ _ hitem => mirrors_pure (hitem ▸ rfl)
        · exact mirrors_unexpected _ _
  exact (hitem.many consumes_declarationItem).bind fun items => transparent_pure _

end Parser

end Css
