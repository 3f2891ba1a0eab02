import Css.Parser.Segment
import Css.Proofs.Component.Flatten

/-!
# What parsers yield

`Yields good p P` says that whenever `p` succeeds on components that are `good`, its result
satisfies `P` and the components that it leaves are good again. What is good has to stay so in every
part of a row and inside groups, since a parser that is confined to a part of the input reads
components that were there before. There is one rule for each combinator, so what a grammar yields
follows from what its single components yield.
-/

namespace Css

/-- What is said of components holds of every part of a row, and of the contents of groups. -/
class Hereditary (good : List Component → Prop) : Prop where
  of_infix : ∀ {components part : List Component},
    good components → part <:+: components → good part
  contents : ∀ {opening : Token} {contents : List Component} {closing : Option Token},
    good [.group opening contents closing] → good contents

/-- Every token of the components, at any depth, is good. -/
def Component.AllTokens (good : Token → Prop) (components : List Component) : Prop :=
  ∀ t ∈ Component.tokensOf components, good t

instance (good : Token → Prop) : Hereditary (Component.AllTokens good) where
  of_infix := by
    rintro components part h ⟨front, back, rfl⟩ t ht
    refine h t ?_
    rw [Component.tokensOf_append, Component.tokensOf_append]
    exact List.mem_append_left _ (List.mem_append_right _ ht)
  contents := by
    intro opening contents closing h t ht
    refine h t ?_
    rw [Component.tokensOf, Component.tokensOf, Component.tokens, List.append_nil]
    exact List.mem_cons_of_mem _ (List.mem_append_left _ ht)

/-- The component is good on its own. -/
def Component.All (good : List Component → Prop) (component : Component) : Prop :=
  good [component]

/-- What is left to read is good. -/
def Cursor.All (good : List Component → Prop) (c : Cursor) : Prop :=
  good c.rest

/-- What is left when components are skipped is the end of the row. -/
theorem Component.suffix_of_dropWhile {skipped : Component → Bool}
    {components rest : List Component} (h : components.dropWhile skipped = rest) :
    rest <:+ components := h ▸ List.dropWhile_suffix skipped

/-- The token that stands for a component is one of its tokens. -/
theorem Component.All.token {good : Token → Prop} {component : Component}
    (h : component.All (AllTokens good)) : good component.token := by
  refine h component.token ?_
  rw [tokensOf, tokensOf, List.append_nil]
  cases component with
  | leaf t => exact List.mem_singleton_self t
  | group opening contents closing => exact List.mem_cons_self ..

/-- The components of good tokens are good. -/
theorem Component.allTokens_ofTokens {good : Token → Prop} {tokens : List Token}
    (h : ∀ t ∈ tokens, good t) : AllTokens good (Component.ofTokens tokens) := by
  intro t ht
  rw [tokensOf_ofTokens] at ht
  exact h t ht

section

variable {good : List Component → Prop} [Hereditary good]

/-- A component of a good row is good. -/
theorem Hereditary.of_mem {components : List Component} {component : Component}
    (h : good components) (hmem : component ∈ components) : component.All good := by
  obtain ⟨front, back, rfl⟩ := List.append_of_mem hmem
  exact of_infix h ⟨front, back, by simp⟩

namespace Cursor

/-- A cursor further on in the same row is good. -/
theorem All.of_suffix {c after : Cursor} (h : c.All good) (hsuffix : after.rest <:+ c.rest) :
    after.All good :=
  Hereditary.of_infix h hsuffix.isInfix

/-- Skipping leaves good components. -/
theorem All.skip {c : Cursor} (h : c.All good) (skipped : Component → Bool) :
    (c.skip skipped).All good :=
  h.of_suffix (List.dropWhile_suffix skipped)

/-- The components that were read are good. -/
theorem All.read {c : Cursor} (h : c.All good) (after : Cursor) : good (c.read after) :=
  Hereditary.of_infix h (List.take_prefix _ _).isInfix

end Cursor

end

namespace Parser

variable {α β σ : Type} {p : Parser α} {P : α → Prop} {Q : β → Prop}

variable {good : List Component → Prop}

/-- On good components, the parser succeeds only with results that satisfy `P`, and leaves good
components. -/
def Yields (good : List Component → Prop) (p : Parser α) (P : α → Prop) : Prop :=
  ∀ ⦃c a after⦄, c.All good → p c = .ok a after → P a ∧ after.All good

/-- On good components, the parser succeeds only with results that satisfy `P`. -/
def Gives (good : List Component → Prop) (p : Parser α) (P : α → Prop) : Prop :=
  ∀ ⦃c a after⦄, c.All good → p c = .ok a after → P a

/-- What is yielded is given. -/
theorem Yields.gives (h : Yields good p P) : Gives good p P := fun _ _ _ hc hrun => (h hc hrun).1

/-- What is given on good components is given on better ones. -/
theorem Gives.of_imp {better : List Component → Prop} (h : Gives good p P)
    (himp : ∀ components, better components → good components) : Gives better p P :=
  fun _ _ _ hc hrun => h (himp _ hc) hrun

/-- A parser in sequence succeeds if its first part does and then its second part does. -/
theorem bind_eq_ok {f : α → Parser β} {c after : Cursor} {b : β} :
    (p >>= f) c = .ok b after ↔ ∃ a mid, p c = .ok a mid ∧ f a mid = .ok b after := by
  show EStateM.bind p f c = _ ↔ _
  unfold EStateM.bind
  cases p c with
  | error e mid => simp
  | ok a mid =>
      constructor
      · intro h
        exact ⟨a, mid, rfl, h⟩
      · rintro ⟨_, _, ⟨⟩, h⟩
        exact h

/-- A result without reading satisfies what it is known to satisfy. -/
theorem yields_pure {a : α} (h : P a) : Yields good (pure a) P := by
  intro c b after hc hrun
  cases hrun
  exact ⟨h, hc⟩

/-- A sequence yields what its second part yields for each result of its first part. -/
theorem Yields.bind {f : α → Parser β} (hp : Yields good p P)
    (hf : ∀ a, P a → Yields good (f a) Q) : Yields good (p >>= f) Q := by
  intro c b after hc hrun
  obtain ⟨a, mid, hrunp, hrunf⟩ := bind_eq_ok.mp hrun
  obtain ⟨ha, hmid⟩ := hp hc hrunp
  exact hf a ha hmid hrunf

/-- What a parser yields may be weakened. -/
theorem Yields.mono {weaker : α → Prop} (h : Yields good p P)
    (himp : ∀ a, P a → weaker a) : Yields good p weaker := by
  intro c a after hc hrun
  obtain ⟨ha, hafter⟩ := h hc hrun
  exact ⟨himp a ha, hafter⟩

/-- A function of the result satisfies what the result implies of it. -/
theorem Yields.map {f : α → β} (h : Yields good p P) (hf : ∀ a, P a → Q (f a)) :
    Yields good (f <$> p) Q := by
  rw [map_eq_pure_bind]
  exact h.bind fun a ha => yields_pure (hf a ha)

/-- A refusal has no result. -/
theorem yields_fault {f : Fault} {location : Position} : Yields good (fault f location) P := by
  intro c a after hc hrun
  cases hrun

/-- Nothing comes after a refusal. -/
theorem yields_fault_bind {f : Fault} {location : Position} {next : α → Parser β} :
    Yields good (fault f location >>= next) Q := by
  intro c a after hc hrun
  cases hrun

/-- A refused component gives no result. -/
theorem yields_unexpected {component : Component} : Yields good (unexpected component) P :=
  yields_fault

/-- The cursor that a parser looks at is good. -/
theorem yields_get : Yields good get fun c => c.All good := by
  intro c a after hc hrun
  cases hrun
  exact ⟨hc, hc⟩

/-- The cursor may be put to any good place. -/
theorem yields_set {c : Cursor} (h : c.All good) : Yields good (set c) fun _ => True := by
  intro _ _ _ _ hrun
  cases hrun
  exact ⟨trivial, h⟩

/-- Asking for the place reads nothing. -/
theorem yields_location : Yields good location fun _ => True := by
  intro c a after hc hrun
  cases hrun
  exact ⟨trivial, hc⟩

/-- Asking whether something is left reads nothing. -/
theorem yields_isExhausted : Yields good isExhausted fun _ => True := by
  intro c a after hc hrun
  cases hrun
  exact ⟨trivial, hc⟩

/-- If an attempt has a result, it is one of the parser. -/
theorem Yields.attempt (h : Yields good p P) :
    Yields good (attempt p) fun result => ∀ a ∈ result, P a := by
  intro c result after hc hrun
  unfold Parser.attempt at hrun
  cases hp : p c with
  | ok a mid =>
      rw [hp] at hrun
      cases hrun
      obtain ⟨ha, hmid⟩ := h hc hp
      refine ⟨?_, hmid⟩
      rintro _ ⟨⟩
      exact ha
  | error e mid =>
      rw [hp] at hrun
      cases hrun
      exact ⟨nofun, hc⟩

/-- Trying a parser leaves good components. -/
theorem Yields.succeeds (h : Yields good p P) : Yields good (succeeds p) fun _ => True :=
  h.attempt.bind fun _ _ => yields_pure trivial

/-- Every item of a repeated step satisfies what the step, from any state, yields. -/
theorem collect_yields (more : Cursor → Bool)
    (step : σ → Cursor → σ × EStateM.Result ParseError Cursor α)
    (hstep : ∀ state, Yields good (fun c => (step state c).2) P) (state : σ) (c : Cursor)
    (hc : c.All good) :
    (∀ a ∈ (collect more step state c).items, P a) ∧
      ((collect more step state c).error? = none →
        (collect more step state c).cursor.All good) := by
  fun_induction collect more step state c with
  | case1 => exact ⟨nofun, nofun⟩
  | case2 state c _ next a after hrun _ others ih =>
      obtain ⟨ha, hafter⟩ := hstep state hc (congrArg Prod.snd hrun)
      obtain ⟨hitems, hcursor⟩ := ih hafter
      refine ⟨?_, hcursor⟩
      intro b hb
      rcases List.mem_cons.mp hb with rfl | hb
      · exact ha
      · exact hitems b hb
  | case3 state c _ next a after hrun _ =>
      obtain ⟨ha, hafter⟩ := hstep state hc (congrArg Prod.snd hrun)
      refine ⟨?_, fun _ => hafter⟩
      intro b hb
      rw [List.mem_singleton.mp hb]
      exact ha
  | case4 => exact ⟨nofun, fun _ => hc⟩

/-- A repeated parser yields items that satisfy what it yields. -/
theorem Yields.repeatWhile (h : Yields good p P) (more : Cursor → Bool) :
    Yields good (repeatWhile more p) fun items => ∀ a ∈ items, P a := by
  intro c items after hc hrun
  obtain ⟨hitems, hcursor⟩ :=
    collect_yields more (fun _ c => ((), p c)) (fun _ => h) () c hc
  unfold Parser.repeatWhile at hrun
  cases herror : (collect more (fun _ c => ((), p c)) () c).error? with
  | some e => simp [herror] at hrun
  | none =>
      simp only [herror, EStateM.Result.ok.injEq] at hrun
      obtain ⟨rfl, rfl⟩ := hrun
      exact ⟨hitems, hcursor herror⟩

/-- A parser that is repeated to the end yields items that satisfy what it yields. -/
theorem Yields.many (h : Yields good p P) :
    Yields good (many p) fun items => ∀ a ∈ items, P a :=
  h.repeatWhile _

/-- A parser that reads the contents of groups by itself yields what one level of it yields. -/
theorem yields_recursive {body : Parser α → Parser α}
    (h : ∀ inner, Yields good inner P → Yields good (body inner) P) :
    Yields good (recursive body) P := by
  intro c
  induction c using recursive.induct with
  | case1 c ih =>
      intro a after hc hrun
      rw [recursive] at hrun
      refine h _ ?_ hc hrun
      intro inner b mid hinner hrun
      dsimp only at hrun
      split at hrun
      · exact ih inner ‹_› hinner hrun
      · cases hrun

/-- Captured text reads good components. -/
theorem Yields.captured {p : Parser Unit} (h : Yields good p fun _ => True) :
    Yields good (captured p) fun _ => True :=
  yields_get.bind fun _ _ => h.bind fun _ _ => yields_get.bind fun _ _ => yields_pure trivial

/-- A parser that has to read everything gives what it gives otherwise. -/
theorem Gives.entirely (h : Gives good p P) : Gives good (entirely p) P := by
  intro c a after hc hrun
  obtain ⟨b, mid, hp, hend⟩ := bind_eq_ok.mp hrun
  obtain ⟨_, last, -, hpure⟩ := bind_eq_ok.mp hend
  cases hpure
  exact h hc hp

/-- A parser that is confined to good components yields what it gives when it reads them all. -/
theorem Gives.within (h : Gives good (Parser.entirely p) P) {contents : List Component}
    {stop : Position} (hcontents : good contents) : Yields good (within contents stop p) P := by
  intro c a after hc hrun
  unfold Parser.within at hrun
  cases hp : Parser.entirely p ⟨contents, stop⟩ with
  | error e mid => rw [hp] at hrun; cases hrun
  | ok b mid =>
      rw [hp] at hrun
      cases hrun
      have hcursor : Cursor.All good ⟨contents, stop⟩ := hcontents
      exact ⟨h hcursor hp, hc⟩

variable [Hereditary good]

/-- The next component is the first one that is not skipped. -/
theorem nextAfter_eq (skipped : Component → Bool) (c : Cursor) :
    nextAfter skipped c =
      match c.rest.dropWhile skipped with
      | [] => .error ⟨.endOfInput, c.stop⟩ ⟨[], c.stop⟩
      | component :: rest => .ok component ⟨rest, c.stop⟩ := by
  show (match (c.skip skipped).rest with
    | [] => set (c.skip skipped) >>= fun _ => fault .endOfInput c.stop
    | component :: rest => set { c.skip skipped with rest } >>= fun _ => pure component :
      Parser Component) c = _
  unfold Cursor.skip
  cases h : c.rest.dropWhile skipped with
  | nil => rfl
  | cons component rest => rfl

/-- The next component is good. -/
theorem yields_nextAfter (skipped : Component → Bool) :
    Yields good (nextAfter skipped) fun component => component.All good := by
  intro c a after hc hrun
  rw [nextAfter_eq] at hrun
  cases hrest : c.rest.dropWhile skipped with
  | nil => rw [hrest] at hrun; cases hrun
  | cons component rest =>
      rw [hrest] at hrun
      cases hrun
      have hsuffix := Component.suffix_of_dropWhile hrest
      exact ⟨Hereditary.of_mem hc (hsuffix.subset List.mem_cons_self),
        hc.of_suffix ((List.suffix_cons _ _).trans hsuffix)⟩

/-- The next component is good. -/
theorem yields_next : Yields good next fun component => component.All good := yields_nextAfter _

/-- At the end nothing but fillers is left. -/
theorem yields_atEnd : Yields good atEnd fun _ => True := by
  refine yields_get.bind fun c hc => ?_
  refine (yields_set (hc.skip _)).bind fun _ _ => ?_
  split
  · exact yields_pure trivial
  · exact yields_unexpected

/-- A parser that has to read everything yields what it yields otherwise. -/
theorem Yields.entirely (h : Yields good p P) : Yields good (entirely p) P :=
  h.bind fun _ ha => yields_atEnd.bind fun _ _ => yields_pure ha

/-- A parser inside a good group yields what it gives when it reads all of it. -/
theorem Gives.inside (h : Gives good (Parser.entirely p) P) {component : Component}
    (hcomponent : component.All good) : Yields good (inside component p) P := by
  cases component with
  | leaf t => exact yields_unexpected
  | group opening contents closing => exact h.within (Hereditary.contents hcomponent)

/-- A parser inside a good group yields what it yields otherwise. -/
theorem Yields.inside (h : Yields good p P) {component : Component}
    (hcomponent : component.All good) : Yields good (inside component p) P :=
  h.entirely.gives.inside hcomponent

/-- Reading everything without error tokens leaves good components. -/
theorem yields_noErrorToken : Yields good noErrorToken fun _ => True := by
  refine yields_recursive fun contents hcontents => ?_
  refine (Yields.many (P := fun _ => True) ?_).bind fun _ _ => yields_pure trivial
  refine yields_next.bind fun component hcomponent => ?_
  cases component with
  | leaf t =>
      rw [cleanWith]
      split
      · exact yields_unexpected
      · exact yields_pure trivial
  | group opening inner closing => exact hcontents.inside hcomponent

/-- A parser in front of a delimiter yields what it gives when it reads all that stands there. -/
theorem Gives.untilBefore (h : Gives good (Parser.entirely p) P) (delimiters : List Char) :
    Yields good (untilBefore delimiters p) P := by
  intro c a after hc hrun
  simp only [Parser.untilBefore] at hrun
  split at hrun
  · rename_i b mid hwithin
    cases hrun
    exact ⟨(h.within (hc.read _) hc hwithin).1, hc.skip _⟩
  · cases hrun

/-- A parser in front of a delimiter yields what it yields otherwise. -/
theorem Yields.untilBefore (h : Yields good p P) (delimiters : List Char) :
    Yields good (untilBefore delimiters p) P :=
  h.entirely.gives.untilBefore delimiters

/-- Moving over a component leaves good ones. -/
theorem yields_step : Yields good step fun _ => True := by
  intro c a after hc hrun
  cases hrun
  exact ⟨trivial, hc.of_suffix (List.drop_suffix 1 c.rest)⟩

/-- A parser up to a delimiter yields what it yields otherwise. -/
theorem Yields.untilAfter (h : Yields good p P) (delimiters : List Char) :
    Yields good (untilAfter delimiters p) P :=
  (h.untilBefore delimiters).bind fun _ ha => yields_step.bind fun _ _ => yields_pure ha

/-- Between commas, every segment yields what the parser yields, and there is a segment. -/
theorem Yields.commaSeparated (h : Yields good p P) :
    Yields good (commaSeparated p) fun items => items ≠ [] ∧ ∀ a ∈ items, P a := by
  refine (h.untilBefore _).bind fun first hfirst => ?_
  have hsegment := yields_step.bind fun _ _ => h.untilBefore [',']
  refine (hsegment.repeatWhile _).bind fun others hothers => ?_
  refine yields_pure ⟨List.cons_ne_nil first others, ?_⟩
  intro a ha
  rcases List.mem_cons.mp ha with rfl | ha
  · exact hfirst
  · exact hothers a ha

end Parser

end Css
