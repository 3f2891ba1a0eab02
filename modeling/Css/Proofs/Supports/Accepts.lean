import Css.Proofs.Parser.Written
import Css.Proofs.Supports.Terms
import Css.Proofs.Vocabulary

/-!
# Which supports conditions are accepted

A condition is one term, a negated term, or terms that are joined by one word throughout, and it is
read from nothing else. What it is read as is put together from what its terms stand for, in order,
and so are the conditions in the brackets of terms, at any depth.
-/

namespace Css

open Css.Parser
open Component (significant significant_append)

namespace Condition

/-- Terms agree up to a depth if the conditions in their brackets do on what is less deep. -/
theorem agreeUpTo_term {n : Nat} {p q : Parser Condition} (context : Context)
    (h : ∀ m < n, AgreeUpTo m p q) : AgreeUpTo n (term context p) (term context q) := by
  intro c hc
  show (next >>= termIn context p) c = (next >>= termIn context q) c
  refine bind_congr_of_ok fun component mid hnext => ?_
  obtain ⟨rest, hrest, -⟩ := next_eq_ok_iff.mp hnext
  have hmem := (Component.suffix_of_dropWhile hrest).subset (List.mem_cons_self ..)
  have hinside : inside component p = inside component q :=
    funext (AgreeUpTo.inside h ((Component.depth_le_of_mem hmem).trans hc))
  unfold termIn
  rw [hinside]

/-- A term leads on. -/
theorem advances_term (context : Context) (p : Parser Condition) : Advances (term context p) :=
  consumes_next.advances.bind fun component => (stays_termIn context p component).advances

/-- A condition calls itself on the contents of brackets only. -/
theorem agreeUpTo_conditionWith {n : Nat} {p q : Parser Condition} (context : Context)
    (h : ∀ m < n, AgreeUpTo m p q) :
    AgreeUpTo n (conditionWith context p) (conditionWith context q) := by
  have hterm := agreeUpTo_term context h
  have hadvances := advances_term context
  have hexpect {α : Type} (value? : Component → Option α) : Advances (expect value?) :=
    (consumes_expect value?).advances
  have hnegated : Advances (succeeds (identMatching "not")) :=
    (hexpect _).attempt.bind fun _ => advances_pure _
  refine AgreeUpTo.bind hnegated (fun _ _ => rfl) fun negated => ?_
  split
  · exact hterm.andThen _
  · refine AgreeUpTo.bind (hadvances p) hterm fun first => ?_
    refine AgreeUpTo.bind advances_isExhausted (fun _ _ => rfl) fun exhausted => ?_
    split
    · exact fun _ _ => rfl
    · refine AgreeUpTo.bind (hexpect _) (fun _ _ => rfl) fun connective => ?_
      refine AgreeUpTo.bind (hadvances p) hterm fun second => ?_
      have hother : AgreeUpTo n (do sameConnective connective; term context p)
          (do sameConnective connective; term context q) :=
        AgreeUpTo.bind (hexpect _) (fun _ _ => rfl) fun _ => hterm
      exact (AgreeUpTo.many ((hexpect _).bind fun _ => hadvances p) hother).andThen _

/-- A condition reads the contents of brackets as it reads conditions. -/
theorem parser_eq (context : Context) (c : Cursor) :
    parser context c = conditionWith context (parser context) c :=
  recursive_eq (fun h => agreeUpTo_conditionWith context h) c

instance : LawfulVocabulary Connective where
  find?_word member := by cases member <;> rfl

/-- What a condition is spelled with, without fillers. -/
def Spelled (context : Context) (c : Condition) (components : List Component) : Prop :=
  ∃ form terms children, Form.Spells form terms components ∧
    List.Forall₂ (fun term child => termOf? context term = some child) terms children ∧
    form.Makes children c

/-- A connective is found by its word. -/
theorem keyword?_eq_word_iff {component : Component} {connective : Connective} :
    (keyword? component).bind (Vocabulary.find? Connective) = some connective ↔
      keyword? component = some (Vocabulary.word connective) := by
  rw [Option.bind_eq_some_iff]
  constructor
  · rintro ⟨word, hword, hfind⟩
    rw [hword, Vocabulary.word_of_find? hfind]
  · exact fun hword => ⟨_, hword, Vocabulary.find?_word connective⟩

/-- The components are a word that joins terms and a term that it joins to others. -/
def SpelledOther (context : Context) (connective : Connective) (t : Condition)
    (components : List Component) : Prop :=
  ∃ word term, components = [word, term] ∧
    keyword? word = some (Vocabulary.word connective) ∧ termOf? context term = some t

/-- The components are other terms, each behind the word that joins it to the others. -/
def OtherTerms (context : Context) (connective : Connective) (children : List Condition)
    (components : List Component) : Prop :=
  ∃ others : List (Component × Component),
    components = (others.flatMap fun other => [other.1, other.2]) ∧
    (∀ other ∈ others, keyword? other.1 = some (Vocabulary.word connective)) ∧
    List.Forall₂ (fun term child => termOf? context term = some child) (others.map Prod.snd)
      children

/-- Other terms stand in a row with their words. -/
theorem inARow_iff {context : Context} {connective : Connective} {children : List Condition}
    {part : List Component} :
    InARow (fun t part => SpelledOther context connective t (significant part)) children part ↔
      OtherTerms context connective children (significant part) := by
  constructor
  · intro h
    induction h with
    | nil hpart => exact ⟨[], hpart, nofun, .nil⟩
    | cons ha _ ih =>
        obtain ⟨word, term, hfront, hword, hterm⟩ := ha
        obtain ⟨others, hback, hwords, hterms⟩ := ih
        refine ⟨(word, term) :: others, ?_, ?_, .cons hterm hterms⟩
        · rw [significant_append, hfront, hback]
          rfl
        · exact List.forall_mem_cons.mpr ⟨hword, hwords⟩
  · rintro ⟨others, hpart, hwords, hterms⟩
    induction others generalizing part children with
    | nil =>
        cases hterms
        exact .nil hpart
    | cons other others ih =>
        cases hterms with
        | cons hterm hterms =>
            have hsplit : significant part =
                [other.1, other.2] ++ others.flatMap fun other => [other.1, other.2] := hpart
            obtain ⟨front, back, rfl, hfront, hback⟩ := List.filter_eq_append_iff.mp hsplit
            obtain ⟨hword, hwords⟩ := List.forall_mem_cons.mp hwords
            exact .cons ⟨other.1, other.2, hfront, hword, hterm⟩ (ih hback hwords hterms)

/-- A connective and a term are read. -/
theorem readsExactly_other (context : Context) (connective : Connective) :
    ReadsExactly (do sameConnective connective; term context (parser context))
      (fun t part => SpelledOther context connective t (significant part)) Anything := by
  have hterm : ReadsExactly (term context (parser context))
      (fun t part => Single (termOf? context) t (significant part)) Anything :=
    readsExactly_term context
  refine ((readsExactly_expect _).leading fun _ => hterm).of_iff fun t part => ⟨?_, ?_⟩
  · rintro ⟨word, rest, u, hpart, hword, term, rfl, hterm⟩
    have hconnective : (keyword? word).bind (Vocabulary.find? Connective) = some connective := by
      simpa using hword
    exact ⟨word, term, hpart, keyword?_eq_word_iff.mp hconnective, hterm⟩
  · rintro ⟨word, term, hpart, hword, hterm⟩
    exact ⟨word, [term], (), hpart, if_pos (keyword?_eq_word_iff.mpr hword), term, rfl, hterm⟩

/-- The terms are joined with two others in front. -/
def Joined (context : Context) (first : Condition) (connective : Connective)
    (second c : Condition) (components : List Component) : Prop :=
  ∃ children, c = join connective (first :: second :: children) ∧
    OtherTerms context connective children components

/-- What may be spelled behind the first term: nothing, or a word and other terms. -/
def SpelledBehind (context : Context) (first c : Condition) (components : List Component) :
    Prop :=
  (c = first ∧ components = []) ∨
    Leading (fun component => (keyword? component).bind (Vocabulary.find? Connective))
      (fun connective => Leading (termOf? context) (Joined context first connective)) c components

/-- What is read behind the first term. -/
theorem readsExactly_behind (context : Context) (first : Condition) :
    ReadsExactly
      (do
        if ← isExhausted then return first
        let connective ← member Connective
        let second ← term context (parser context)
        let others ← many do
          sameConnective connective
          term context (parser context)
        return join connective (first :: second :: others))
      (fun c part => SpelledBehind context first c (significant part)) AtEnd := by
  have hothers (second : Condition) (connective : Connective) : ReadsExactly _
      (fun c part => Joined context first connective second c (significant part)) AtEnd :=
    (((readsExactly_other context connective).many fun ⟨word, term, hpart, _⟩ hnil => by
      rw [hnil] at hpart
      cases hpart).map fun others => join connective (first :: second :: others)).of_iff
        fun c part => exists_congr fun others => and_congr_right fun _ => inARow_iff
  have hsecond := (readsExactly_expect fun component =>
    (keyword? component).bind (Vocabulary.find? Connective)).leading fun connective =>
      (readsExactly_term context).leading fun second => hothers second connective
  exact hsecond.unlessExhausted first Leading.ne_nil

/-- A group is no word. -/
theorem keyword?_of_termOf? {context : Context} {component : Component} {t : Condition}
    (h : termOf? context component = some t) : keyword? component = none := by
  cases component with
  | leaf token => cases h
  | group => rfl

/-- A negated term is spelled. -/
def SpelledNegation (context : Context) (c : Condition) (components : List Component) : Prop :=
  Leading (fun component => if keyword? component = some "not" then some () else none)
    (fun _ c components => ∃ t, c = .negation t ∧ Single (termOf? context) t components)
      c components

/-- What the two branches of the parser read is what spells a condition. -/
theorem spelled_iff {context : Context} {c : Condition} {components : List Component} :
    SpelledNegation context c components ∨
        Leading (termOf? context) (SpelledBehind context) c components ↔
      Spelled context c components := by
  constructor
  · rintro (⟨word, rest, u, rfl, hword, t, rfl, term, rfl, hterm⟩ |
      ⟨term, rest, first, rfl, hfirst, ⟨rfl, rfl⟩ |
        ⟨word, rest, connective, rfl, hword, other, rest, second, rfl, hsecond, children, rfl,
          others, rfl, hwords, hterms⟩⟩)
    · have hnot : keyword? word = some "not" := by simpa using hword
      exact ⟨_, _, _, .negation hnot, .cons hterm .nil, .negation t⟩
    · exact ⟨_, _, _, .single term, .cons hfirst .nil, .single _⟩
    · have hspells : Form.Spells (.joined connective) (term :: other :: others.map Prod.snd)
          (term :: ((word, other) :: others).flatMap fun other => [other.1, other.2]) :=
        .joined (List.cons_ne_nil (word, other) others)
          (List.forall_mem_cons.mpr ⟨keyword?_eq_word_iff.mp hword, hwords⟩)
      refine ⟨_, _, _, hspells, .cons hfirst (.cons hsecond hterms), ?_⟩
      cases connective with
      | and => exact .conjunction (by simp)
      | or => exact .disjunction (by simp)
  · rintro ⟨form, terms, children, hspells, hterms, hmakes⟩
    cases hspells with
    | negation hword =>
        cases hmakes with
        | negation c =>
            cases hterms with
            | cons hterm _ =>
              exact .inl ⟨_, _, (), rfl, if_pos hword, _, rfl, _, rfl, hterm⟩
    | single term =>
        cases hmakes with
        | single =>
            cases hterms with
            | cons hterm _ => exact .inr ⟨_, _, _, rfl, hterm, .inl ⟨rfl, rfl⟩⟩
    | @joined connective term others hsome hwords =>
        obtain ⟨other, others, rfl⟩ := List.exists_cons_of_ne_nil hsome
        obtain ⟨hword, hwords⟩ := List.forall_mem_cons.mp hwords
        have hjoin : c = join connective children := by
          cases hmakes <;> rfl
        cases hterms with
        | cons hfirst hterms =>
            cases hterms with
            | cons hsecond hterms =>
                exact .inr ⟨term, _, _, rfl, hfirst, .inr ⟨other.1, _, connective, rfl,
                  keyword?_eq_word_iff.mpr hword, other.2, _, _, rfl, hsecond, _, hjoin,
                  others, rfl, hwords, hterms⟩⟩

/-- A condition is read where one is spelled. -/
theorem parser_readsExactly (context : Context) :
    ReadsExactly (parser context) (fun c part => Spelled context c (significant part)) AtEnd := by
  have hterm := readsExactly_term context
  have hcondition := (readsExactly_expect fun component =>
    if keyword? component = some "not" then some () else none).attempt
      (fun _ => (hterm.map Condition.negation).of_stops fun _ _ => trivial)
      (hterm.leading (readsExactly_behind context)) (fun _ _ => trivial) (by
        -- a term is a group, so it is not the word that negates
        rintro c part rest ⟨component, others, t, hpart, ht, -⟩ - stop
        have hall : significant (part ++ rest) = component :: (others ++ significant rest) := by
          rw [significant_append, hpart, List.cons_append]
        exact expect_of_significant hall (by simp [keyword?_of_termOf? ht]) stop)
  have hwith : ReadsExactly (conditionWith context (parser context))
      (fun c part => Spelled context c (significant part)) AtEnd := by
    unfold conditionWith
    rw [succeeds_bind]
    exact hcondition.of_iff fun c part => (or_congr_left leading_iff).trans spelled_iff
  exact hwith.congr fun c t after => by rw [parser_eq]

/-- What is read entirely is put together from what the terms stand for. -/
theorem isReadFrom_of_entirely {context : Context} {components : List Component} {stop : Position}
    {c : Condition} {last : Cursor}
    (h : entirely (parser context) ⟨components, stop⟩ = .ok c last) :
    IsReadFrom context c components := by
  induction hdepth : Component.depthOf components using Nat.strong_induction_on
    generalizing components stop c last with
  | _ n ih =>
    obtain ⟨⟨form, terms, children, hspells, htermOf, hmakes⟩, -⟩ :=
      ((parser_readsExactly context).entirely_eq_ok_iff fun _ h => h).mp h
    have hmem : ∀ term ∈ terms, term ∈ components := fun term hterm =>
      (List.mem_filter.mp (hspells.mem term hterm)).1
    -- what is read in the brackets of a term is nested less deeply
    have hnested {term : Component} (hterm : term ∈ components) {nested : Condition}
        {before after : Cursor} (hread : inside term (parser context) before = .ok nested after) :
        nested.Layered ∧ term.errorToken? = none := by
      obtain ⟨-, opening, contents, closing, inner, rfl, hcontents⟩ := inside_eq_ok_iff.mp hread
      have hless : Component.depthOf contents < n := by
        have hle := Component.depth_le_of_mem hterm
        rw [Component.depth] at hle
        omega
      have hfrom := ih _ hless hcontents rfl
      exact ⟨hfrom.layered, hfrom.errorTokenOf?_eq_none⟩
    have hpairs : List.Forall₂ (fun term child =>
        IsTerm term ∧ StandsFor context term child ∧ child.Layered) terms children := by
      refine ((List.forall₂_and_left _ _).mpr ⟨hmem, htermOf⟩).imp fun term child h => ?_
      obtain ⟨hterm, hchild⟩ := h
      obtain ⟨hisTerm, hstands⟩ := isTerm_of_termOf? (fun hread => (hnested hterm hread).2) hchild
      refine ⟨hisTerm, hstands, ?_⟩
      cases hstands with
      | parenthesized hread =>
          obtain ⟨-, before, after, hread⟩ := hread
          exact .parenthesized (hnested hterm hread).1
      | declaration => exact .declaration _
      | future => exact .future _
    obtain ⟨hterms, hpairs⟩ := (List.forall₂_and_left _ _).mp hpairs
    have hflipped : List.Forall₂ (fun child term => child.Layered ∧ StandsFor context term child)
        children terms := List.Forall₂.flip (hpairs.imp fun _ _ h => ⟨h.2, h.1⟩)
    obtain ⟨hlayered, hstands⟩ := (List.forall₂_and_left _ _).mp hflipped
    have hbracketed : ∀ child ∈ children, child.IsBracketed :=
      ((List.forall₂_and_left _ _).mp (hstands.imp fun _ _ h => ⟨h.isBracketed, h⟩)).1
    exact ⟨hmakes.layered hbracketed hlayered,
      form, terms, children, hspells, hterms, hpairs.imp fun _ _ h => h.1, hmakes⟩

/-- A condition is accepted if and only if it has one of the forms, with terms without error tokens,
and then it is put together from what its terms stand for. -/
theorem accepted_iff (context : Context) (components : List Component) (stop : Position) :
    ((∃ c last, entirely (parser context) ⟨components, stop⟩ = .ok c last) ↔
      ∃ form terms, Form.Spells form terms (significant components) ∧
        ∀ term ∈ terms, IsTerm term) ∧
    ∀ c last, entirely (parser context) ⟨components, stop⟩ = .ok c last →
      IsReadFrom context c components := by
  refine ⟨⟨?_, ?_⟩, fun c last h => isReadFrom_of_entirely h⟩
  · rintro ⟨c, last, h⟩
    obtain ⟨form, terms, children, hspells, hterms, -⟩ := (isReadFrom_of_entirely h).spelled
    exact ⟨form, terms, hspells, hterms⟩
  · rintro ⟨form, terms, hspells, hterms⟩
    have hchildren : ∀ term ∈ terms,
        termOf? context term = some ((termOf? context term).getD default) := by
      intro term hmem
      obtain ⟨t, ht⟩ := exists_termOf? context (hterms term hmem)
      rw [ht, Option.getD_some]
    have hall : List.Forall₂ (fun term child => termOf? context term = some child) terms
        (terms.map fun term => (termOf? context term).getD default) :=
      List.forall₂_map_right_iff.mpr (List.forall₂_same.mpr hchildren)
    obtain ⟨c, hmakes⟩ := hspells.exists_makes hall.length_eq.symm
    exact ⟨c, _, ((parser_readsExactly context).entirely_eq_ok_iff fun _ h => h).mpr
      ⟨⟨form, terms, _, hspells, hall, hmakes⟩, rfl⟩⟩

/-- A function without arguments. -/
def call (name : String) : Component :=
  .group (.written (.function name)) [] (some (.written (.closing .round)))

/-- The round brackets around components, as they are written. -/
def inBrackets (components : List Component) : Component :=
  .group (.written (.opening .round)) components (some (.written (.closing .round)))

/-- The declaration of an identifier as a property in brackets. -/
def declared (name value : String) : Component :=
  inBrackets [.written (.ident name), .written .colon, .written (.ident value)]

/-- `f() AND ((a:b)) and (c:d)`. -/
def mixedTerms : List Component :=
  [call "f", .written (.ident "AND"), inBrackets [declared "a" "b"], .written (.ident "and"),
    declared "c" "d"]

/-- What `f() AND ((a:b)) and (c:d)` asks. -/
def mixedCondition : Condition :=
  .conjunction [.future "f()", .parenthesized (.declaration ⟨none, "a", .specified "b", false⟩),
    .declaration ⟨none, "c", .specified "d", false⟩]

/-- `f() AND ((a:b)) and (c:d)` joins a text, a condition in brackets and a declaration. -/
theorem accepted_iff_mixed : ∃ (c : Condition) (last : Cursor), c = mixedCondition ∧
    entirely (parser (.ofMode .strict)) ⟨mixedTerms, default⟩ = .ok c last ∧
      IsReadFrom (.ofMode .strict) c mixedTerms := by
  obtain ⟨haccepted, hread⟩ := accepted_iff (.ofMode .strict) mixedTerms default
  have hspells : Form.Spells (.joined .and)
      [call "f", inBrackets [declared "a" "b"], declared "c" "d"] (significant mixedTerms) := by
    refine .joined (List.cons_ne_nil (.written (.ident "AND"), inBrackets [declared "a" "b"])
      [(.written (.ident "and"), declared "c" "d")]) ?_
    simp only [List.forall_mem_cons, List.not_mem_nil, false_implies, implies_true, and_true]
    exact ⟨by cbv, by cbv⟩
  have hterms : ∀ term ∈ [call "f", inBrackets [declared "a" "b"], declared "c" "d"],
      IsTerm term := by
    simp only [List.forall_mem_cons, List.not_mem_nil, false_implies, implies_true, and_true]
    exact ⟨⟨.inr rfl, rfl⟩, ⟨.inl rfl, rfl⟩, ⟨.inl rfl, rfl⟩⟩
  obtain ⟨c, last, h⟩ := haccepted.mpr ⟨_, _, hspells, hterms⟩
  obtain ⟨again, hrun⟩ : ∃ again, entirely (parser (.ofMode .strict)) ⟨mixedTerms, default⟩ =
      .ok mixedCondition again := ⟨_, by cbv⟩
  refine ⟨c, last, ?_, h, hread c last h⟩
  rw [hrun] at h
  cases h
  rfl

end Condition

end Css
