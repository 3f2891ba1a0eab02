import Css.Proofs.Parser.Clean
import Css.Supports.Grammar

/-!
# The forms of supports conditions

A condition is a term, a negated term, or terms that are joined by one word throughout.
`Form.Spells` says so of components, `Form.Makes` of conditions, and a condition `IsReadFrom`
components if the forms agree and its parts are what the terms stand for, in order.
-/

namespace Css

open Css.Parser
open Component (significant)

namespace Condition

/-- A term is a block in round brackets or a function, and holds no error token at any depth. -/
def IsTerm (component : Component) : Prop :=
  (isBlock .round component = true ∨ isFunction component = true) ∧ component.errorToken? = none

/-- The component is a block in round brackets, and the parser reads its contents as the value. -/
def IsReadInside {α : Type} (p : Parser α) (component : Component) (a : α) : Prop :=
  isBlock .round component = true ∧ ∃ before after, inside component p before = .ok a after

/-- A block that the parser fails on somewhere holds nothing that it reads. -/
theorem not_isReadInside_of_error {α : Type} {p : Parser α} {component : Component}
    {c after : Cursor} {e : ParseError} (h : inside component p c = .error e after) (a : α) :
    ¬ IsReadInside p component a := by
  rintro ⟨-, before, mid, hread⟩
  have hstays := stays_inside component p
  have hhere : inside component p c = .ok a c :=
    hstays.eq_ok_iff.mpr ⟨(hstays.eq_ok_iff.mp hread).1, rfl⟩
  rw [h] at hhere
  cases hhere

/-- A component stands for the condition in its brackets. If no condition is read there, it stands
for the declaration in them, and if no declaration is read there either, for its text. -/
inductive StandsFor (context : Context) (component : Component) : Condition → Prop where
  | parenthesized {c : Condition} (hread : IsReadInside (parser context) component c) :
      StandsFor context component (.parenthesized c)
  | declaration {d : Declaration} (hcondition : ∀ c, ¬ IsReadInside (parser context) component c)
      (hread : IsReadInside (Declaration.parser context) component d) :
      StandsFor context component (.declaration d)
  | future (hcondition : ∀ c, ¬ IsReadInside (parser context) component c)
      (hdeclaration : ∀ d, ¬ IsReadInside (Declaration.parser context) component d) :
      StandsFor context component (.future (String.ofList component.text))

/-- What stands in brackets is a condition in brackets, a declaration or a text. -/
def IsBracketed : Condition → Prop
  | parenthesized _ | declaration _ | future _ => True
  | _ => False

/-- What a component stands for is in brackets. -/
theorem StandsFor.isBracketed {context : Context} {component : Component} {t : Condition}
    (h : StandsFor context component t) : t.IsBracketed := by
  cases h <;> trivial

/-- The ways to put terms together. -/
inductive Form where
  | negation
  | single
  | joined (connective : Connective)

/-- The significant components are the terms with the words that put them together in this form. -/
inductive Form.Spells : Form → List Component → List Component → Prop where
  | negation {word term : Component} (hword : keyword? word = some "not") :
      Spells negation [term] [word, term]
  | single (term : Component) : Spells single [term] [term]
  | joined {connective : Connective} {first : Component} {others : List (Component × Component)}
      (hsome : others ≠ [])
      (hwords : ∀ other ∈ others, keyword? other.1 = some (Vocabulary.word connective)) :
      Spells (joined connective) (first :: others.map Prod.snd)
        (first :: others.flatMap fun other => [other.1, other.2])

/-- The condition has this form, with these parts in order. -/
inductive Form.Makes : Form → List Condition → Condition → Prop where
  | negation (c : Condition) : Makes negation [c] (.negation c)
  | single (c : Condition) : Makes single [c] c
  | conjunction {cs : List Condition} (hcs : 2 ≤ cs.length) :
      Makes (joined .and) cs (.conjunction cs)
  | disjunction {cs : List Condition} (hcs : 2 ≤ cs.length) :
      Makes (joined .or) cs (.disjunction cs)

/-- At any depth, negated conditions are bracketed, and so are the two or more that a word joins. -/
inductive Layered : Condition → Prop where
  | negation {c : Condition} (hc : c.IsBracketed) (hlayered : Layered c) : Layered (.negation c)
  | conjunction {cs : List Condition} (hlength : 2 ≤ cs.length) (hcs : ∀ c ∈ cs, c.IsBracketed)
      (hlayered : ∀ c ∈ cs, Layered c) : Layered (.conjunction cs)
  | disjunction {cs : List Condition} (hlength : 2 ≤ cs.length) (hcs : ∀ c ∈ cs, c.IsBracketed)
      (hlayered : ∀ c ∈ cs, Layered c) : Layered (.disjunction cs)
  | parenthesized {c : Condition} (hlayered : Layered c) : Layered (.parenthesized c)
  | declaration (d : Declaration) : Layered (.declaration d)
  | future (text : String) : Layered (.future text)

/-- A condition is layered if its parts are bracketed and layered. -/
theorem Form.Makes.layered {form : Form} {children : List Condition} {c : Condition}
    (h : form.Makes children c) (hbracketed : ∀ child ∈ children, child.IsBracketed)
    (hlayered : ∀ child ∈ children, child.Layered) : c.Layered := by
  cases h with
  | negation c =>
      have hmem := List.mem_singleton_self c
      exact .negation (hbracketed c hmem) (hlayered c hmem)
  | single c => exact hlayered c (List.mem_singleton_self c)
  | conjunction hcs => exact .conjunction hcs hbracketed hlayered
  | disjunction hcs => exact .disjunction hcs hbracketed hlayered

/-- What holds of words and of the terms of a condition holds of all its significant components. -/
theorem Form.Spells.forall_mem {form : Form} {terms components : List Component}
    (h : form.Spells terms components) {P : Component → Prop}
    (hword : ∀ {component word}, keyword? component = some word → P component)
    (hterms : ∀ term ∈ terms, P term) : ∀ component ∈ components, P component := by
  cases h with
  | negation h => exact List.forall_mem_cons.mpr ⟨hword h, hterms⟩
  | single => exact hterms
  | joined hsome hwords =>
      obtain ⟨hfirst, hterms⟩ := List.forall_mem_cons.mp hterms
      refine List.forall_mem_cons.mpr ⟨hfirst, fun component hmem => ?_⟩
      obtain ⟨other, hother, hmem⟩ := List.mem_flatMap.mp hmem
      simp only [List.mem_cons, List.not_mem_nil, or_false] at hmem
      rcases hmem with rfl | rfl
      · exact hword (hwords other hother)
      · exact hterms _ (List.mem_map_of_mem hother)

/-- There are no error tokens in words, so there are none in a condition if there are none in its
terms. -/
theorem Form.Spells.errorToken?_eq_none {form : Form} {terms components : List Component}
    (h : form.Spells terms components) (hterms : ∀ term ∈ terms, term.errorToken? = none) :
    ∀ component ∈ components, component.errorToken? = none := by
  refine h.forall_mem (fun hword => ?_) hterms
  obtain ⟨name, hname, -⟩ := Option.map_eq_some_iff.mp hword
  exact Component.errorToken?_of_identName? hname

/-- The terms of a condition are among its components. -/
theorem Form.Spells.mem {form : Form} {terms components : List Component}
    (h : form.Spells terms components) : ∀ term ∈ terms, term ∈ components := by
  cases h with
  | negation => simp
  | single => simp
  | @joined connective first others hsome hwords =>
      intro term hmem
      rcases List.mem_cons.mp hmem with rfl | hmem
      · exact List.mem_cons_self ..
      · obtain ⟨other, hother, rfl⟩ := List.mem_map.mp hmem
        exact List.mem_cons_of_mem _ (List.mem_flatMap.mpr ⟨other, hother, by simp⟩)

/-- The condition is put together from what the terms among the components stand for, in order, and
the conditions in its brackets are put together in the same way. -/
structure IsReadFrom (context : Context) (c : Condition) (components : List Component) : Prop where
  layered : c.Layered
  spelled : ∃ form terms children, Form.Spells form terms (significant components) ∧
    (∀ term ∈ terms, IsTerm term) ∧ List.Forall₂ (StandsFor context) terms children ∧
    form.Makes children c

/-- Components that a condition is read from hold no error token. -/
theorem IsReadFrom.errorTokenOf?_eq_none {context : Context} {c : Condition}
    {components : List Component} (h : IsReadFrom context c components) :
    Component.errorTokenOf? components = none := by
  obtain ⟨form, terms, children, hspells, hterms, -⟩ := h.spelled
  exact Component.errorTokenOf?_eq_none_iff.mpr
    (hspells.errorToken?_eq_none fun term hmem => (hterms term hmem).2)

/-- As many conditions as there are terms make a condition. -/
theorem Form.Spells.exists_makes {form : Form} {terms components : List Component}
    {children : List Condition} (h : form.Spells terms components)
    (hlength : children.length = terms.length) : ∃ c, form.Makes children c := by
  cases h with
  | negation hword =>
      obtain ⟨c, rfl⟩ := List.length_eq_one_iff.mp hlength
      exact ⟨_, .negation c⟩
  | single term =>
      obtain ⟨c, rfl⟩ := List.length_eq_one_iff.mp hlength
      exact ⟨_, .single c⟩
  | @joined connective first others hsome hwords =>
      have hothers := List.length_pos_iff.mpr hsome
      have htwo : 2 ≤ children.length := by
        rw [hlength, List.length_cons, List.length_map]
        omega
      cases connective with
      | and => exact ⟨_, .conjunction htwo⟩
      | or => exact ⟨_, .disjunction htwo⟩

end Condition

end Css
