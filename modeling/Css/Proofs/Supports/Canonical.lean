import Css.Proofs.Declaration.Yields
import Css.Proofs.Supports.Terms

/-!
# What conditions are made of

The declarations that a condition asks for and the texts that it keeps, at any depth,
`Condition.Forall`. Each text that is kept is that of a component that was read,
`Condition.parser_yields`.
-/

namespace Css

open Css.Parser

namespace Condition

mutual

/-- The declarations and the kept texts in the condition, at any depth, have the properties. -/
def Forall (declared : Declaration → Prop) (kept : String → Prop) : Condition → Prop
  | negation c => c.Forall declared kept
  | conjunction cs => ForallIn declared kept cs
  | disjunction cs => ForallIn declared kept cs
  | parenthesized c => c.Forall declared kept
  | declaration d => declared d
  | future text => kept text

/-- The declarations and the kept texts in the conditions, at any depth, have the properties. -/
def ForallIn (declared : Declaration → Prop) (kept : String → Prop) : List Condition → Prop
  | [] => True
  | c :: rest => c.Forall declared kept ∧ ForallIn declared kept rest

end

variable {declared : Declaration → Prop} {kept : String → Prop}

/-- What holds of conditions holds of each of them. -/
theorem forallIn_iff {cs : List Condition} :
    ForallIn declared kept cs ↔ ∀ c ∈ cs, c.Forall declared kept := by
  induction cs with
  | nil => simp [ForallIn]
  | cons c cs ih => rw [ForallIn, ih, List.forall_mem_cons]

mutual

/-- A condition is made of its declarations and its kept texts. -/
theorem forall_iff (c : Condition) :
    c.Forall declared kept ↔
      c.Forall declared (fun _ => True) ∧ c.Forall (fun _ => True) kept := by
  cases c with
  | negation c => exact forall_iff c
  | conjunction cs => exact forallIn_iff_and cs
  | disjunction cs => exact forallIn_iff_and cs
  | parenthesized c => exact forall_iff c
  | declaration d => simp [Forall]
  | future text => simp [Forall]

/-- Conditions are made of their declarations and their kept texts. -/
theorem forallIn_iff_and (cs : List Condition) :
    ForallIn declared kept cs ↔
      ForallIn declared (fun _ => True) cs ∧ ForallIn (fun _ => True) kept cs := by
  cases cs with
  | nil => simp [ForallIn]
  | cons c cs =>
      rw [ForallIn, ForallIn, ForallIn, forall_iff c, forallIn_iff_and cs]
      exact and_and_and_comm

end

/-- What is made of terms that are joined is made of each of them. -/
theorem forall_join (connective : Connective) {cs : List Condition}
    (h : ∀ c ∈ cs, c.Forall declared kept) : (join connective cs).Forall declared kept := by
  cases connective <;> exact forallIn_iff.mpr h

/-- Reading a condition leaves good components, and each text that is kept is that of a good group
without error tokens. -/
theorem parser_yields {good : List Component → Prop} [Hereditary good]
    (hkept : ∀ {opening contents closing}, good [.group opening contents closing] →
      (Component.group opening contents closing).errorToken? = none →
        kept (String.ofList (Component.group opening contents closing).text)) (context : Context) :
    Yields good (parser context) (Forall (fun _ => True) kept) := by
  refine yields_recursive fun inner hinner => ?_
  have henclosed {component : Component} (hcomponent : component.All good)
      (hgroup : isBlock .round component = true ∨ isFunction component = true) :
      Yields good (enclosed component) (Forall (fun _ => True) kept) := by
    intro c t after hc hrun
    obtain ⟨hclean, rfl, rfl⟩ := (enclosed_eq_ok_iff hgroup).mp hrun
    obtain ⟨opening, contents, closing, rfl⟩ := exists_group hgroup
    exact ⟨hkept hcomponent hclean, hc⟩
  have hterm : Yields good (term context inner) (Forall (fun _ => True) kept) := by
    refine yields_next.bind fun component hcomponent => ?_
    split
    · rename_i hblock
      refine (hinner.inside hcomponent).attempt.bind fun condition hcondition => ?_
      split
      · rename_i c
        exact yields_pure (hcondition c rfl)
      · refine ((Declaration.parser_yields context).inside hcomponent).attempt.bind
          fun declaration _ => ?_
        split
        · exact yields_pure trivial
        · exact henclosed hcomponent (.inl hblock)
    · split
      · exact henclosed hcomponent (.inr ‹_›)
      · exact yields_unexpected
  refine (yields_expect_true _).succeeds.bind fun isNegation _ => ?_
  split
  · exact hterm.bind fun _ ht => yields_pure ht
  · refine hterm.bind fun first hfirst => yields_isExhausted.bind fun _ _ => ?_
    split
    · exact yields_pure hfirst
    · refine (yields_expect_true _).bind fun connective _ => hterm.bind fun second hsecond => ?_
      refine (Yields.many ((yields_expect_true _).bind fun _ _ => hterm)).bind
        fun others hothers => ?_
      refine yields_pure (forall_join connective ?_)
      rintro c (_ | ⟨_, _ | ⟨_, hmem⟩⟩)
      · exact hfirst
      · exact hsecond
      · exact hothers c hmem

end Condition

end Css
