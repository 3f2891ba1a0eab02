import Css.Declaration.Grammar
import Css.Proofs.Parser.Expect

/-!
# What the grammar of declarations yields

A list of declarations yields what the parser behind each colon yields, and a declaration is
important only where that is allowed.
-/

namespace Css

open Css.Parser

variable {α : Type} {good : List Component → Prop} [Hereditary good]

/-- In a list of declarations, every item satisfies what the parser behind the colon yields. -/
theorem yields_declarationList {afterColon : String → Parser α} {P : α → Prop}
    (h : ∀ name, Yields good (afterColon name) P) :
    Yields good (declarationList afterColon) fun items => ∀ a ∈ items, P a := by
  refine (Yields.many (P := fun item => ∀ a ∈ item, P a) ?_).bind fun items hitems => ?_
  · refine yields_next.bind fun component _ => ?_
    split
    · exact yields_pure nofun
    · refine (Yields.untilAfter ((yields_expect_true _).bind fun _ _ => h _) _).bind fun a ha => ?_
      exact yields_pure (by rintro _ ⟨⟩; exact ha)
    · exact yields_unexpected
  · refine yields_pure fun a ha => ?_
    obtain ⟨item, hitem, hid⟩ := List.mem_filterMap.mp ha
    exact hitems item hitem a hid

/-- A value, specified or a keyword, leaves good components. -/
theorem PropertyValue.parser_yields (allowEmpty : Bool) :
    Yields good (parser allowEmpty) fun _ => True := by
  refine (yields_expect_true _).entirely.attempt.bind fun keyword _ => ?_
  split
  · exact yields_pure trivial
  · refine Yields.bind (P := fun _ => True) ?_ fun _ _ => yields_pure trivial
    refine yields_isExhausted.bind fun _ _ => ?_
    dsimp only
    split
    · exact yields_location.bind fun _ _ => yields_fault_bind
    · exact yields_noErrorToken.captured

namespace Declaration

/-- A declaration is important only where the context allows it. -/
theorem yields_afterColon (context : Context) (name : String) :
    Yields good (afterColon context name) fun d =>
      d.important = true → context.allowsImportance = true := by
  unfold afterColon
  refine ((PropertyValue.parser_yields _).untilBefore _).bind fun value _ => ?_
  refine yields_location.bind fun location _ => ?_
  refine Yields.bind (P := fun _ => True) ?_ fun important _ => ?_
  · exact ((yields_expect_true _).bind fun _ _ => yields_expect_true _).succeeds
  · dsimp only
    split
    · exact yields_fault_bind
    · rename_i himportance
      refine yields_atEnd.bind fun _ _ => yields_pure fun himportant => ?_
      simpa [show important = true from himportant] using himportance

/-- A single declaration leaves good components. -/
theorem parser_yields (context : Context) : Yields good (parser context) fun _ => True := by
  refine (yields_expect_true _).bind fun name _ => (yields_expect_true _).bind fun _ _ => ?_
  exact (yields_afterColon context name).mono fun _ _ => trivial

end Declaration

/-- Declarations are important only where the context allows it. -/
theorem Declarations.parser_yields (context : Context) :
    Yields good (parser context) fun list => ∀ d ∈ list.declarations,
      d.important = true → context.allowsImportance = true :=
  (yields_declarationList fun name => Declaration.yields_afterColon context name).bind
    fun _ h => yields_pure h

end Css
