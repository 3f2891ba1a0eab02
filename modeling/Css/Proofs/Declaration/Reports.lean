import Css.Declaration.Grammar
import Css.Proofs.Parser.Reports

/-!
# What declarations report

The faults of declarations are reported at the components they are about, or where a value or a mark
of importance starts.
-/

namespace Css

open Css.Parser

variable {α : Type} {s : Scope}

/-- A list of declarations reports what the parser behind each colon reports, and whatever starts no
declaration. -/
theorem reports_declarationList {afterColon : String → Parser α} {P : α → Prop}
    (h : ∀ name, Reports s (afterColon name) P) :
    Reports s (declarationList afterColon) fun _ => True := by
  refine (Reports.many (P := fun _ => True) ?_).then fun _ => reports_pure trivial
  refine reports_next.bind fun component hcomponent => ?_
  split
  · exact reports_pure trivial
  · rename_i name _ _
    have hitem : Reports s (colon >>= fun _ => afterColon name) P :=
      (reports_expect_true _).then fun _ => h name
    exact (hitem.untilAfter _).then fun _ => reports_pure trivial
  · exact reports_unexpected hcomponent

/-- An empty value is reported where it would stand, and an error token in a value where it
stands. -/
theorem PropertyValue.parser_reports (allowEmpty : Bool) :
    Reports s (parser allowEmpty) fun _ => True := by
  have hspecified : Reports s (specifiedValue allowEmpty) fun _ => True := by
    refine reports_isExhausted.then fun exhausted => ?_
    dsimp only
    split
    · exact reports_location.bind fun _ hplace => reports_fault_bind hplace (s.names_of_none rfl)
    · exact reports_noErrorToken.captured
  refine (reports_expect_true _).entirely.attempt.then fun keyword => ?_
  split
  · exact reports_pure trivial
  · exact hspecified.then fun _ => reports_pure trivial

namespace Declaration

/-- A mark of importance that is not allowed is reported where it stands. -/
theorem reports_afterColon (context : Context) (name : String) :
    Reports s (afterColon context name) fun _ => True := by
  have himportance : Reports s importance fun _ => True :=
    ((reports_expect_true _).then fun _ => reports_expect_true _).succeeds
  unfold afterColon
  refine ((PropertyValue.parser_reports _).untilBefore _).then fun value => ?_
  refine reports_location.bind fun place hplace => himportance.then fun important => ?_
  dsimp only
  split
  · exact reports_fault_bind hplace (s.names_of_none rfl)
  · exact reports_atEnd.then fun _ => reports_pure trivial

/-- A single declaration. -/
theorem parser_reports (context : Context) : Reports s (parser context) fun _ => True :=
  (reports_expect_true _).then fun name => (reports_expect_true _).then fun _ =>
    reports_afterColon context name

end Declaration

/-- A list of declarations. -/
theorem Declarations.parser_reports (context : Context) :
    Reports s (parser context) fun _ => True :=
  (reports_declarationList (Declaration.reports_afterColon context)).then fun _ =>
    reports_pure trivial

end Css
