import Css.Media.Grammar
import Css.Proofs.Parser.Reports

/-!
# What media queries report

A feature that is not supported is reported at its name, or where the feature begins if it has none.
Values that may not be negative, bounds without a value and comparisons that do not fit each other
are reported where they stand.
-/

namespace Css

open Css.Parser

variable {s : Scope}

/-- A value that a ranged feature is compared with. -/
theorem RangedFeature.reports_valueParser (context : Context) (name : RangedFeature) :
    Reports s (name.valueParser context) fun _ => True := by
  have hside : Reports s (ratioSide context) fun _ => True := by
    refine reports_location.bind fun place hplace => (reports_expect_true _).then fun value => ?_
    split
    · exact reports_fault_bind hplace (s.names_of_none rfl)
    · exact reports_pure trivial
  have hratio : Reports s (ratioParser context) fun _ => True := by
    refine hside.then fun numerator => (reports_expect_true _).succeeds.then fun found => ?_
    split
    · exact hside.then fun _ => reports_pure trivial
    · exact reports_pure trivial
  cases name with
  | width | height => exact reports_expect_true _
  | aspectRatio => exact hratio
  | resolution => exact reports_expect_true _
  | color | colorIndex | monochrome =>
      exact (reports_nonNegativeInteger context).then fun _ => reports_pure trivial

/-- A comparison sign. -/
theorem Comparison.parser_reports : Reports s parser fun _ => True := by
  have hequal : Reports s (do
      let second ← nextOrSpace
      if !isSign '=' second then unexpected second) fun _ => True := by
    refine (reports_nextAfter _).bind fun second hsecond => ?_
    split
    · exact reports_unexpected hsecond
    · exact reports_pure trivial
  refine reports_next.bind fun component hcomponent => ?_
  split
  · exact reports_pure trivial
  · split
    · refine hequal.succeeds.then fun orEqual => ?_
      split <;> exact reports_pure trivial
    · exact reports_unexpected hcomponent

namespace Feature

/-- A ranged feature after its name. -/
theorem reports_rangedParser (context : Context) (name : RangedFeature) :
    Reports s (rangedParser context name) fun _ => True := by
  have hvalue := RangedFeature.reports_valueParser (s := s) context name
  refine reports_isExhausted.then fun exhausted => ?_
  split
  · exact reports_pure trivial
  · refine (reports_expect_true _).succeeds.then fun found => ?_
    split
    · exact (reports_pure (P := fun _ => True) trivial).then fun _ => hvalue.then fun _ =>
        reports_pure trivial
    · exact Comparison.parser_reports.then fun _ => hvalue.then fun _ => reports_pure trivial

/-- A bound without a value is reported where the value would stand. -/
theorem reports_boundParser (context : Context) (name : RangedFeature) (bound : Comparison) :
    Reports s (boundParser context name bound) fun _ => True := by
  have hvalue := RangedFeature.reports_valueParser (s := s) context name
  refine reports_isExhausted.then fun exhausted => ?_
  split
  · exact reports_location.bind fun _ hplace => reports_fault_bind hplace (s.names_of_none rfl)
  · exact (reports_expect_true _).then fun _ => hvalue.then fun _ => reports_pure trivial

/-- A feature whose name stands in front, at the given place. -/
theorem reports_namedParser (context : Context) {location : Position} (name : String)
    (hlocation : s.HasPlace location) :
    Reports s (namedParser context location name) fun _ => True := by
  have hdiscrete (feature : DiscreteFeature) :
      Reports s (discreteParser feature) fun _ => True := by
    refine reports_isExhausted.then fun exhausted => ?_
    split
    · exact reports_pure trivial
    · exact (reports_expect_true _).then fun _ => (reports_expect_true _).then fun _ =>
        reports_pure trivial
  unfold namedParser
  cases splitBound name with | mk bound base
  dsimp only
  split
  · exact reports_boundParser context _ _
  · exact reports_rangedParser context _
  · exact hdiscrete _
  · exact reports_fault hlocation (s.names_of_none rfl)

/-- A feature whose name stands behind a value. -/
theorem reports_valueFirstParser (context : Context) {location : Position}
    (hlocation : s.HasPlace location) :
    Reports s (valueFirstParser context location) fun _ => True := by
  refine reports_get.bind fun c hc => ?_
  split
  · exact reports_fault hlocation (s.names_of_none rfl)
  · rename_i component hfound
    have hcomponent : component.All s.Holds :=
      Hereditary.of_mem hc.rest (List.mem_of_find?_eq_some hfound)
    split
    · exact reports_fault (s.hasPlace_start hcomponent) (s.names_of_none rfl)
    · rename_i name _
      have hvalue := RangedFeature.reports_valueParser (s := s) context name
      refine hvalue.then fun value => Comparison.parser_reports.then fun comparison => ?_
      refine (reports_expect_true _).then fun _ => reports_isExhausted.then fun exhausted => ?_
      dsimp only
      split
      · exact reports_pure trivial
      · refine reports_location.bind fun place hplace => ?_
        refine Comparison.parser_reports.then fun second => ?_
        split
        · exact reports_fault_bind hplace (s.names_of_none rfl)
        · exact hvalue.then fun _ => reports_pure trivial

/-- A feature. -/
theorem parser_reports (context : Context) : Reports s (parser context) fun _ => True := by
  refine reports_get.bind fun before hbefore => reports_next.then fun component => ?_
  split
  · exact reports_namedParser context _ hbefore.location
  · exact (reports_set hbefore).then fun _ => reports_valueFirstParser context hbefore.location

end Feature

/-- A media query. -/
theorem MediaQuery.parser_reports (context : Context) :
    Reports s (parser context) fun _ => True := by
  have hexpression : Reports s (Expression.parser context) fun _ => True :=
    (reports_block .round).bind fun component hcomponent =>
      ((Feature.parser_reports context).inside hcomponent).then fun _ => reports_pure trivial
  have hothers : Reports s (many do identMatching "and"; Expression.parser context) fun _ => True :=
    ((reports_expect_true _).then fun _ => hexpression).many.mono fun _ _ => trivial
  refine (reports_expect_true _).attempt.then fun qualifier => ?_
  refine (reports_expect_true _).attempt.then fun mediaType => ?_
  split
  · exact (reports_pure (P := fun _ => True) trivial).then fun _ => hothers.then fun _ =>
      reports_pure trivial
  · split
    · exact reports_next.bind fun component hcomponent =>
        (reports_unexpected (P := fun _ => True) hcomponent).then fun _ => hothers.then fun _ =>
          reports_pure trivial
    · exact hexpression.then fun _ => (reports_pure (P := fun _ => True) trivial).then fun _ =>
        hothers.then fun _ => reports_pure trivial

/-- A media list. -/
theorem MediaList.parser_reports (context : Context) :
    Reports s (parser context) fun _ => True := by
  refine reports_isExhausted.then fun exhausted => ?_
  split
  · exact reports_pure trivial
  · exact (MediaQuery.parser_reports context).commaSeparated.then fun _ => reports_pure trivial

end Css
