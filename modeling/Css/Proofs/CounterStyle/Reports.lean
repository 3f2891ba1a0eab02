import Css.CounterStyle.Rule
import Css.Proofs.Declaration.Reports

/-!
# What counter styles report

Whatever is wrong with the name of a counter style is reported at its beginning, with the token that
was found there. Faults of whole values and of the whole style are reported where these begin.
-/

namespace Css

open Css.Parser

variable {s : Scope}

/-- A counter style name. -/
theorem CounterStyleName.reports_parserExcluding (excluded : List String) :
    Reports s (parserExcluding excluded) fun _ => True :=
  (reports_expect_true _).then fun _ => reports_pure trivial

/-- The name of a counter style that is being defined is reported as a whole, by the token that the
fault of its parser names. -/
theorem CounterStyleName.reports_definition : Reports s definition fun _ => True := by
  intro c hc
  have hrun := reports_parserExcluding (s := s) reserved hc
  unfold definition
  cases h : parserExcluding reserved c with
  | ok name after =>
      rw [h] at hrun
      exact hrun
  | error e after =>
      rw [h] at hrun
      refine ⟨hc.location, ?_⟩
      intro component hcomponent
      obtain ⟨t, ht, rfl⟩ := Option.map_eq_some_iff.mp hcomponent
      obtain ⟨found, hfound, rfl⟩ := Option.map_eq_some_iff.mp ht
      exact ⟨(hrun.names found hfound).1, .inl rfl⟩

/-- A symbol. -/
theorem Symbol.parser_reports : Reports s parser fun _ => True := reports_expect_true _

/-- An integer and a symbol. -/
theorem reports_weightAndSymbol (context : Context) :
    Reports s (weightAndSymbol context) fun _ => True := by
  refine Symbol.parser_reports.attempt.then fun leading => ?_
  refine (reports_nonNegativeInteger context).then fun weight => ?_
  split
  · exact reports_pure trivial
  · exact Symbol.parser_reports.then fun _ => reports_pure trivial

/-- Weights that do not descend are reported where the first one stands. -/
theorem AdditiveSymbols.parser_reports (context : Context) :
    Reports s (parser context) fun _ => True := by
  have hsymbol : Reports s (WeightedSymbol.parser context) fun _ => True :=
    (reports_weightAndSymbol context).then fun _ => reports_pure trivial
  refine reports_location.bind fun place hplace => hsymbol.commaSeparated.then fun symbols => ?_
  dsimp only
  split
  · exact reports_fault_bind hplace (s.names_of_none rfl)
  · exact reports_pure trivial

/-- A word that is no counter system is reported. -/
theorem CounterSystem.parser_reports : Reports s parser fun _ => True := by
  refine reports_next.bind fun component hcomponent => ?_
  split
  · exact reports_unexpected hcomponent
  · exact (reports_expect_true _).attempt.then fun _ => reports_pure trivial
  · exact (CounterStyleName.reports_parserExcluding []).then fun _ => reports_pure trivial
  · split
    · exact reports_pure trivial
    · exact reports_unexpected hcomponent

/-- A range with its ends in the wrong order is reported where it begins. -/
theorem Ranges.parser_reports : Reports s parser fun _ => True := by
  have hbound : Reports s CounterRange.bound fun _ => True := by
    refine (reports_expect_true _).succeeds.then fun infinite => ?_
    split
    · exact reports_pure trivial
    · exact (reports_expect_true _).then fun _ => reports_pure trivial
  have hrange : Reports s CounterRange.parser fun _ => True := by
    refine reports_location.bind fun place hplace => hbound.then fun lower =>
      hbound.then fun upper => ?_
    dsimp only
    split
    · exact reports_fault_bind hplace (s.names_of_none rfl)
    · exact reports_pure trivial
  refine (reports_expect_true _).succeeds.then fun auto => ?_
  split
  · exact reports_pure trivial
  · exact hrange.commaSeparated.then fun _ => reports_pure trivial

/-- The value of a descriptor. -/
theorem DescriptorName.parser_reports (context : Context) (name : DescriptorName) :
    Reports s (name.parser context) fun _ => True := by
  have hname : Reports s CounterStyleName.parser fun _ => True :=
    CounterStyleName.reports_parserExcluding []
  cases name with
  | system => exact CounterSystem.parser_reports.map fun _ _ => trivial
  | negative =>
      refine Reports.map (P := fun _ => True) ?_ fun _ _ => trivial
      exact Symbol.parser_reports.then fun _ => Symbol.parser_reports.attempt.then fun _ =>
        reports_pure trivial
  | leading | suffix => exact Symbol.parser_reports.map fun _ _ => trivial
  | range => exact Ranges.parser_reports.map fun _ _ => trivial
  | pad =>
      refine Reports.map (P := fun _ => True) ?_ fun _ _ => trivial
      exact (reports_weightAndSymbol context).then fun _ => reports_pure trivial
  | fallback =>
      exact (hname.then fun _ => reports_pure (P := fun _ => True) trivial).map fun _ _ => trivial
  | symbols =>
      refine Reports.map (P := fun _ => True) ?_ fun _ _ => trivial
      exact Symbol.parser_reports.then fun _ => Symbol.parser_reports.many.then fun _ =>
        reports_pure trivial
  | additiveSymbols => exact (AdditiveSymbols.parser_reports context).map fun _ _ => trivial
  | speakAs =>
      refine Reports.map (P := fun _ => True) ?_ fun _ _ => trivial
      refine (reports_expect_true _).attempt.then fun way => ?_
      split
      · exact reports_pure trivial
      · exact hname.then fun _ => reports_pure trivial

namespace CounterStyle

/-- A descriptor that is not known is reported where its value stands. -/
theorem reports_descriptor (context : Context) (name : String) :
    Reports s (descriptor context name) fun _ => True := by
  unfold descriptor
  split
  · exact DescriptorName.parser_reports context _
  · exact reports_location.bind fun _ hplace => reports_fault hplace (s.names_of_none rfl)

/-- Symbols that do not fit the system name no token. -/
theorem names_symbolFault? {style : CounterStyle} {f : Fault} (h : style.symbolFault? = some f) :
    s.Names f := by
  refine s.names_of_none ?_
  unfold symbolFault? at h
  dsimp only at h
  repeat' split at h
  all_goals first
    | cases h; rfl
    | cases h

/-- Symbols that do not fit the system are reported where the block begins. -/
theorem reports_bodyParser (context : Context) (name : CounterStyleName) :
    Reports s (bodyParser context name) fun _ => True := by
  refine reports_location.bind fun place hplace => ?_
  refine (reports_declarationList (reports_descriptor _)).then fun descriptors => ?_
  dsimp only
  split
  · exact reports_fault hplace (names_symbolFault? ‹_›)
  · exact reports_pure trivial

end CounterStyle

end Css
