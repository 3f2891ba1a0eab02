import Css.CounterStyle.Rule
import Css.Proofs.Declaration.Yields

/-!
# Canonical counter styles

The grammar of counter styles yields values in a canonical form: names are custom names, predefined
ones in lower case, numbers are within the limits, weights descend and ranges are ordered. A counter
style that is accepted also has the symbols that its system needs. `CounterStyle.Canonical` collects
what is known of an accepted counter style.
-/

namespace Css

open Css.Parser

namespace CounterStyleName

/-- A counter style name that may be written where the given names are excluded. -/
structure Canonical (excluded : List String) (n : CounterStyleName) : Prop where
  custom : IsCustomName ("none" :: excluded) n.name
  ofName_name : ofName n.name = n

/-- The predefined names are in lower case. -/
theorem lowerCase_of_mem_predefined : ∀ word ∈ predefined, Text.lowerCase word = word := by
  decide +kernel

/-- The case of a name does not change by which names it is excluded. -/
theorem lowerCase_ofName (name : String) :
    Text.lowerCase (ofName name).name = Text.lowerCase name := by
  simp only [ofName]
  split
  · exact lowerCase_of_mem_predefined _ ‹_›
  · rfl

/-- A name is put into its canonical form once. -/
theorem ofName_ofName (name : String) : ofName (ofName name).name = ofName name := by
  rw [ofName, lowerCase_ofName]
  by_cases h : Text.lowerCase name ∈ predefined
  · simp [ofName, h]
  · simp [ofName, h]

/-- The predefined names are names that a token can have. -/
theorem isName_of_mem_predefined : ∀ word ∈ predefined, IsName word := by
  decide +kernel

/-- A custom name that was chosen is canonical. -/
theorem canonical_ofName {excluded : List String} {name : String}
    (h : IsCustomName ("none" :: excluded) name) : (ofName name).Canonical excluded where
  custom := by
    refine ⟨?_, ?_, ?_, ?_⟩
    · simp only [ofName]
      split
      · exact isName_of_mem_predefined _ ‹_›
      · exact h.isName
    · rw [lowerCase_ofName]
      exact h.ne_default
    · rw [lowerCase_ofName]
      exact h.notMem_excluded
    · rw [lowerCase_ofName]
      exact h.not_wide
  ofName_name := ofName_ofName name

/-- A counter style name is read in its canonical form. -/
theorem yields_parserExcluding (excluded : List String) :
    Yields SoundTokens (parserExcluding excluded) (Canonical excluded) :=
  (yields_customIdent _).bind fun _ h => yields_pure (canonical_ofName h)

/-- The name of a counter style that is defined is read in its canonical form. -/
theorem yields_definition : Yields SoundTokens definition (Canonical reserved) := by
  intro c name after hc hrun
  unfold definition at hrun
  cases hparser : parserExcluding reserved c with
  | error e mid => rw [hparser] at hrun; cases hrun
  | ok found mid =>
      rw [hparser] at hrun
      cases hrun
      exact yields_parserExcluding reserved hc hparser

end CounterStyleName

/-- A number in a counter style, which is within the limit on digits. -/
def IsBounded (n : Int) : Prop := n.natAbs < 10 ^ digitLimit

/-- A weight or width: it is negative only if the mode allows it. -/
structure IsWeight (mode : Mode) (n : Int) : Prop where
  isBounded : IsBounded n
  nonneg : mode.negativeNumbers = false → 0 ≤ n

/-- A symbol whose text a token can have. -/
def Symbol.Canonical : Symbol → Prop
  | .string value => NullFree value.toList
  | .ident name => IsName name

/-- There is a symbol, and every symbol is canonical. -/
structure Symbols.Canonical (s : Symbols) : Prop where
  ne_nil : s.symbols ≠ []
  symbols : ∀ symbol ∈ s.symbols, symbol.Canonical

/-- A weighted symbol with a weight that the mode allows. -/
structure WeightedSymbol.Canonical (mode : Mode) (w : WeightedSymbol) : Prop where
  weight : IsWeight mode w.weight
  symbol : w.symbol.Canonical

/-- There is a weighted symbol, every one is canonical, and the weights descend. -/
structure AdditiveSymbols.Canonical (mode : Mode) (a : AdditiveSymbols) : Prop where
  ne_nil : a.tuples ≠ []
  tuples : ∀ tuple ∈ a.tuples, tuple.Canonical mode
  isDescending : a.isDescending

/-- A system whose parameter is canonical. -/
def CounterSystem.Canonical : CounterSystem → Prop
  | .fixed (some first) => IsBounded first
  | .extending base => base.Canonical []
  | _ => True

/-- A negative sign with canonical symbols. -/
structure Negative.Canonical (n : Negative) : Prop where
  symbol : n.symbol.Canonical
  suffix : ∀ suffix ∈ n.suffix, suffix.Canonical

/-- A range with ordered ends. -/
structure CounterRange.Canonical (r : CounterRange) : Prop where
  lower : ∀ n ∈ r.lower, IsBounded n
  upper : ∀ n ∈ r.upper, IsBounded n
  isOrdered : r.isOrdered

/-- Every range is canonical. -/
def Ranges.Canonical (r : Ranges) : Prop := ∀ range ∈ r.ranges, range.Canonical

/-- A padding with a width that the mode allows. -/
structure Pad.Canonical (mode : Mode) (p : Pad) : Prop where
  width : IsWeight mode p.width
  symbol : p.symbol.Canonical

/-- A way to speak in which a counter style is not named like one of the given ways. -/
def SpeakAs.Canonical : SpeakAs → Prop
  | .keyword _ => True
  | .style name => name.Canonical [] ∧
      Vocabulary.find? SpeakAsKeyword (Text.lowerCase name.name) = none

/-- A symbol is read from a string or an identifier. -/
theorem Symbol.parser_yields : Yields SoundTokens parser Canonical := by
  refine (yields_expect _).mono ?_
  rintro symbol ⟨component, hcomponent, hsymbol⟩
  have hsound := hcomponent.token
  unfold ofComponent? at hsymbol
  split at hsymbol
  · cases hsymbol
    exact hsound
  · cases hsymbol
    exact hsound
  · cases hsymbol

/-- Symbols are read up to the end. -/
theorem Symbols.parser_yields : Yields SoundTokens parser Canonical := by
  refine Symbol.parser_yields.bind fun first hfirst => ?_
  refine Symbol.parser_yields.many.bind fun others hothers => ?_
  refine yields_pure ⟨List.cons_ne_nil first others, ?_⟩
  simpa using ⟨hfirst, hothers⟩

/-- A weight and a symbol are read in either order. -/
theorem yields_weightAndSymbol (context : Context) :
    Yields SoundTokens (weightAndSymbol context) fun pair =>
      IsWeight context.mode pair.1 ∧ pair.2.Canonical := by
  refine Symbol.parser_yields.attempt.bind fun leading hleading => ?_
  refine (yields_nonNegativeInteger context).bind fun weight hweight => ?_
  cases leading with
  | some symbol => exact yields_pure ⟨⟨hweight.1, hweight.2⟩, hleading symbol rfl⟩
  | none =>
      exact Symbol.parser_yields.bind fun symbol hsymbol =>
        yields_pure ⟨⟨hweight.1, hweight.2⟩, hsymbol⟩

/-- A weighted symbol is canonical. -/
theorem WeightedSymbol.parser_yields (context : Context) :
    Yields SoundTokens (parser context) (Canonical context.mode) :=
  (yields_weightAndSymbol context).bind fun _ h => yields_pure ⟨h.1, h.2⟩

/-- Weighted symbols are accepted if their weights descend. -/
theorem AdditiveSymbols.parser_yields (context : Context) :
    Yields SoundTokens (parser context) (Canonical context.mode) := by
  refine yields_location.bind fun location _ => ?_
  refine (WeightedSymbol.parser_yields context).commaSeparated.bind fun tuples htuples => ?_
  dsimp only
  split
  · exact yields_fault_bind
  · rename_i hdescending
    exact yields_pure ⟨htuples.1, htuples.2, by simpa using hdescending⟩

/-- A system is read with its parameter. -/
theorem CounterSystem.parser_yields : Yields SoundTokens parser Canonical := by
  refine yields_next.bind fun component _ => ?_
  split
  · exact yields_unexpected
  · refine yields_integer.attempt.bind fun first hfirst => yields_pure ?_
    cases first with
    | none => trivial
    | some n => exact hfirst n rfl
  · exact (CounterStyleName.yields_parserExcluding []).bind fun _ h => yields_pure h
  · split
    · rename_i system hsystem
      have hmem := List.mem_of_find?_eq_some hsystem
      refine yields_pure ?_
      simp only [simple, List.mem_cons, List.not_mem_nil, or_false] at hmem
      rcases hmem with rfl | rfl | rfl | rfl | rfl <;> trivial
    · exact yields_unexpected

/-- A negative sign has one or two symbols. -/
theorem Negative.parser_yields : Yields SoundTokens parser Canonical :=
  Symbol.parser_yields.bind fun _ hsymbol =>
    Symbol.parser_yields.attempt.bind fun _ hsuffix => yields_pure ⟨hsymbol, hsuffix⟩

/-- An end of a range is an integer or infinite. -/
theorem CounterRange.yields_bound :
    Yields SoundTokens bound fun result => ∀ n ∈ result, IsBounded n := by
  refine Yields.bind (P := fun _ => True) ?_ fun isInfinite _ => ?_
  · exact (yields_expect_true _).succeeds
  · split
    · exact yields_pure nofun
    · exact yields_integer.bind fun n hn => yields_pure (by rintro _ ⟨⟩; exact hn)

/-- A range is accepted if its ends are ordered. -/
theorem CounterRange.parser_yields : Yields SoundTokens parser Canonical := by
  refine yields_location.bind fun location _ => ?_
  refine yields_bound.bind fun lower hlower => yields_bound.bind fun upper hupper => ?_
  dsimp only
  split
  · exact yields_fault_bind
  · rename_i hordered
    exact yields_pure ⟨hlower, hupper, by simpa using hordered⟩

/-- Ranges are canonical. -/
theorem Ranges.parser_yields : Yields SoundTokens parser Canonical := by
  refine Yields.bind (P := fun _ => True) ?_ fun isAuto _ => ?_
  · exact (yields_expect_true _).succeeds
  · split
    · exact yields_pure nofun
    · exact CounterRange.parser_yields.commaSeparated.bind fun _ h => yields_pure h.2

/-- A padding is canonical. -/
theorem Pad.parser_yields (context : Context) :
    Yields SoundTokens (parser context) (Canonical context.mode) :=
  (yields_weightAndSymbol context).bind fun _ h => yields_pure ⟨h.1, h.2⟩

/-- A fallback is a counter style name. -/
theorem Fallback.parser_yields :
    Yields SoundTokens parser fun fallback => fallback.name.Canonical [] :=
  (CounterStyleName.yields_parserExcluding []).bind fun _ h => yields_pure h

/-- A way to speak is a counter style only if it is not one of the given ways. -/
theorem SpeakAs.parser_yields : Yields SoundTokens parser Canonical := by
  intro c result after hc hrun
  obtain ⟨way, mid, hattempt, hrun⟩ := bind_eq_ok.mp hrun
  cases way with
  | some way => cases hrun; exact ⟨trivial, ((yields_expect _).attempt hc hattempt).2⟩
  | none =>
      obtain ⟨rfl, hnone⟩ := attempt_expect_eq_none hattempt
      obtain ⟨name, mid, hname, hrun⟩ := bind_eq_ok.mp hrun
      cases hrun
      obtain ⟨hcanonical, hafter⟩ := CounterStyleName.yields_parserExcluding [] hc hname
      refine ⟨⟨hcanonical, ?_⟩, hafter⟩
      obtain ⟨found, mid, hfound, hrun⟩ := bind_eq_ok.mp hname
      cases hrun
      obtain ⟨component, rest, hrest, hident⟩ := identName?_of_customIdent hfound
      have hkeyword := hnone component rest hrest
      rw [keyword?, hident] at hkeyword
      rw [CounterStyleName.lowerCase_ofName]
      simpa using hkeyword

/-- A descriptor with a canonical value. -/
def Descriptor.Canonical (mode : Mode) : Descriptor → Prop
  | .system value => value.Canonical
  | .negative value => value.Canonical
  | .leading value | .suffix value => value.Canonical
  | .range value => value.Canonical
  | .pad value => value.Canonical mode
  | .fallback value => value.name.Canonical []
  | .symbols value => value.Canonical
  | .additiveSymbols value => value.Canonical mode
  | .speakAs value => value.Canonical

/-- A descriptor is read with a canonical value. -/
theorem DescriptorName.parser_yields (context : Context) (name : DescriptorName) :
    Yields SoundTokens (name.parser context) (Descriptor.Canonical context.mode) := by
  cases name with
  | system => exact CounterSystem.parser_yields.map fun _ h => h
  | negative => exact Negative.parser_yields.map fun _ h => h
  | leading => exact Symbol.parser_yields.map fun _ h => h
  | suffix => exact Symbol.parser_yields.map fun _ h => h
  | range => exact Ranges.parser_yields.map fun _ h => h
  | pad => exact (Pad.parser_yields context).map fun _ h => h
  | fallback => exact Fallback.parser_yields.map fun _ h => h
  | symbols => exact Symbols.parser_yields.map fun _ h => h
  | additiveSymbols => exact (AdditiveSymbols.parser_yields context).map fun _ h => h
  | speakAs => exact SpeakAs.parser_yields.map fun _ h => h

namespace CounterStyle

/-- Every descriptor that was written is canonical. -/
structure DescriptorsCanonical (mode : Mode) (s : CounterStyle) : Prop where
  system : ∀ value ∈ s.system, value.Canonical
  negative : ∀ value ∈ s.negative, value.Canonical
  leading : ∀ value ∈ s.leading, value.Canonical
  suffix : ∀ value ∈ s.suffix, value.Canonical
  range : ∀ value ∈ s.range, value.Canonical
  pad : ∀ value ∈ s.pad, value.Canonical mode
  fallback : ∀ value ∈ s.fallback, value.name.Canonical []
  symbols : ∀ value ∈ s.symbols, value.Canonical
  additiveSymbols : ∀ value ∈ s.additiveSymbols, value.Canonical mode
  speakAs : ∀ value ∈ s.speakAs, value.Canonical

/-- A counter style that can be accepted: its name may be defined, its descriptors are canonical,
and it has the symbols that its system needs. -/
structure Canonical (mode : Mode) (s : CounterStyle) : Prop where
  name : s.name.Canonical CounterStyleName.reserved
  descriptors : s.DescriptorsCanonical mode
  symbols : s.symbolFault? = none

/-- The symbols that a counter style needs for its effective system are there. -/
def HasSymbols (s : CounterStyle) : Prop :=
  match s.effectiveSystem with
  | .cyclic | .fixed _ | .symbolic => s.symbols ≠ none
  | .alphabetic | .numeric => ∃ list, s.symbols = some list ∧ 2 ≤ list.symbols.length
  | .additive => s.additiveSymbols ≠ none
  | .extending _ => s.symbols = none ∧ s.additiveSymbols = none

/-- A counter style is without a fault if and only if it has the symbols that it needs. -/
theorem symbolFault?_eq_none_iff {s : CounterStyle} : s.symbolFault? = none ↔ s.HasSymbols := by
  unfold symbolFault? HasSymbols
  cases s.effectiveSystem with
  | cyclic | fixed _ | symbolic => simp
  | alphabetic | numeric =>
      cases s.symbols with
      | none => simp
      | some list => simp [Nat.succ_le_iff]
  | additive => simp
  | extending base => cases s.symbols <;> cases s.additiveSymbols <;> simp

/-- Without descriptors, every descriptor is canonical. -/
theorem descriptorsCanonical_ofName (mode : Mode) (name : CounterStyleName) :
    (ofName name).DescriptorsCanonical mode := by
  constructor <;> nofun

/-- A canonical descriptor keeps the others. -/
theorem DescriptorsCanonical.set {mode : Mode} {s : CounterStyle} {d : Descriptor}
    (h : s.DescriptorsCanonical mode) (hd : d.Canonical mode) :
    (s.set d).DescriptorsCanonical mode := by
  cases d with
  | _ value =>
      constructor
      all_goals first
        | exact h.system | exact h.negative | exact h.leading | exact h.suffix | exact h.range
        | exact h.pad | exact h.fallback | exact h.symbols | exact h.additiveSymbols
        | exact h.speakAs
        | rintro _ ⟨⟩; exact hd

/-- Setting a descriptor keeps the name. -/
theorem name_set (s : CounterStyle) (d : Descriptor) : (s.set d).name = s.name := by
  cases d <;> rfl

/-- Canonical descriptors make up a counter style with canonical descriptors. -/
theorem descriptorsCanonical_foldl {mode : Mode} {s : CounterStyle} {descriptors : List Descriptor}
    (h : s.DescriptorsCanonical mode) (hd : ∀ d ∈ descriptors, d.Canonical mode) :
    (descriptors.foldl CounterStyle.set s).DescriptorsCanonical mode := by
  induction descriptors generalizing s with
  | nil => exact h
  | cons d descriptors ih =>
      exact ih (h.set (hd d (List.mem_cons_self ..))) fun e he => hd e (List.mem_cons_of_mem _ he)

/-- Descriptors keep the name. -/
theorem name_foldl_set (s : CounterStyle) (descriptors : List Descriptor) :
    (descriptors.foldl CounterStyle.set s).name = s.name := by
  induction descriptors generalizing s with
  | nil => rfl
  | cons d descriptors ih => rw [List.foldl_cons, ih, name_set]

/-- A descriptor with a known name is read with a canonical value. -/
theorem yields_descriptor (context : Context) (name : String) :
    Yields SoundTokens (descriptor context name) (Descriptor.Canonical context.mode) := by
  unfold descriptor
  split
  · exact DescriptorName.parser_yields context _
  · exact yields_location.bind fun _ _ => yields_fault

/-- The block of a counter style with a name that may be defined is accepted in canonical form. -/
theorem yields_bodyParser (context : Context) {name : CounterStyleName}
    (h : name.Canonical CounterStyleName.reserved) :
    Yields SoundTokens (bodyParser context name) fun s =>
      s.Canonical context.mode ∧ s.name = name := by
  refine yields_location.bind fun location _ => ?_
  refine (yields_declarationList fun name => yields_descriptor _ name).bind fun found hfound => ?_
  dsimp only
  split
  · exact yields_fault
  · have hname := name_foldl_set (ofName name) found
    refine yields_pure
      ⟨⟨?_, descriptorsCanonical_foldl (descriptorsCanonical_ofName _ _) hfound, ‹_›⟩, hname⟩
    rw [hname]
    exact h

end CounterStyle

end Css
