import Css.Proofs.CounterStyle.Canonical
import Css.Proofs.Parser.Written

/-!
# Written counter style values

The components that the canonical text of each counter style value is read as. Every canonical value
is spelled by its canonical text.
-/

namespace Css

open Component (written space commaComponents Spells spells_ident spells_string spells_integer
  spells_word spells_intercalate)

/-- The components of the name of a counter style. -/
def CounterStyleName.components (n : CounterStyleName) : List Component := [written (.ident n.name)]

/-- The component of a symbol. -/
def Symbol.component : Symbol → Component
  | .string value => written (.string value true)
  | .ident name => written (.ident name)

/-- The components of symbols. -/
def Symbols.components : Symbols → List Component
  | ⟨[]⟩ => []
  | ⟨first :: others⟩ => first.component :: others.flatMap fun symbol => [space, symbol.component]

/-- The components of an integer and a symbol. -/
def weightComponents (weight : Int) (symbol : Symbol) : List Component :=
  [written (.number (.ofInt weight)), space, symbol.component]

/-- The components of weighted symbols. -/
def AdditiveSymbols.components (a : AdditiveSymbols) : List Component :=
  commaComponents (fun tuple => weightComponents tuple.weight tuple.symbol) a.tuples

/-- The components of a system. -/
def CounterSystem.components (s : CounterSystem) : List Component :=
  written (.ident s.word) ::
    match s with
    | fixed (some first) => [space, written (.number (.ofInt first))]
    | extending base => space :: base.components
    | _ => []

/-- The components of a negative sign. -/
def Negative.components (n : Negative) : List Component :=
  n.symbol.component :: n.suffix.toList.flatMap fun symbol => [space, symbol.component]

/-- The component of an end of a range. -/
def CounterRange.boundComponent : Option Int → Component
  | none => written (.ident "infinite")
  | some n => written (.number (.ofInt n))

/-- The components of a range. -/
def CounterRange.components (r : CounterRange) : List Component :=
  [boundComponent r.lower, space, boundComponent r.upper]

/-- The components of ranges. -/
def Ranges.components (r : Ranges) : List Component :=
  if r.isAuto then [written (.ident "auto")] else commaComponents CounterRange.components r.ranges

/-- The components of a way to speak. -/
def SpeakAs.components : SpeakAs → List Component
  | .keyword way => [written (.ident (Vocabulary.word way))]
  | .style name => name.components

/-- The components of the value of a descriptor. -/
def Descriptor.components : Descriptor → List Component
  | .system value => value.components
  | .negative value => value.components
  | .leading value | .suffix value => [value.component]
  | .range value => value.components
  | .pad value => weightComponents value.width value.symbol
  | .fallback value => value.name.components
  | .symbols value => value.components
  | .additiveSymbols value => value.components
  | .speakAs value => value.components

/-- The canonical text of the value of a descriptor. -/
def Descriptor.css : Descriptor → String
  | .system value => value.css
  | .negative value => value.css
  | .leading value | .suffix value => value.css
  | .range value => value.css
  | .pad value => value.css
  | .fallback value => value.css
  | .symbols value => value.css
  | .additiveSymbols value => value.css
  | .speakAs value => value.css

/-- A canonical name is spelled by its text. -/
theorem CounterStyleName.Canonical.spells {excluded : List String} {n : CounterStyleName}
    (h : n.Canonical excluded) : Spells n.components n.css :=
  spells_ident h.custom.isName

/-- A canonical symbol is spelled by its text. -/
theorem Symbol.Canonical.spells {s : Symbol} (h : s.Canonical) : Spells [s.component] s.css := by
  cases s with
  | string value => exact spells_string h
  | ident name => exact spells_ident h

/-- Canonical symbols are spelled by their text. -/
theorem Symbols.Canonical.spells {s : Symbols} (h : s.Canonical) : Spells s.components s.css := by
  obtain ⟨_ | ⟨first, others⟩⟩ := s
  · exact absurd rfl h.ne_nil
  · have hspace {a b : List Component} {x y : String} (ha : Spells a x) (hb : Spells b y) :
        Spells (a ++ ([space] ++ b)) (x ++ " " ++ y) := ha.append_space hb
    exact spells_intercalate (f := fun symbol : Symbol => [symbol.component]) hspace first others
      fun symbol hsymbol => (h.symbols symbol hsymbol).spells

/-- A bounded integer and a canonical symbol are spelled by their text. -/
theorem spells_weightComponents {weight : Int} {symbol : Symbol} (hweight : IsBounded weight)
    (hsymbol : symbol.Canonical) :
    Spells (weightComponents weight symbol) (toString weight ++ " " ++ symbol.css) :=
  (spells_integer hweight).append_space hsymbol.spells

/-- Canonical additive symbols are spelled by their text. -/
theorem AdditiveSymbols.Canonical.spells {mode : Mode} {a : AdditiveSymbols}
    (h : a.Canonical mode) : Spells a.components a.css :=
  Component.spells_commaComponents h.ne_nil fun tuple htuple =>
    spells_weightComponents (h.tuples tuple htuple).weight.isBounded (h.tuples tuple htuple).symbol

/-- A canonical system is spelled by its text. -/
theorem CounterSystem.Canonical.spells {s : CounterSystem} (h : s.Canonical) :
    Spells s.components s.css := by
  have hword : Spells [written (.ident s.word)] s.word := by
    have hwords : ∀ word ∈ ["cyclic", "numeric", "alphabetic", "symbolic", "additive", "fixed",
        "extends"], IsName word ∧ identifierText word = word := by decide
    exact spells_word (hwords s.word (by cases s <;> simp [CounterSystem.word]))
  cases s with
  | fixed first =>
      cases first with
      | none => exact hword
      | some first => exact hword.append_space (spells_integer h)
  | extending base => exact hword.append_space (CounterStyleName.Canonical.spells h)
  | cyclic | numeric | alphabetic | symbolic | additive => exact hword

/-- A canonical negative sign is spelled by its text. -/
theorem Negative.Canonical.spells {n : Negative} (h : n.Canonical) :
    Spells n.components n.css := by
  obtain ⟨symbol, suffix⟩ := n
  cases suffix with
  | none => exact h.symbol.spells
  | some suffix => exact h.symbol.spells.append_space (h.suffix suffix rfl).spells

/-- A bounded end of a range is spelled by its text. -/
theorem CounterRange.spells_boundComponent {bound : Option Int} (h : ∀ n ∈ bound, IsBounded n) :
    Spells [boundComponent bound] (boundCss bound) := by
  cases bound with
  | none => exact spells_word (by decide)
  | some n => exact spells_integer (h n rfl)

/-- A canonical range is spelled by its text. -/
theorem CounterRange.Canonical.spells {r : CounterRange} (h : r.Canonical) :
    Spells r.components r.css :=
  (spells_boundComponent h.lower).append_space (spells_boundComponent h.upper)

/-- Canonical ranges are spelled by their text. -/
theorem Ranges.Canonical.spells {r : Ranges} (h : r.Canonical) : Spells r.components r.css := by
  unfold components css
  split
  · exact spells_word (by decide)
  · rename_i hauto
    refine Component.spells_commaComponents ?_ fun range hrange => (h range hrange).spells
    simpa [isAuto] using hauto

/-- A canonical way to speak is spelled by its text. -/
theorem SpeakAs.Canonical.spells {s : SpeakAs} (h : s.Canonical) : Spells s.components s.css := by
  cases s with
  | keyword way => cases way <;> exact spells_word (by decide)
  | style name => exact h.1.spells

/-- The value of a canonical descriptor is spelled by its text. -/
theorem Descriptor.Canonical.spells {mode : Mode} {d : Descriptor} (h : d.Canonical mode) :
    Spells d.components d.css := by
  cases d with
  | system value => exact CounterSystem.Canonical.spells h
  | negative value => exact Negative.Canonical.spells h
  | leading value | suffix value => exact Symbol.Canonical.spells h
  | range value => exact Ranges.Canonical.spells h
  | pad value => exact spells_weightComponents h.width.isBounded h.symbol
  | fallback value => exact CounterStyleName.Canonical.spells h
  | symbols value => exact Symbols.Canonical.spells h
  | additiveSymbols value => exact AdditiveSymbols.Canonical.spells h
  | speakAs value => exact SpeakAs.Canonical.spells h

end Css
