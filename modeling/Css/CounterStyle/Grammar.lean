import Css.Parser.Expect

/-!
# Grammar of counter style values

Parsers of the values that describe a counter style.
-/

namespace Css

open Css.Parser

namespace CounterStyleName

/-- The names of the counter styles that are always there. -/
def predefined : List String :=
  ["decimal", "decimal-leading-zero", "arabic-indic", "armenian", "upper-armenian",
   "lower-armenian", "bengali", "cambodian", "khmer", "cjk-decimal", "devanagari", "georgian",
   "gujarati", "gurmukhi", "hebrew", "kannada", "lao", "malayalam", "mongolian", "myanmar",
   "oriya", "persian", "lower-roman", "upper-roman", "tamil", "telugu", "thai", "tibetan",
   "lower-alpha", "lower-latin", "upper-alpha", "upper-latin", "lower-greek", "hiragana",
   "hiragana-iroha", "katakana", "katakana-iroha", "disc", "circle", "square",
   "disclosure-open", "disclosure-closed", "cjk-earthly-branch", "cjk-heavenly-stem",
   "japanese-informal", "japanese-formal", "korean-hangul-formal", "korean-hanja-informal",
   "korean-hanja-formal", "simp-chinese-informal", "simp-chinese-formal",
   "trad-chinese-informal", "trad-chinese-formal", "ethiopic-numeric"]

/-- The names that no rule may define. -/
def reserved : List String :=
  ["decimal", "disc", "circle", "square", "disclosure-open", "disclosure-closed"]

/-- The counter style with a name as an author wrote it. The case of a predefined name does not
matter. -/
def ofName (name : String) : CounterStyleName :=
  let lowered := Text.lowerCase name
  ⟨if lowered ∈ predefined then lowered else name⟩

/-- A counter style name other than the given ones. -/
def parserExcluding (excluded : List String) : Parser CounterStyleName := do
  return ofName (← customIdent ("none" :: excluded))

/-- A counter style name. -/
def parser : Parser CounterStyleName := parserExcluding []

/-- The name of a counter style that is being defined. Whatever is wrong with it, the fault is that
it is no valid name. -/
def definition : Parser CounterStyleName := fun c =>
  match parserExcluding reserved c with
  | .ok name after => .ok name after
  | .error e after =>
    .error ⟨.invalidCounterStyleName (e.fault.component?.map Component.token), c.location⟩ after

end CounterStyleName

/-- The symbol that a component is. -/
def Symbol.ofComponent? : Component → Option Symbol
  | .leaf ⟨.string value _, _, _⟩ => some (.string value)
  | .leaf ⟨.ident name, _, _⟩ => some (.ident name)
  | _ => none

/-- A symbol. -/
def Symbol.parser : Parser Symbol := expect Symbol.ofComponent?

/-- One or more symbols, up to the end. -/
def Symbols.parser : Parser Symbols := do
  let first ← Symbol.parser
  return ⟨first :: (← many Symbol.parser)⟩

/-- An integer and a symbol in either order. -/
def weightAndSymbol (context : Context) : Parser (Int × Symbol) := do
  let leading ← attempt Symbol.parser
  let weight ← nonNegativeInteger context
  match leading with
  | some symbol => return (weight, symbol)
  | none => return (weight, ← Symbol.parser)

/-- A weighted symbol. -/
def WeightedSymbol.parser (context : Context) : Parser WeightedSymbol := do
  let (weight, symbol) ← weightAndSymbol context
  return ⟨weight, symbol⟩

/-- Each weight is greater than the next. -/
def AdditiveSymbols.isDescending (a : AdditiveSymbols) : Bool :=
  (a.tuples.zip (a.tuples.drop 1)).all fun (first, second) => second.weight < first.weight

/-- Weighted symbols by descending weight. -/
def AdditiveSymbols.parser (context : Context) : Parser AdditiveSymbols := do
  let location ← location
  let symbols : AdditiveSymbols := ⟨← commaSeparated (WeightedSymbol.parser context)⟩
  if !symbols.isDescending then fault .weightsNotDescending location
  return symbols

/-- A counter system. -/
def CounterSystem.parser : Parser CounterSystem := do
  let component ← next
  match keyword? component with
  | none => unexpected component
  | some "fixed" => return .fixed (← attempt integer)
  | some "extends" => return .extending (← CounterStyleName.parser)
  | some word =>
    match CounterSystem.simple.find? fun system => system.word == word with
    | some system => return system
    | none => unexpected component

/-- A negative sign: a symbol, and optionally a second one. -/
def Negative.parser : Parser Negative := do
  return ⟨← Symbol.parser, ← attempt Symbol.parser⟩

namespace CounterRange

/-- One end of a range. -/
def bound : Parser (Option Int) := do
  if ← succeeds (identMatching "infinite") then return none
  return some (← integer)

/-- The ends of a range in order, if both are finite. -/
def isOrdered (r : CounterRange) : Bool :=
  match r.lower, r.upper with
  | some lower, some upper => lower ≤ upper
  | _, _ => true

/-- A range of numbers. -/
def parser : Parser CounterRange := do
  let location ← location
  let range : CounterRange := ⟨← bound, ← bound⟩
  if !range.isOrdered then fault .rangeReversed location
  return range

end CounterRange

/-- Ranges of numbers, or `auto`. -/
def Ranges.parser : Parser Ranges := do
  if ← succeeds (identMatching "auto") then return ⟨[]⟩
  return ⟨← commaSeparated CounterRange.parser⟩

/-- A padding. -/
def Pad.parser (context : Context) : Parser Pad := do
  let (width, symbol) ← weightAndSymbol context
  return ⟨width, symbol⟩

/-- A fallback. -/
def Fallback.parser : Parser Fallback := do
  return ⟨← CounterStyleName.parser⟩

/-- A way to speak. -/
def SpeakAs.parser : Parser SpeakAs := do
  match ← attempt (member SpeakAsKeyword) with
  | some way => return .keyword way
  | none => return .style (← CounterStyleName.parser)

end Css
