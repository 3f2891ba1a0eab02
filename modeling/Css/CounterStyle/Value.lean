import Css.Token.Escape
import Css.Vocabulary

/-!
# Values of counter style descriptors

A counter style is described by a system, symbols, and values that say how the symbols are put
together. Each value has one canonical text.
-/

namespace Css

/-- The name of a counter style. The predefined names are in lower case. -/
structure CounterStyleName where
  name : String
  deriving DecidableEq, Repr

/-- The canonical text of a counter style name. -/
def CounterStyleName.css (n : CounterStyleName) : String := identifierText n.name

/-- A piece of text in the representation of a counter, written as a string or as an identifier. -/
inductive Symbol where
  | string (value : String)
  | ident (name : String)
  deriving DecidableEq, Repr

/-- The canonical text of a symbol. -/
def Symbol.css : Symbol → String
  | .string value => stringText value
  | .ident name => identifierText name

/-- The symbols that a system counts with. There is at least one. -/
structure Symbols where
  symbols : List Symbol
  deriving DecidableEq, Repr

/-- The canonical text of symbols. -/
def Symbols.css (s : Symbols) : String := " ".intercalate (s.symbols.map Symbol.css)

/-- A symbol that stands for a weight in an additive system. -/
structure WeightedSymbol where
  weight : Int
  symbol : Symbol
  deriving DecidableEq, Repr

/-- The canonical text of a weighted symbol. -/
def WeightedSymbol.css (w : WeightedSymbol) : String := toString w.weight ++ " " ++ w.symbol.css

/-- The symbols of an additive system, by descending weight. -/
structure AdditiveSymbols where
  tuples : List WeightedSymbol
  deriving DecidableEq, Repr

/-- The canonical text of additive symbols. -/
def AdditiveSymbols.css (a : AdditiveSymbols) : String :=
  ", ".intercalate (a.tuples.map WeightedSymbol.css)

/-- The algorithm that represents a counter. A fixed system may say which number its first symbol
stands for; an extending one takes the algorithm of another counter style. -/
inductive CounterSystem where
  | cyclic
  | numeric
  | alphabetic
  | symbolic
  | additive
  | fixed (first : Option Int)
  | extending (base : CounterStyleName)
  deriving DecidableEq, Repr

namespace CounterSystem

/-- The word that names the kind of system. -/
def word : CounterSystem → String
  | cyclic => "cyclic"
  | numeric => "numeric"
  | alphabetic => "alphabetic"
  | symbolic => "symbolic"
  | additive => "additive"
  | fixed _ => "fixed"
  | extending _ => "extends"

/-- The canonical text of a system. -/
def css (s : CounterSystem) : String :=
  match s with
  | fixed (some first) => s.word ++ " " ++ toString first
  | extending base => s.word ++ " " ++ base.css
  | _ => s.word

/-- The systems that a single word names. -/
def simple : List CounterSystem := [cyclic, numeric, alphabetic, symbolic, additive]

end CounterSystem

/-- What stands around the representation of a negative number. -/
structure Negative where
  symbol : Symbol
  suffix : Option Symbol
  deriving DecidableEq, Repr

/-- The canonical text of a negative sign. -/
def Negative.css (n : Negative) : String :=
  match n.suffix with
  | none => n.symbol.css
  | some suffix => n.symbol.css ++ " " ++ suffix.css

/-- A range of numbers that a counter style applies to. An end without a number is infinite. -/
structure CounterRange where
  lower : Option Int
  upper : Option Int
  deriving DecidableEq, Repr

namespace CounterRange

/-- The canonical text of one end of a range. -/
def boundCss : Option Int → String
  | none => "infinite"
  | some n => toString n

/-- The canonical text of a range. -/
def css (r : CounterRange) : String := boundCss r.lower ++ " " ++ boundCss r.upper

end CounterRange

/-- The ranges that a counter style applies to. Without any, its system decides. -/
structure Ranges where
  ranges : List CounterRange
  deriving DecidableEq, Repr

namespace Ranges

/-- The system decides about the range. -/
def isAuto (r : Ranges) : Bool := r.ranges.isEmpty

/-- The canonical text of ranges. -/
def css (r : Ranges) : String :=
  if r.isAuto then "auto" else ", ".intercalate (r.ranges.map CounterRange.css)

end Ranges

/-- A least width, and the symbol that fills a representation up to it. -/
structure Pad where
  width : Int
  symbol : Symbol
  deriving DecidableEq, Repr

/-- The canonical text of a padding. -/
def Pad.css (p : Pad) : String := toString p.width ++ " " ++ p.symbol.css

/-- The counter style for numbers that a counter style does not apply to. -/
structure Fallback where
  name : CounterStyleName
  deriving DecidableEq, Repr

/-- The canonical text of a fallback. -/
def Fallback.css (f : Fallback) : String := f.name.css

/-- The ways to speak a counter. -/
inductive SpeakAsKeyword where
  | auto
  | bullets
  | numbers
  | words
  | spellOut
  deriving DecidableEq, Repr

instance : Vocabulary SpeakAsKeyword where
  members := [.auto, .bullets, .numbers, .words, .spellOut]
  word
    | .auto => "auto"
    | .bullets => "bullets"
    | .numbers => "numbers"
    | .words => "words"
    | .spellOut => "spell-out"

/-- How a counter is spoken: in a given way, or like another counter style. -/
inductive SpeakAs where
  | keyword (way : SpeakAsKeyword)
  | style (name : CounterStyleName)
  deriving DecidableEq, Repr

/-- The canonical text of a way to speak. -/
def SpeakAs.css : SpeakAs → String
  | .keyword way => Vocabulary.word way
  | .style name => name.css

end Css
