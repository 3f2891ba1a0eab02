import Css.CounterStyle.Grammar
import Css.Declaration.Grammar

/-!
# Counter styles

A counter style keeps the descriptors that its author wrote, the last one of each name. What was
not written has an effective value. The system decides which symbols there have to be.
-/

namespace Css

open Css.Parser

/-- The names of descriptors, in the order of the canonical text. -/
inductive DescriptorName where
  | system
  | negative
  | leading
  | suffix
  | range
  | pad
  | fallback
  | symbols
  | additiveSymbols
  | speakAs
  deriving DecidableEq, Repr

instance : Vocabulary DescriptorName where
  members :=
    [.system, .negative, .leading, .suffix, .range, .pad, .fallback, .symbols, .additiveSymbols,
     .speakAs]
  word
    | .system => "system"
    | .negative => "negative"
    | .leading => "prefix"
    | .suffix => "suffix"
    | .range => "range"
    | .pad => "pad"
    | .fallback => "fallback"
    | .symbols => "symbols"
    | .additiveSymbols => "additive-symbols"
    | .speakAs => "speak-as"

/-- A counter style as its author describes it. -/
structure CounterStyle where
  name : CounterStyleName
  system : Option CounterSystem
  negative : Option Negative
  /-- What stands in front of every representation. -/
  leading : Option Symbol
  suffix : Option Symbol
  range : Option Ranges
  pad : Option Pad
  fallback : Option Fallback
  symbols : Option Symbols
  additiveSymbols : Option AdditiveSymbols
  speakAs : Option SpeakAs
  deriving DecidableEq, Repr

namespace CounterStyle

/-- A counter style without descriptors. -/
def ofName (name : CounterStyleName) : CounterStyle :=
  ⟨name, none, none, none, none, none, none, none, none, none, none⟩

/-- The canonical text of the value of a descriptor, if it was written. -/
def descriptorCss? (s : CounterStyle) : DescriptorName → Option String
  | .system => s.system.map CounterSystem.css
  | .negative => s.negative.map Negative.css
  | .leading => s.leading.map Symbol.css
  | .suffix => s.suffix.map Symbol.css
  | .range => s.range.map Ranges.css
  | .pad => s.pad.map Pad.css
  | .fallback => s.fallback.map Fallback.css
  | .symbols => s.symbols.map Symbols.css
  | .additiveSymbols => s.additiveSymbols.map AdditiveSymbols.css
  | .speakAs => s.speakAs.map SpeakAs.css

/-- The descriptors that were written, in the order of the canonical text. -/
def specified (s : CounterStyle) : List DescriptorName :=
  (Vocabulary.members : List DescriptorName).filter fun name => (s.descriptorCss? name).isSome

/-- The canonical text of the descriptors that were written. -/
def bodyCss (s : CounterStyle) : String :=
  String.join <| (Vocabulary.members : List DescriptorName).map fun name =>
    match s.descriptorCss? name with
    | some css => Vocabulary.word name ++ ":" ++ css ++ ";"
    | none => ""

/-- The canonical text of a counter style. -/
def css (s : CounterStyle) : String :=
  "@counter-style " ++ s.name.css ++ Bracket.curly.around s.bodyCss

/-- The system, which is symbolic by default. -/
def effectiveSystem (s : CounterStyle) : CounterSystem := s.system.getD .symbolic

/-- The negative sign, which is a hyphen by default. -/
def effectiveNegative (s : CounterStyle) : Negative := s.negative.getD ⟨.string "-", none⟩

/-- What stands in front of every representation; by default, nothing. -/
def effectiveLeading (s : CounterStyle) : Symbol := s.leading.getD (.string "")

/-- What stands behind every representation; by default, a full stop and a space. -/
def effectiveSuffix (s : CounterStyle) : Symbol := s.suffix.getD (.string ". ")

/-- The range, about which the system decides by default. -/
def effectiveRange (s : CounterStyle) : Ranges := s.range.getD ⟨[]⟩

/-- The padding, which is to no width by default. -/
def effectivePad (s : CounterStyle) : Pad := s.pad.getD ⟨0, .string ""⟩

/-- The fallback, which is decimal by default. -/
def effectiveFallback (s : CounterStyle) : Fallback := s.fallback.getD ⟨⟨"decimal"⟩⟩

/-- The way to speak, which follows from the system by default. -/
def effectiveSpeakAs (s : CounterStyle) : SpeakAs := s.speakAs.getD (.keyword .auto)

/-- The canonical text of the effective value of a descriptor. Symbols have no default. -/
def effectiveCss? (s : CounterStyle) : DescriptorName → Option String
  | .system => some s.effectiveSystem.css
  | .negative => some s.effectiveNegative.css
  | .leading => some s.effectiveLeading.css
  | .suffix => some s.effectiveSuffix.css
  | .range => some s.effectiveRange.css
  | .pad => some s.effectivePad.css
  | .fallback => some s.effectiveFallback.css
  | .symbols => s.symbols.map Symbols.css
  | .additiveSymbols => s.additiveSymbols.map AdditiveSymbols.css
  | .speakAs => some s.effectiveSpeakAs.css

/-- The first way in which the symbols do not fit the effective system. -/
def symbolFault? (s : CounterStyle) : Option Fault :=
  let system := s.effectiveSystem
  match system with
  | .cyclic | .fixed _ | .symbolic =>
    if s.symbols.isNone then some (.withoutSymbols system) else none
  | .alphabetic | .numeric =>
    match s.symbols with
    | none => some (.withoutSymbols system)
    | some symbols => if symbols.symbols.length < 2 then some (.tooFewSymbols system) else none
  | .additive => if s.additiveSymbols.isNone then some (.withoutAdditiveSymbols system) else none
  | .extending _ =>
    if s.symbols.isSome then some (.extendsWithSymbols system)
    else if s.additiveSymbols.isSome then some (.extendsWithAdditiveSymbols system)
    else none

end CounterStyle

/-- A descriptor with its value. -/
inductive Descriptor where
  | system (value : CounterSystem)
  | negative (value : Negative)
  | leading (value : Symbol)
  | suffix (value : Symbol)
  | range (value : Ranges)
  | pad (value : Pad)
  | fallback (value : Fallback)
  | symbols (value : Symbols)
  | additiveSymbols (value : AdditiveSymbols)
  | speakAs (value : SpeakAs)
  deriving DecidableEq, Repr

/-- The value of the descriptor with this name. -/
def DescriptorName.parser (context : Context) : DescriptorName → Parser Descriptor
  | system => Descriptor.system <$> CounterSystem.parser
  | negative => Descriptor.negative <$> Negative.parser
  | leading => Descriptor.leading <$> Symbol.parser
  | suffix => Descriptor.suffix <$> Symbol.parser
  | range => Descriptor.range <$> Ranges.parser
  | pad => Descriptor.pad <$> Pad.parser context
  | fallback => Descriptor.fallback <$> Fallback.parser
  | symbols => Descriptor.symbols <$> Symbols.parser
  | additiveSymbols => Descriptor.additiveSymbols <$> AdditiveSymbols.parser context
  | speakAs => Descriptor.speakAs <$> SpeakAs.parser

namespace CounterStyle

/-- The counter style with a descriptor, which replaces an earlier one of its name. -/
def set (s : CounterStyle) : Descriptor → CounterStyle
  | .system value => { s with system := some value }
  | .negative value => { s with negative := some value }
  | .leading value => { s with leading := some value }
  | .suffix value => { s with suffix := some value }
  | .range value => { s with range := some value }
  | .pad value => { s with pad := some value }
  | .fallback value => { s with fallback := some value }
  | .symbols value => { s with symbols := some value }
  | .additiveSymbols value => { s with additiveSymbols := some value }
  | .speakAs value => { s with speakAs := some value }

/-- A descriptor after its name, which may be in any case, and its colon. -/
def descriptor (context : Context) (name : String) : Parser Descriptor := do
  match Vocabulary.find? DescriptorName (Text.lowerCase name) with
  | some name => name.parser context
  | none => fault .unsupportedDescriptor (← location)

/-- The counter style of a given name whose descriptors are written in a block. -/
def bodyParser (context : Context) (name : CounterStyleName) : Parser CounterStyle := do
  let location ← location
  let descriptors ← declarationList (descriptor (context.inRule .counterStyle))
  let style := descriptors.foldl set (ofName name)
  match style.symbolFault? with
  | some found => fault found location
  | none => return style

end CounterStyle

end Css
