import Css.Media.Query
import Css.Parser.Expect
import Css.Text.Basic

/-!
# Grammar of media queries

A feature is asked for by its bare name, with a colon and a value, or with comparisons; the name
stands on either side of a comparison, or between two that point the same way.
-/

namespace Css

open Css.Parser Number

/-- A length: a number with a unit, or zero without one. -/
def lengthParser (context : Context) : Parser RangeValue :=
  expect fun
    | .leaf ⟨.dimension n unit, _, _⟩ =>
      (Vocabulary.find? LengthUnit (Text.lowerCase unit)).map (.length n.value)
    | .leaf ⟨.number n, _, _⟩ =>
      if n.value.isZero || context.mode.unitlessLengths then some (.length n.value .px) else none
    | _ => none

/-- One side of a ratio. -/
def ratioSide (context : Context) : Parser Numeric := do
  let location ← location
  let value ← number
  if value.isNegative ∧ !context.mode.negativeNumbers then fault .negativeValue location
  return value

/-- A ratio. Without a second side it is a number to one. -/
def ratioParser (context : Context) : Parser RangeValue := do
  let numerator ← ratioSide context
  if ← succeeds (delim '/') then return .ratio numerator (← ratioSide context)
  return .ratio numerator (.integer 1)

/-- A resolution, which is a positive number with a unit. -/
def resolutionParser : Parser RangeValue :=
  expect fun
    | .leaf ⟨.dimension n unit, _, _⟩ =>
      if n.value.isPositive then
        (Vocabulary.find? ResolutionUnit (Text.lowerCase unit)).map (.resolution n.value)
      else none
    | _ => none

/-- A count. -/
def countParser (context : Context) : Parser RangeValue := do
  return .count (← nonNegativeInteger context)

/-- A value that a ranged feature is compared with. -/
def RangedFeature.valueParser (context : Context) : RangedFeature → Parser RangeValue
  | width | height => lengthParser context
  | aspectRatio => ratioParser context
  | resolution => resolutionParser
  | color | colorIndex | monochrome => countParser context

/-- A value out of a domain. -/
def DiscreteDomain.parser (domain : DiscreteDomain) : Parser DiscreteValue :=
  expect fun component =>
    if domain.isBinary then
      match integer? component with
      | some 0 => some .zero
      | some 1 => some .one
      | _ => none
    else (keyword? component).bind fun word => domain.values.find? fun value => value.css == word

/-- The ways to compare a feature with a value. -/
inductive Comparison where
  | less
  | atMost
  | greater
  | atLeast
  | equal
  deriving DecidableEq, Repr

namespace Comparison

/-- The same comparison with its sides exchanged. -/
def flip : Comparison → Comparison
  | less => greater
  | atMost => atLeast
  | greater => less
  | atLeast => atMost
  | equal => equal

/-- The values that compare in this way with a given one. -/
def range (value : RangeValue) : Comparison → Range
  | less => ⟨none, some ⟨value, false⟩⟩
  | atMost => ⟨none, some ⟨value, true⟩⟩
  | greater => ⟨some ⟨value, false⟩, none⟩
  | atLeast => ⟨some ⟨value, true⟩, none⟩
  | equal => .exactly value

/-- Two comparisons point the same way, so that they can stand on both sides of a feature. -/
def agrees : Comparison → Comparison → Bool
  | less, less | less, atMost | atMost, less | atMost, atMost => true
  | greater, greater | greater, atLeast | atLeast, greater | atLeast, atLeast => true
  | _, _ => false

/-- The component is the given sign. -/
def isSign (c : Char) : Component → Bool
  | .leaf ⟨.delim d, _, _⟩ => d = c
  | _ => false

/-- A comparison sign. Its two characters may not be separated by white space. -/
def parser : Parser Comparison := do
  let component ← next
  if isSign '=' component then return .equal
  else if isSign '<' component || isSign '>' component then
    let orEqual ← succeeds do
      let second ← nextOrSpace
      if !isSign '=' second then unexpected second
    match isSign '<' component, orEqual with
    | true, false => return .less
    | true, true => return .atMost
    | false, false => return .greater
    | false, true => return .atLeast
  else unexpected component

end Comparison

namespace Feature

/-- The name of a feature without a beginning that makes it a bound, and that beginning. -/
def splitBound (name : String) : Option Comparison × String :=
  match Text.after? "min-".toList name.toList, Text.after? "max-".toList name.toList with
  | some rest, _ => (some .atLeast, String.ofList rest)
  | _, some rest => (some .atMost, String.ofList rest)
  | none, none => (none, name)

/-- A ranged feature after its name. -/
def rangedParser (context : Context) (name : RangedFeature) : Parser Feature := do
  if ← isExhausted then return .ranged name (.above name.zero)
  let comparison ← if ← succeeds colon then pure .equal else Comparison.parser
  return .ranged name (comparison.range (← name.valueParser context))

/-- A ranged feature after a name that makes it a bound. -/
def boundParser (context : Context) (name : RangedFeature) (bound : Comparison) :
    Parser Feature := do
  if ← isExhausted then fault .rangeWithoutBounds (← location)
  colon
  return .ranged name (bound.range (← name.valueParser context))

/-- A discrete feature after its name. -/
def discreteParser (name : DiscreteFeature) : Parser Feature := do
  if ← isExhausted then return .discrete name none
  colon
  return .discrete name (some (← name.domain.parser))

/-- A feature whose name stands in front, after that name. -/
def namedParser (context : Context) (location : Position) (name : String) : Parser Feature :=
  let (bound, base) := splitBound name
  match Vocabulary.find? RangedFeature base, bound, Vocabulary.find? DiscreteFeature base with
  | some feature, some bound, _ => boundParser context feature bound
  | some feature, none, _ => rangedParser context feature
  | none, none, some feature => discreteParser feature
  | none, _, _ => fault .unsupportedFeature location

/-- The range between the bounds of two one-sided ranges. -/
def between (first second : Range) : Range :=
  ⟨first.lower.or second.lower, first.upper.or second.upper⟩

/-- A feature whose name stands behind a value. -/
def valueFirstParser (context : Context) (location : Position) : Parser Feature := do
  match (← get).rest.find? fun component => (identName? component).isSome with
  | none => fault .unsupportedFeature location
  | some component =>
    match (keyword? component).bind (Vocabulary.find? RangedFeature) with
    | none => fault .unsupportedFeature component.start
    | some name =>
      let value ← name.valueParser context
      let comparison ← Comparison.parser
      let _ ← ident
      let range := comparison.flip.range value
      if ← isExhausted then return .ranged name range
      let location ← Parser.location
      let second ← Comparison.parser
      if !comparison.agrees second then fault .unmatchedComparison location
      return .ranged name (between range (second.range (← name.valueParser context)))

/-- A feature. -/
def parser (context : Context) : Parser Feature := do
  let before ← get
  match keyword? (← next) with
  | some name => namedParser context before.location name
  | none =>
    set before
    valueFirstParser context before.location

end Feature

/-- A feature in brackets. -/
def Expression.parser (context : Context) : Parser Expression := do
  return ⟨← inside (← block .round) (Feature.parser context)⟩

namespace MediaQuery

/-- The words that name no media type. -/
def reserved : List String := ["only", "not", "and", "or", "layer"]

/-- A media type. -/
def mediaTypeParser : Parser String :=
  expect fun component => (keyword? component).filter fun word => word ∉ reserved

/-- A media query. -/
def parser (context : Context) : Parser MediaQuery := do
  let qualifier ← attempt (member MediaQualifier)
  let mediaType ← attempt mediaTypeParser
  let first ←
    if mediaType.isSome then pure []
    else if qualifier.isSome then unexpected (← next)
    else pure [← Expression.parser context]
  let others ← many do
    identMatching "and"
    Expression.parser context
  return ⟨qualifier, mediaType, first ++ others⟩

end MediaQuery

/-- A media list. -/
def MediaList.parser (context : Context) : Parser MediaList := do
  if ← isExhausted then return ⟨[]⟩
  return ⟨← commaSeparated (MediaQuery.parser context)⟩

end Css
