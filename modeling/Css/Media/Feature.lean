import Css.Media.Value

/-!
# Media features

A ranged feature stands for a range of values, a discrete feature for one value, or for any value
that is not the neutral one. The canonical text of a range is the shortest of the forms that the
grammar offers: the bare name, one value, a bound, or two bounds.
-/

namespace Css

open Number

/-- The features whose values are ordered. -/
inductive RangedFeature where
  | width
  | height
  | aspectRatio
  | resolution
  | color
  | colorIndex
  | monochrome
  deriving DecidableEq, Repr

instance : Vocabulary RangedFeature where
  members := [.width, .height, .aspectRatio, .resolution, .color, .colorIndex, .monochrome]
  word
    | .width => "width"
    | .height => "height"
    | .aspectRatio => "aspect-ratio"
    | .resolution => "resolution"
    | .color => "color"
    | .colorIndex => "color-index"
    | .monochrome => "monochrome"

/-- The zero that the bare name of a ranged feature compares with. -/
def RangedFeature.zero : RangedFeature → RangeValue
  | width | height => .length (.integer 0) .px
  | aspectRatio => .ratio (.integer 0) (.integer 1)
  | resolution => .resolution (.integer 0) .dppx
  | color | colorIndex | monochrome => .count 0

/-- The features whose values are not ordered. -/
inductive DiscreteFeature where
  | orientation
  | scan
  | grid
  | update
  | overflowBlock
  | overflowInline
  | colorGamut
  | pointer
  | hover
  | anyPointer
  | anyHover
  | transform3D
  deriving DecidableEq, Repr

instance : Vocabulary DiscreteFeature where
  members :=
    [.orientation, .scan, .grid, .update, .overflowBlock, .overflowInline, .colorGamut, .pointer,
     .hover, .anyPointer, .anyHover, .transform3D]
  word
    | .orientation => "orientation"
    | .scan => "scan"
    | .grid => "grid"
    | .update => "update"
    | .overflowBlock => "overflow-block"
    | .overflowInline => "overflow-inline"
    | .colorGamut => "color-gamut"
    | .pointer => "pointer"
    | .hover => "hover"
    | .anyPointer => "any-pointer"
    | .anyHover => "any-hover"
    | .transform3D => "-webkit-transform-3d"

/-- The set of values that a discrete feature draws from. -/
def DiscreteFeature.domain : DiscreteFeature → DiscreteDomain
  | orientation => .orientation
  | scan => .scan
  | grid => .grid
  | update => .update
  | overflowBlock => .overflowBlock
  | overflowInline => .overflowInline
  | colorGamut => .colorGamut
  | pointer | anyPointer => .pointer
  | hover | anyHover => .hover
  | transform3D => .transform3D

/-- One end of a range. -/
structure Bound where
  value : RangeValue
  inclusive : Bool
  deriving BEq, Repr

/-- A range of values, which is bounded at one end at least. -/
structure Range where
  lower : Option Bound
  upper : Option Bound
  deriving BEq, Repr

namespace Range

/-- The values above the given zero. -/
def above (zero : RangeValue) : Range := ⟨some ⟨zero, false⟩, none⟩

/-- The one given value. -/
def exactly (value : RangeValue) : Range := ⟨some ⟨value, true⟩, some ⟨value, true⟩⟩

/-- The range is bounded by a zero from below and by nothing from above, so that the name of the
feature says it all. -/
def isBoolean (r : Range) : Bool :=
  match r with
  | ⟨some lower, none⟩ => !lower.inclusive && lower.value.isZero
  | _ => false

/-- The sign between two sides of which the left one is smaller. -/
def lessSign (inclusive : Bool) : String := if inclusive then "<=" else "<"

/-- The canonical text of a feature with this name and range. -/
def css (name : String) (r : Range) : Except WriteError String :=
  if r.isBoolean then .ok name
  else
    match r.lower, r.upper with
    | some lower, some upper => do
      if lower.inclusive && upper.inclusive && lower.value == upper.value then
        return name ++ ":" ++ (← lower.value.css)
      return (← lower.value.css) ++ lessSign lower.inclusive ++ name ++ lessSign upper.inclusive ++
        (← upper.value.css)
    | some lower, none => do
      let start := if lower.inclusive then "min-" ++ name ++ ":" else name ++ ">"
      return start ++ (← lower.value.css)
    | none, some upper => do
      let start := if upper.inclusive then "max-" ++ name ++ ":" else name ++ "<"
      return start ++ (← upper.value.css)
    | none, none => .ok ""

end Range

/-- What a media query asks about the output device. -/
inductive Feature where
  | ranged (name : RangedFeature) (range : Range)
  | discrete (name : DiscreteFeature) (value : Option DiscreteValue)
  deriving BEq, Repr

/-- The canonical text of a feature. -/
def Feature.css : Feature → Except WriteError String
  | ranged name range => range.css (Vocabulary.word name)
  | discrete name none => .ok (Vocabulary.word name)
  | discrete name (some value) => .ok (Vocabulary.word name ++ ":" ++ value.css)

end Css
