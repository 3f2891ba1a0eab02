import Css.Number.Numeric
import Css.Vocabulary

/-!
# Values of media features

A ranged feature is compared with lengths, ratios, resolutions or counts; a discrete feature has one
of a few values. Numbers in values are equal when their exact values are.
-/

namespace Css

open Number

/-- The units of lengths. -/
inductive LengthUnit where
  | px | cm | mm | q | inch | pt | pc
  | em | rem | ex | rex | cap | ch | ic | lh | rlh
  | vw | vh | vi | vb | vmin | vmax
  deriving DecidableEq, Repr

instance : Vocabulary LengthUnit where
  members :=
    [.px, .cm, .mm, .q, .inch, .pt, .pc, .em, .rem, .ex, .rex, .cap, .ch, .ic, .lh, .rlh,
     .vw, .vh, .vi, .vb, .vmin, .vmax]
  word
    | .px => "px" | .cm => "cm" | .mm => "mm" | .q => "q" | .inch => "in" | .pt => "pt"
    | .pc => "pc" | .em => "em" | .rem => "rem" | .ex => "ex" | .rex => "rex" | .cap => "cap"
    | .ch => "ch" | .ic => "ic" | .lh => "lh" | .rlh => "rlh" | .vw => "vw" | .vh => "vh"
    | .vi => "vi" | .vb => "vb" | .vmin => "vmin" | .vmax => "vmax"

/-- The units of resolutions. -/
inductive ResolutionUnit where
  | dpi
  | dpcm
  | dppx
  | x
  deriving DecidableEq, Repr

instance : Vocabulary ResolutionUnit where
  members := [.dpi, .dpcm, .dppx, .x]
  word
    | .dpi => "dpi"
    | .dpcm => "dpcm"
    | .dppx => "dppx"
    | .x => "x"

/-- A value that a ranged feature is compared with. -/
inductive RangeValue where
  | length (value : Numeric) (unit : LengthUnit)
  | ratio (numerator denominator : Numeric)
  | resolution (value : Numeric) (unit : ResolutionUnit)
  | count (value : Int)
  deriving BEq, Repr

namespace RangeValue

/-- The value is zero, in whatever unit. -/
def isZero : RangeValue → Bool
  | length value _ | ratio value _ | resolution value _ => value.isZero
  | count value => value = 0

/-- The canonical text of a value. -/
def css : RangeValue → Except WriteError String
  | length value unit => do return (← value.css) ++ Vocabulary.word unit
  | ratio numerator denominator => do return (← numerator.css) ++ "/" ++ (← denominator.css)
  | resolution value unit => do return (← value.css) ++ Vocabulary.word unit
  | count value => .ok (toString value)

end RangeValue

/-- The values of discrete features. -/
inductive DiscreteValue where
  | portrait | landscape
  | interlace | progressive
  | none | slow | fast
  | scroll | optionalPaged | paged
  | srgb | p3 | rec2020
  | coarse | fine
  | onDemand | hover
  | zero | one
  deriving DecidableEq, Repr

/-- The canonical text of a discrete value. -/
def DiscreteValue.css : DiscreteValue → String
  | portrait => "portrait"
  | landscape => "landscape"
  | interlace => "interlace"
  | progressive => "progressive"
  | none => "none"
  | slow => "slow"
  | fast => "fast"
  | scroll => "scroll"
  | optionalPaged => "optional-paged"
  | paged => "paged"
  | srgb => "srgb"
  | p3 => "p3"
  | rec2020 => "rec2020"
  | coarse => "coarse"
  | fine => "fine"
  | onDemand => "on-demand"
  | hover => "hover"
  | zero => "0"
  | one => "1"

/-- The sets of values that discrete features draw from. -/
inductive DiscreteDomain where
  | orientation
  | scan
  | grid
  | update
  | overflowBlock
  | overflowInline
  | colorGamut
  | pointer
  | hover
  | transform3D
  deriving DecidableEq, Repr

namespace DiscreteDomain

/-- The values of a domain. -/
def values : DiscreteDomain → List DiscreteValue
  | orientation => [.portrait, .landscape]
  | scan => [.interlace, .progressive]
  | grid => [.zero, .one]
  | update => [.none, .slow, .fast]
  | overflowBlock => [.none, .scroll, .optionalPaged, .paged]
  | overflowInline => [.none, .scroll]
  | colorGamut => [.srgb, .p3, .rec2020]
  | pointer => [.none, .coarse, .fine]
  | hover => [.none, .onDemand, .hover]
  | transform3D => [.zero, .one]

/-- The values of a domain are written as numbers, not as words. -/
def isBinary : DiscreteDomain → Bool
  | grid | transform3D => true
  | _ => false

end DiscreteDomain

end Css
