/-!
# Double precision numbers

A number with a fraction or an exponent denotes the double nearest to it. Doubles are kept as an
integral significand and a power of two, so that rounding, comparison and printing are exact
integer arithmetic.
-/

namespace Css.Number

-- Powers of natural numbers are those of the core library, whatever else is imported.
attribute [local instance (2000)] instPowNat

/-- A double. A finite one is `significand * 2 ^ exponent`, negated when `negative` holds, with a
significand below `2 ^ 53` and an exponent of at least `-1074`; the significand is at least
`2 ^ 52` unless the exponent is `-1074`. -/
inductive Binary64 where
  | finite (negative : Bool) (significand : Nat) (exponent : Int)
  | infinite (negative : Bool)
  | nan
  deriving DecidableEq, Repr, Inhabited

/-- The integer nearest to `n / d`; a half goes to the even neighbour. -/
def roundHalfEven (n d : Nat) : Nat :=
  let q := n / d
  let r := n % d
  if d < 2 * r ∨ (2 * r = d ∧ q % 2 = 1) then q + 1 else q

/-- The number of decimal digits of a positive number. -/
def decimalLength (n : Nat) : Nat :=
  (Nat.toDigits 10 n).length

namespace Binary64

/-- The least exponent of a finite double. -/
def minExponent : Int := -1074

/-- The greatest exponent of a finite double. -/
def maxExponent : Int := 971

/-- Zero with the given sign. -/
def zero (negative : Bool) : Binary64 := .finite negative 0 minExponent

/-- The exponent that leaves a 53-bit significand for `n / d`, or the least exponent if that is
greater. -/
def exponentOf (n d : Nat) : Int :=
  let guess : Int := (n.log2 : Int) - d.log2 - 53
  let fits := n * 2 ^ (-guess).toNat < 2 ^ (53 : Nat) * (d * 2 ^ guess.toNat)
  max minExponent (if fits then guess else guess + 1)

/-- The double nearest to `n / d`, a tie going to the even significand. -/
def ofRatio (negative : Bool) (n d : Nat) : Binary64 :=
  if n = 0 then zero negative
  else
    let exponent := exponentOf n d
    let significand := roundHalfEven (n * 2 ^ (-exponent).toNat) (d * 2 ^ exponent.toNat)
    let (significand, exponent) :=
      if significand = 2 ^ (53 : Nat) then (2 ^ (52 : Nat), exponent + 1)
      else (significand, exponent)
    if maxExponent < exponent then .infinite negative
    else .finite negative significand exponent

/-- The double nearest to `digits * 10 ^ exponent`. Numbers whose magnitude alone shows that they
are out of range are decided without forming the power of ten. -/
def ofDecimal (negative : Bool) (digits : Nat) (exponent : Int) : Binary64 :=
  let magnitude := (decimalLength digits : Int) + exponent
  if digits = 0 ∨ magnitude ≤ -324 then zero negative
  else if 309 < magnitude then .infinite negative
  else ofRatio negative (digits * 10 ^ exponent.toNat) (10 ^ (-exponent).toNat)

/-- The exact value of a finite double. -/
def toRat? : Binary64 → Option Rat
  | .finite negative significand exponent =>
    let magnitude := mkRat (significand * 2 ^ exponent.toNat) (2 ^ (-exponent).toNat)
    some (if negative then -magnitude else magnitude)
  | _ => none

/-- The integer that a finite double without a fraction is. -/
def toInt? (x : Binary64) : Option Int :=
  x.toRat?.bind fun q => if q.den = 1 then some q.num else none

end Binary64

end Css.Number
