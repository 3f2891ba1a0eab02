import Css.Number.Binary64

/-!
# The shortest digits of a double

A double is printed with the fewest significant digits that read back as the same double, and of
those the nearest to its value. The search compares a decimal grid with the interval of reals that
round to the double, in exact integer arithmetic.
-/

namespace Css.Number

-- Powers of natural numbers are those of the core library, whatever else is imported.
attribute [local instance (2000)] instPowNat

/-- A decimal number `digits * 10 ^ exponent`. -/
structure Decimal where
  digits : Nat
  exponent : Int
  deriving DecidableEq, Repr

/-- The decimal without trailing zeros in its digits. -/
def Decimal.normalize (d : Decimal) : Decimal :=
  let zeros := ((Nat.toDigits 10 d.digits).reverse.takeWhile (· = '0')).length
  ⟨d.digits / 10 ^ zeros, d.exponent + zeros⟩

/-- The reals that round to a positive double, in units of a quarter of its last place: the value
is `center`, the interval reaches from `lower` to `upper`, and its ends belong to it when the
significand is even. -/
structure RoundingInterval where
  lower : Nat
  center : Nat
  upper : Nat
  closed : Bool

/-- The interval of a double with this significand and exponent. The neighbour below a power of
two is only half as far away as the neighbour above. -/
def RoundingInterval.of (significand : Nat) (exponent : Int) : RoundingInterval where
  lower := 4 * significand -
    (if significand = 2 ^ (52 : Nat) ∧ Binary64.minExponent < exponent then 1 else 2)
  center := 4 * significand
  upper := 4 * significand + 2
  closed := significand % 2 = 0

/-- The place of the leading digit of `n / d`: it is below `10 ^ p` and at least `10 ^ (p - 1)`. -/
def leadingPlace (n d : Nat) : Int :=
  if d ≤ n then decimalLength (n / d) else 1 - decimalLength ((d - 1) / n)

/-- A point of the grid `10 ^ place` that lies in the interval, where a unit of the interval is
`n / d`: the nearer of the value's two neighbours if both do, the even one on a tie. -/
def gridPoint? (interval : RoundingInterval) (n d : Nat) (place : Int) : Option Decimal :=
  let unit := n * 10 ^ (-place).toNat
  let step := d * 10 ^ place.toNat
  let below := interval.center * unit / step
  let rest := interval.center * unit % step
  let hasBelow := interval.lower * unit < below * step ||
    (interval.closed && interval.lower * unit == below * step)
  let hasAbove := (below + 1) * step < interval.upper * unit ||
    (interval.closed && (below + 1) * step == interval.upper * unit)
  let preferBelow := 2 * rest < step || (2 * rest == step && below % 2 == 0)
  if hasBelow && (!hasAbove || preferBelow) then some ⟨below, place⟩
  else if hasAbove then some ⟨below + 1, place⟩
  else none

/-- The shortest decimal that reads back as the positive double with this significand and
exponent. Seventeen digits always suffice. -/
def shortest (significand : Nat) (exponent : Int) : Decimal :=
  let n := 2 ^ (exponent - 2).toNat
  let d := 2 ^ (2 - exponent).toNat
  let interval := RoundingInterval.of significand exponent
  let place := leadingPlace (interval.center * n) d
  let found := (List.range 17).findSome? fun (i : Nat) =>
    gridPoint? interval n d (place - (i + 1 : Nat))
  (found.getD ⟨significand, 0⟩).normalize

end Css.Number
