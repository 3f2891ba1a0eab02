import Css.Number.Shortest

/-!
# Numeric values

A numeric token denotes an integer of any size or a double. Values are compared exactly, and are
written with the fewest digits that read back.
-/

namespace Css.Number

-- Powers of natural numbers are those of the core library, whatever else is imported.
attribute [local instance (2000)] instPowNat

/-- The value of a numeric token. -/
inductive Numeric where
  | integer (value : Int)
  | real (value : Binary64)
  deriving DecidableEq, Repr, Inhabited

/-- A failure to write a value. -/
inductive WriteError where
  /-- An integer beyond the range of doubles has no written form. -/
  | integerTooLarge
  deriving DecidableEq, Repr

/-- The wording of a failure to write. -/
def WriteError.message : WriteError → String
  | .integerTooLarge => "int too large to convert to float"

/-- The mark that starts the text of a negative number. -/
def signText (negative : Bool) : String :=
  if negative then "-" else ""

/-- Digits with a point after the first `point` of them, padded with zeros on either side. At
least one digit follows the point. -/
def positionalText (digits : List Char) (point : Int) : String :=
  let padded := List.replicate (1 - point).toNat '0' ++ digits ++
    List.replicate (point + 1 - digits.length).toNat '0'
  let whole := (max point 1).toNat
  String.ofList (padded.take whole ++ '.' :: padded.drop whole)

/-- Digits in scientific notation: a point after the first if there are more, and an exponent of
at least two digits with its sign. -/
def scientificText (digits : List Char) (exponent : Int) : String :=
  let fraction := if digits.length ≤ 1 then [] else '.' :: digits.drop 1
  let power := Nat.toDigits 10 exponent.natAbs
  let power := List.replicate (2 - power.length) '0' ++ power
  String.ofList (digits.take 1 ++ fraction ++ 'e' :: (if exponent < 0 then '-' else '+') :: power)

/-- The full text of a double: positional for magnitudes from `10 ^ (-4)` to below `10 ^ 16`,
scientific otherwise. -/
def Binary64.text : Binary64 → String
  | .nan => "nan"
  | .infinite negative => signText negative ++ "inf"
  | .finite negative significand exponent =>
    if significand = 0 then signText negative ++ "0.0"
    else
      let decimal := shortest significand exponent
      let digits := Nat.toDigits 10 decimal.digits
      let point := decimal.exponent + digits.length
      signText negative ++
        if -4 < point ∧ point ≤ 16 then positionalText digits point
        else scientificText digits (point - 1)

namespace Numeric

/-- The token had neither a fraction nor an exponent. -/
def isInteger : Numeric → Bool
  | .integer _ => true
  | .real _ => false

/-- The full text of a value, which shows whether it is an integer or a double. -/
def text : Numeric → String
  | .integer n => toString n
  | .real x => x.text

/-- The text of a value in a stylesheet. A double without a fraction is written as the integer it
is; an integer that rounds to no finite double cannot be written. -/
def css : Numeric → Except WriteError String
  | .integer n =>
    if n.natAbs < 2 ^ (1024 : Nat) - 2 ^ (970 : Nat) then .ok (toString n)
    else .error .integerTooLarge
  | .real x =>
    match x.toInt? with
    | some n => .ok (toString n)
    | none => .ok x.text

/-- The exact value of a finite number. -/
def toRat? : Numeric → Option Rat
  | .integer n => some n
  | .real x => x.toRat?

/-- Whether the first value is at most the second. The infinities lie at the two ends; what is not
a number compares with nothing. -/
def le (a b : Numeric) : Bool :=
  match a, b with
  | .real .nan, _ => false
  | _, .real .nan => false
  | .real (.infinite true), _ => true
  | _, .real (.infinite false) => true
  | a, b =>
    match a.toRat?, b.toRat? with
    | some x, some y => x ≤ y
    | _, _ => false

/-- Numbers are equal when their exact values are, whichever of the two forms they have. -/
instance : BEq Numeric where
  beq a b := a.le b && b.le a

/-- The value is zero. -/
def isZero (a : Numeric) : Bool := a == .integer 0

/-- The value is below zero. -/
def isNegative (a : Numeric) : Bool := !(Numeric.integer 0).le a && a.le (.integer 0)

/-- The value is above zero. -/
def isPositive (a : Numeric) : Bool := !a.le (.integer 0) && (Numeric.integer 0).le a

end Numeric

end Css.Number
