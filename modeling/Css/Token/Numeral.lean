import Css.Number.Numeric
import Css.Token.Character

/-!
# Numerals

A numeral is an optional sign, digits with an optional fraction, and an optional exponent. Without
fraction and exponent it denotes an integer of any size, otherwise a double.
-/

namespace Css

open Number

/-- A number as it is written, with its value. -/
structure Numeral where
  text : String
  value : Numeric
  deriving Repr, Inhabited

/-- The number that decimal digits denote. -/
def decimalValue (digits : List Char) : Nat :=
  digits.foldl (fun n c => 10 * n + (c.toNat - '0'.toNat)) 0

/-- The number that digits after an optional sign denote. -/
def signedValue : List Char → Int
  | '-' :: digits => -(decimalValue digits : Int)
  | '+' :: digits => decimalValue digits
  | digits => decimalValue digits

/-- An optional sign, and the text after it. -/
def readSign : List Char → List Char × List Char
  | [] => ([], [])
  | c :: rest => if c = '+' ∨ c = '-' then ([c], rest) else ([], c :: rest)

/-- The digits that the text starts with, and the text after them. -/
def readDigits (s : List Char) : List Char × List Char :=
  (s.takeWhile isDigit, s.dropWhile isDigit)

/-- An optional point with digits after it, and the text after them. -/
def readFraction : List Char → List Char × List Char
  | '.' :: rest =>
    if startsDigit rest then
      let (digits, rest) := readDigits rest
      ('.' :: digits, rest)
    else ([], '.' :: rest)
  | s => ([], s)

/-- An optional exponent mark with a signed integer after it, and the text after them. -/
def readExponent : List Char → List Char × List Char
  | [] => ([], [])
  | c :: rest =>
    let (sign, after) := readSign rest
    if (c = 'e' ∨ c = 'E') ∧ startsDigit after then
      let (digits, after) := readDigits after
      (c :: sign ++ digits, after)
    else ([], c :: rest)

/-- The value of a numeral with these parts. -/
def numeralValue (sign whole fraction exponent : List Char) : Numeric :=
  if fraction = [] ∧ exponent = [] then .integer (signedValue (sign ++ whole))
  else
    let places := fraction.drop 1
    .real (Binary64.ofDecimal (sign = ['-']) (decimalValue (whole ++ places))
      (signedValue (exponent.drop 1) - places.length))

/-- The longest numeral that the text starts with, and the text after it. -/
def readNumeral (s : List Char) : Numeral × List Char :=
  let (sign, s₁) := readSign s
  let (whole, s₂) := readDigits s₁
  let (fraction, s₃) := readFraction s₂
  let (exponent, rest) := readExponent s₃
  (⟨String.ofList (sign ++ whole ++ fraction ++ exponent),
    numeralValue sign whole fraction exponent⟩, rest)

/-- The greatest number of digits that an integer may be written with. -/
def digitLimit : Nat := 4300

/-- The number of digits of an integer that is written with too many. -/
def Numeral.excessDigits? (n : Numeral) : Option Nat :=
  let count := (n.text.toList.filter isDigit).length
  if n.value.isInteger ∧ digitLimit < count then some count else none

/-- A sign and the text after it make up the text. -/
theorem readSign_append (s : List Char) : (readSign s).1 ++ (readSign s).2 = s := by
  cases s with
  | nil => rfl
  | cons c rest => simp only [readSign]; split <;> rfl

/-- Digits and the text after them make up the text. -/
theorem readDigits_append (s : List Char) : (readDigits s).1 ++ (readDigits s).2 = s :=
  List.takeWhile_append_dropWhile

/-- A fraction and the text after it make up the text. -/
theorem readFraction_append (s : List Char) : (readFraction s).1 ++ (readFraction s).2 = s := by
  unfold readFraction
  split
  · split
    · simp [readDigits_append]
    · rfl
  · rfl

/-- An exponent and the text after it make up the text. -/
theorem readExponent_append (s : List Char) : (readExponent s).1 ++ (readExponent s).2 = s := by
  cases s with
  | nil => rfl
  | cons c rest =>
    simp only [readExponent]
    split
    · simp [readDigits_append, readSign_append]
    · rfl

/-- A numeral and the text after it make up the text. -/
theorem readNumeral_append (s : List Char) :
    (readNumeral s).1.text.toList ++ (readNumeral s).2 = s := by
  simp only [readNumeral, String.toList_ofList, List.append_assoc, readExponent_append,
    readFraction_append, readDigits_append, readSign_append]

/-- A numeral read where a number starts is not empty. -/
theorem readNumeral_text_ne_nil {s : List Char} (h : startsNumber s) :
    (readNumeral s).1.text.toList ≠ [] := by
  cases s with
  | nil => simp [startsNumber] at h
  | cons c rest =>
    simp only [readNumeral, String.toList_ofList]
    by_cases hsign : c = '+' ∨ c = '-'
    · simp [readSign, hsign]
    · simp only [startsNumber, hsign, if_false, startsUnsigned, Bool.or_eq_true,
        Bool.and_eq_true, decide_eq_true_eq] at h
      rcases h with hd | ⟨rfl, hd⟩
      · simp [readSign, hsign, readDigits, hd]
      · have hdot : isDigit '.' = false := rfl
        simp [readSign, readDigits, hdot, readFraction, hd]

end Css
