import Css.Proofs.Token.Writing

/-!
# Integers that are read back

The decimal digits of an integer, with a hyphen in front of those of a negative one, are read as the
integer wherever nothing behind them continues a numeral.
-/

namespace Css

open Token (Kind)

/-- The numeral that an integer is written as. -/
def Numeral.ofInt (n : Int) : Numeral := ⟨toString n, .integer n⟩

/-- The text does not continue a numeral. -/
structure StopsNumeral (rest : List Char) : Prop where
  digit : startsDigit rest = false
  fraction : readFraction rest = ([], rest)
  exponent : readExponent rest = ([], rest)

/-- What is delimited does not continue a numeral. -/
theorem Delimited.stopsNumeral {rest : List Char} (h : Delimited rest) : StopsNumeral rest := by
  have hall : delimiters.all fun c => !isDigit c && c != '.' && !(c = 'e' ∨ c = 'E') := by decide
  cases rest with
  | nil => exact ⟨rfl, rfl, rfl⟩
  | cons c rest =>
      have hc := List.all_eq_true.mp hall c (h c rfl)
      simp only [Bool.and_eq_true, Bool.not_eq_true', bne_iff_ne, decide_eq_false_iff_not] at hc
      obtain ⟨⟨hdigit, hpoint⟩, hexponent⟩ := hc
      refine ⟨by simp [startsDigit, hdigit], ?_, by simp [readExponent, hexponent]⟩
      unfold readFraction
      split
      · rename_i heq
        cases heq
        exact absurd rfl hpoint
      · rfl

/-- An integer is written as its sign and its digits. -/
theorem toList_toString (n : Int) :
    (toString n).toList = (if n < 0 then ['-'] else []) ++ Nat.toDigits 10 n.natAbs := by
  rw [Int.toString_eq_repr, Int.repr_eq_if]
  split
  · rename_i h
    rw [if_neg (by omega), Nat.toList_repr, show n.toNat = n.natAbs by omega]
    rfl
  · rename_i h
    rw [if_pos (by omega), String.toList_append, Nat.toList_repr,
      show (-n).toNat = n.natAbs by omega]
    rfl

/-- The digits of a number are digits. -/
theorem isDigit_of_mem_toDigits {n : Nat} {c : Char} (h : c ∈ Nat.toDigits 10 n) : isDigit c :=
  Nat.isDigit_of_mem_toDigits (by decide) (by decide) h

/-- The digits of a number in front of what does not go on with a digit are read as digits. -/
theorem readDigits_toDigits (n : Nat) {rest : List Char} (h : startsDigit rest = false) :
    readDigits (Nat.toDigits 10 n ++ rest) = (Nat.toDigits 10 n, rest) := by
  have hdigits : ∀ c ∈ Nat.toDigits 10 n, isDigit c := fun c hc => isDigit_of_mem_toDigits hc
  rw [readDigits, List.takeWhile_append_of_pos hdigits, List.dropWhile_append_of_pos hdigits]
  cases rest with
  | nil => simp
  | cons c rest =>
      have hc : isDigit c = false := by simpa [startsDigit] using h
      simp [hc]

/-- The digits of a number denote the number. -/
theorem decimalValue_toDigits (n : Nat) : decimalValue (Nat.toDigits 10 n) = n := by
  rw [decimalValue, ← Nat.ofDigitChars_eq_foldl, Nat.ofDigitChars_ten_toDigits]

/-- The sign and the digits of an integer denote the integer. -/
theorem signedValue_toString (n : Int) :
    signedValue ((if n < 0 then ['-'] else []) ++ Nat.toDigits 10 n.natAbs) = n := by
  have hvalue := decimalValue_toDigits n.natAbs
  split
  · show -(decimalValue (Nat.toDigits 10 n.natAbs) : Int) = n
    omega
  · have hdigits : ∀ c ∈ Nat.toDigits 10 n.natAbs, isDigit c :=
      fun c hc => isDigit_of_mem_toDigits hc
    rw [List.nil_append, signedValue_of_isDigit hdigits, hvalue]
    omega

/-- A written integer is read as the integer. -/
theorem readNumeral_toString (n : Int) {rest : List Char} (h : StopsNumeral rest) :
    readNumeral ((toString n).toList ++ rest) = (.ofInt n, rest) := by
  have hsign : readSign ((toString n).toList ++ rest) =
      (if n < 0 then ['-'] else [], Nat.toDigits 10 n.natAbs ++ rest) := by
    rw [toList_toString]
    split
    · rfl
    · cases hdigits : Nat.toDigits 10 n.natAbs with
      | nil => exact absurd hdigits Nat.toDigits_ne_nil
      | cons c digits =>
          have hc : isDigit c := isDigit_of_mem_toDigits (hdigits ▸ List.mem_cons_self ..)
          have hne : ¬(c = '+' ∨ c = '-') := by
            rintro (rfl | rfl) <;> cases hc
          simp [readSign, hne]
  simp only [readNumeral, hsign, readDigits_toDigits _ h.digit, h.fraction, h.exponent,
    List.append_nil, numeralValue, and_self, if_true, signedValue_toString, Numeral.ofInt]
  rw [← toList_toString, String.ofList_toList]

/-- A written integer starts a number. -/
theorem startsNumber_toString (n : Int) (rest : List Char) :
    startsNumber ((toString n).toList ++ rest) = true := by
  rw [toList_toString]
  cases hdigits : Nat.toDigits 10 n.natAbs with
  | nil => exact absurd hdigits Nat.toDigits_ne_nil
  | cons c digits =>
      have hc : isDigit c := isDigit_of_mem_toDigits (hdigits ▸ List.mem_cons_self ..)
      have hne : ¬(c = '+' ∨ c = '-') := by
        rintro (rfl | rfl) <;> cases hc
      split <;> simp [startsNumber, hne, startsUnsigned, hc]

/-- A written integer is within the limit on digits if the integer is. -/
theorem Numeral.le_of_integerDigits?_ofInt {n : Int} (h : n.natAbs < 10 ^ digitLimit) {count : Nat}
    (hcount : (ofInt n).integerDigits? = some count) : count ≤ digitLimit := by
  obtain rfl : ((toString n).toList.filter isDigit).length = count := Option.some.inj hcount
  have hlength : (Nat.toDigits 10 n.natAbs).length ≤ digitLimit :=
    (Nat.length_toDigits_le_iff (by decide) (by decide)).mpr h
  have hsign : (if n < 0 then ['-'] else []).filter isDigit = [] := by
    split <;> rfl
  rw [toList_toString, List.filter_append, hsign, List.nil_append]
  exact Nat.le_trans (List.length_filter_le ..) hlength

end Css
