import Css.Proofs.Number.Shortest
import Css.Proofs.Token.Parts

/-!
# Numbers that are read back

The text of a double in positional or in scientific notation is taken apart into the digits it was
made of, which denote the shortest decimal and so are rounded to the double. With the integers,
every finite number is read back from its canonical text as the same exact value.
-/

namespace Css

open Number

/-- Digits denote what the library reads them as. -/
theorem decimalValue_eq (digits : List Char) :
    decimalValue digits = Nat.ofDigitChars 10 digits 0 := by
  rw [decimalValue, ← Nat.ofDigitChars_eq_foldl]

/-- The digits in front count for as many powers of ten as digits follow. -/
theorem decimalValue_append (a b : List Char) :
    decimalValue (a ++ b) = 10 ^ b.length * decimalValue a + decimalValue b := by
  simp only [decimalValue_eq]
  rw [Nat.ofDigitChars_append, Nat.ofDigitChars_eq_ofDigitChars_zero]

/-- Zeros denote zero. -/
theorem decimalValue_replicate_zero (n : ℕ) : decimalValue (List.replicate n '0') = 0 := by
  rw [decimalValue_eq, Nat.ofDigitChars_replicate_zero, Nat.mul_zero]

/-- The parts of the text of a number with a point or an exponent, without its sign. -/
structure IsRealText (whole fraction exponent : List Char) : Prop where
  whole_ne_nil : whole ≠ []
  isDigit_whole : ∀ c ∈ whole, isDigit c
  fraction_cases : fraction = [] ∨
    ∃ places, fraction = '.' :: places ∧ places ≠ [] ∧ ∀ c ∈ places, isDigit c
  exponent_cases : exponent = [] ∨ ∃ sign power, exponent = 'e' :: sign :: power ∧
    (sign = '+' ∨ sign = '-') ∧ power ≠ [] ∧ ∀ c ∈ power, isDigit c
  isReal : ¬(fraction = [] ∧ exponent = [])

/-- The exact value of such a text. -/
def realTextValue (whole fraction exponent : List Char) : ℚ :=
  decimalValue (whole ++ fraction.drop 1) *
    10 ^ (signedValue (exponent.drop 1) - (fraction.drop 1).length)

namespace IsRealText

variable {whole fraction exponent : List Char}

/-- Behind a sign, the parts are those of a numeral. -/
theorem isNumeralText (h : IsRealText whole fraction exponent) (negative : Bool) :
    IsNumeralText (signText negative).toList whole fraction exponent where
  isSign := by
    cases negative
    · exact .inl rfl
    · exact .inr (.inr rfl)
  isDigit_whole := h.isDigit_whole
  fraction_cases := h.fraction_cases
  ne_nil := .inl h.whole_ne_nil
  exponent_cases := by
    rcases h.exponent_cases with rfl | ⟨sign, power, rfl, hsign, hpower⟩
    · exact .inl rfl
    · refine .inr ⟨'e', [sign], power, rfl, .inl rfl, ?_, hpower⟩
      rcases hsign with rfl | rfl
      · exact .inr (.inl rfl)
      · exact .inr (.inr rfl)

/-- A text of a number denotes the double nearest to its exact value. -/
theorem numeralValue_eq (h : IsRealText whole fraction exponent) (negative : Bool) :
    numeralValue (signText negative).toList whole fraction exponent =
      .real (Binary64.ofDecimal negative (decimalValue (whole ++ fraction.drop 1))
        (signedValue (exponent.drop 1) - (fraction.drop 1).length)) := by
  have hnegative : ((signText negative).toList = ['-'] : Bool) = negative := by
    cases negative <;> rfl
  simp only [numeralValue, if_neg h.isReal, hnegative]

end IsRealText

/-- Padding with zeros on both sides multiplies the value by a power of ten. -/
theorem decimalValue_padded (lead trail : ℕ) (digits : List Char) :
    decimalValue (List.replicate lead '0' ++ digits ++ List.replicate trail '0') =
      10 ^ trail * decimalValue digits := by
  simp only [decimalValue_append, decimalValue_replicate_zero, List.length_replicate,
    Nat.mul_zero, Nat.zero_add, Nat.add_zero]

/-- Positional text is the text of a number with the value of its digits. -/
theorem exists_isRealText_positionalText {digits : List Char} (hne : digits ≠ [])
    (h : ∀ c ∈ digits, isDigit c) (point : ℤ) :
    ∃ whole fraction exponent, IsRealText whole fraction exponent ∧
      positionalText digits point = String.ofList (whole ++ fraction ++ exponent) ∧
      realTextValue whole fraction exponent =
        decimalValue digits * 10 ^ (point - digits.length) := by
  have hlength := List.length_pos_of_ne_nil hne
  unfold positionalText
  dsimp only
  set padded := List.replicate (1 - point).toNat '0' ++ digits ++
    List.replicate (point + 1 - digits.length).toNat '0' with hpadded
  have hdigit : ∀ c ∈ padded, isDigit c := by
    intro c hc
    simp only [hpadded, List.mem_append, List.mem_replicate] at hc
    rcases hc with (⟨-, rfl⟩ | hc) | ⟨-, rfl⟩
    · rfl
    · exact h c hc
    · rfl
  have hpaddedLength : padded.length =
      (1 - point).toNat + digits.length + (point + 1 - digits.length).toNat := by
    rw [hpadded, List.length_append, List.length_append, List.length_replicate,
      List.length_replicate]
  have hvalue := decimalValue_padded (1 - point).toNat (point + 1 - digits.length).toNat digits
  rw [← hpadded] at hvalue
  clear_value padded
  set whole := (max point 1).toNat with hwhole
  have hsplit : 0 < whole ∧ whole < padded.length := by omega
  refine ⟨padded.take whole, '.' :: padded.drop whole, [], ⟨?_, ?_, .inr ⟨_, rfl, ?_, ?_⟩, .inl rfl,
    by simp⟩, by simp, ?_⟩
  · exact List.ne_nil_of_length_pos (by rw [List.length_take]; omega)
  · exact fun c hc => hdigit c (List.mem_of_mem_take hc)
  · exact List.ne_nil_of_length_pos (by rw [List.length_drop]; omega)
  · exact fun c hc => hdigit c (List.mem_of_mem_drop hc)
  · have hzero : signedValue [] = 0 := rfl
    rw [realTextValue, List.drop_one, List.tail_cons, List.take_append_drop, hvalue,
      List.length_drop, List.drop_nil, hzero]
    push_cast
    rw [mul_comm ((10 : ℚ) ^ _), mul_assoc, ← zpow_natCast, ← zpow_add₀ (by norm_num)]
    congr 2
    omega

/-- The digits of an exponent behind its sign denote the exponent. -/
theorem signedValue_power (power : ℤ) (zeros : ℕ) :
    signedValue ((if power < 0 then '-' else '+') ::
      (List.replicate zeros '0' ++ Nat.toDigits 10 power.natAbs)) = power := by
  have hdigits : decimalValue (List.replicate zeros '0' ++ Nat.toDigits 10 power.natAbs) =
      power.natAbs := by
    rw [decimalValue_append, decimalValue_replicate_zero, decimalValue_toDigits, Nat.mul_zero,
      Nat.zero_add]
  split <;> simp only [signedValue, hdigits] <;> omega

/-- Scientific text is the text of a number with the value of its digits. -/
theorem exists_isRealText_scientificText {digits : List Char} (hne : digits ≠ [])
    (h : ∀ c ∈ digits, isDigit c) (power : ℤ) :
    ∃ whole fraction exponent, IsRealText whole fraction exponent ∧
      scientificText digits power = String.ofList (whole ++ fraction ++ exponent) ∧
      realTextValue whole fraction exponent =
        decimalValue digits * 10 ^ (power + 1 - digits.length) := by
  have hlength := List.length_pos_of_ne_nil hne
  have hwhole : digits.take 1 ≠ [] := List.ne_nil_of_length_pos (by rw [List.length_take]; omega)
  have hplaces : (if digits.length ≤ 1 then [] else '.' :: digits.drop 1).drop 1 =
      digits.drop 1 := by
    split
    · exact (List.drop_eq_nil_of_le ‹_›).symm
    · rfl
  unfold scientificText
  dsimp only
  refine ⟨_, _, _, ⟨hwhole, ?_, ?_, .inr ⟨_, _, rfl, ?_, ?_, ?_⟩, by simp⟩, rfl, ?_⟩
  · exact fun c hc => h c (List.mem_of_mem_take hc)
  · split
    · exact .inl rfl
    · refine .inr ⟨_, rfl, ?_, fun c hc => h c (List.mem_of_mem_drop hc)⟩
      exact List.ne_nil_of_length_pos (by rw [List.length_drop]; omega)
  · split
    · exact .inr rfl
    · exact .inl rfl
  · exact List.append_ne_nil_of_right_ne_nil _ Nat.toDigits_ne_nil
  · intro c hc
    rcases List.mem_append.mp hc with hc | hc
    · rw [List.eq_of_mem_replicate hc]
      rfl
    · exact isDigit_of_mem_toDigits hc
  · rw [realTextValue, hplaces, List.take_append_drop, List.drop_one, List.tail_cons,
      signedValue_power, List.length_drop]
    congr 2
    omega

/-- The double has no integral value. -/
theorem ne_zero_of_toInt? {negative : Bool} {significand : ℕ} {exponent : ℤ}
    (h : (Binary64.finite negative significand exponent).toInt? = none) : significand ≠ 0 := by
  rintro rfl
  cases negative <;> simp [Binary64.toInt?, Binary64.toRat?] at h

/-- The text of a positive double is the text of a number with the value of its shortest digits. -/
theorem exists_isRealText_text (negative : Bool) {significand : ℕ} (exponent : ℤ)
    (hne : significand ≠ 0) :
    ∃ whole fraction power, IsRealText whole fraction power ∧
      (Binary64.finite negative significand exponent).text =
        signText negative ++ String.ofList (whole ++ fraction ++ power) ∧
      realTextValue whole fraction power = (shortest significand exponent).value := by
  have hvalue (point : ℤ) (hpoint : point = (shortest significand exponent).exponent +
      (Nat.toDigits 10 (shortest significand exponent).digits).length) :
      (decimalValue (Nat.toDigits 10 (shortest significand exponent).digits) : ℚ) * 10 ^ (point -
        (Nat.toDigits 10 (shortest significand exponent).digits).length) =
          (shortest significand exponent).value := by
    rw [hpoint, add_sub_cancel_right, decimalValue_toDigits, Decimal.value]
  have hdigit : ∀ c ∈ Nat.toDigits 10 (shortest significand exponent).digits, isDigit c :=
    fun c hc => isDigit_of_mem_toDigits hc
  simp only [Binary64.text, hne, if_false]
  split
  · obtain ⟨whole, fraction, power, hreal, htext, hval⟩ := exists_isRealText_positionalText
      Nat.toDigits_ne_nil hdigit ((shortest significand exponent).exponent +
        (Nat.toDigits 10 (shortest significand exponent).digits).length)
    exact ⟨whole, fraction, power, hreal, by rw [htext], hval.trans (hvalue _ rfl)⟩
  · obtain ⟨whole, fraction, power, hreal, htext, hval⟩ := exists_isRealText_scientificText
      Nat.toDigits_ne_nil hdigit ((shortest significand exponent).exponent +
        (Nat.toDigits 10 (shortest significand exponent).digits).length - 1)
    refine ⟨whole, fraction, power, hreal, by rw [htext], hval.trans (hvalue _ ?_)⟩
    omega

/-- A numeral whose text is read back as the numeral, wherever nothing continues it. -/
structure Numeral.IsCanonical (n : Numeral) : Prop where
  readNumeral {rest : List Char} (hrest : StopsNumeral rest) :
    readNumeral (n.text.toList ++ rest) = (n, rest)
  startsNumber (rest : List Char) : startsNumber (n.text.toList ++ rest) = true
  isControl : ∀ c ∈ n.text.toList, isControl c = false
  digits : ∀ count, n.integerDigits? = some count → count ≤ digitLimit

/-- A numeral that is read back is written in some characters. -/
theorem Numeral.IsCanonical.exists_cons {n : Numeral} (h : n.IsCanonical) :
    ∃ c text, n.text.toList = c :: text := by
  refine List.exists_cons_of_ne_nil fun hnil => ?_
  have hstart := h.startsNumber []
  rw [hnil] at hstart
  cases hstart

/-- An integer within the limit on digits is read back. -/
theorem Numeral.isCanonical_ofInt {n : ℤ} (h : n.natAbs < 10 ^ digitLimit) :
    (Numeral.ofInt n).IsCanonical where
  readNumeral hrest := readNumeral_toString n hrest
  startsNumber rest := startsNumber_toString n rest
  isControl c hc := by
    have htext : c ∈ (toString n).toList := hc
    rw [toList_toString, List.mem_append] at htext
    rcases htext with hc | hc
    · split at hc
      · rw [List.mem_singleton.mp hc]
        rfl
      · cases hc
    · exact isControl_of_isDigit (isDigit_of_mem_toDigits hc)
  digits _ hcount := Numeral.le_of_integerDigits?_ofInt h hcount

/-- The numeral of its parts is read back. -/
theorem IsNumeralText.isCanonical {sign whole fraction exponent : List Char}
    (h : IsNumeralText sign whole fraction exponent) {n : Numeral}
    (htext : n.text = String.ofList (sign ++ whole ++ fraction ++ exponent))
    (hvalue : n.value = numeralValue sign whole fraction exponent)
    (hdigits : ∀ count, n.integerDigits? = some count → count ≤ digitLimit) : n.IsCanonical where
  readNumeral hrest := by
    have hread := h.readNumeral (hrest.stopsBehind exponent)
    rw [← htext, ← hvalue] at hread
    rw [← hread, htext, String.toList_ofList]
    simp only [List.append_assoc]
  startsNumber rest := by
    have hstart := h.startsNumber (exponent ++ rest)
    rw [htext, String.toList_ofList]
    simpa only [List.append_assoc] using hstart
  isControl := by
    rw [htext, String.toList_ofList]
    exact h.isControl
  digits := hdigits

/-- A double that is no integer is read back from its text. -/
theorem Numeral.isCanonical_text {negative : Bool} {significand : ℕ} {exponent : ℤ}
    (h : IsFinitePair significand exponent) (hne : significand ≠ 0) :
    (Numeral.mk (Binary64.finite negative significand exponent).text
      (.real (.finite negative significand exponent))).IsCanonical := by
  obtain ⟨whole, fraction, power, hreal, htext, hvalue⟩ :=
    exists_isRealText_text negative exponent hne
  have hpos := Nat.pos_of_ne_zero hne
  have hround : Binary64.ofDecimal negative (decimalValue (whole ++ fraction.drop 1))
      (signedValue (power.drop 1) - (fraction.drop 1).length) =
        .finite negative significand exponent := by
    refine Binary64.ofDecimal_of_contains negative h hpos ?_
    have hcontains := contains_shortest h hpos
    rwa [← hvalue] at hcontains
  refine (hreal.isNumeralText negative).isCanonical ?_ ?_ nofun
  · show (Binary64.finite negative significand exponent).text = _
    rw [htext]
    simp [String.ofList_append]
  · rw [hreal.numeralValue_eq, hround]

/-- The exact value of a finite double. -/
theorem Number.Binary64.toRat?_finite (negative : Bool) (significand : ℕ) (exponent : ℤ) :
    (Binary64.finite negative significand exponent).toRat? =
      some ((if negative then -1 else 1) * ((significand : ℚ) * 2 ^ exponent)) := by
  have hmagnitude : mkRat ((significand * 2 ^ exponent.toNat : ℕ) : ℤ) (2 ^ (-exponent).toNat) =
      (significand : ℚ) * 2 ^ exponent := by
    rw [Rat.mkRat_eq_div, zpow_eq_div 2 exponent]
    push_cast
    rw [mul_div_assoc]
  rw [toRat?]
  cases negative
  · simpa using hmagnitude
  · simpa using hmagnitude

/-- A double without a fraction is the integer. -/
theorem Number.Binary64.toRat?_of_toInt? {x : Binary64} {n : ℤ} (h : x.toInt? = some n) :
    x.toRat? = some (n : ℚ) := by
  obtain ⟨q, hq, hn⟩ := Option.bind_eq_some_iff.mp h
  split at hn
  · rename_i hden
    cases hn
    rw [hq, Rat.coe_int_num_of_den_eq_one hden]
  · cases hn

section Writable

-- Powers of natural numbers are those of the core library, as where numbers are written.
attribute [local instance (2000)] instPowNat

/-- An integer that a double is lies within the doubles. -/
theorem Number.Binary64.natAbs_lt_of_toInt? {x : Binary64} {n : ℤ} (hx : x.IsDouble)
    (h : x.toInt? = some n) : n.natAbs < 2 ^ (1024 : ℕ) - 2 ^ (970 : ℕ) := by
  have hvalue := toRat?_of_toInt? h
  cases x with
  | infinite | nan => cases hvalue
  | finite negative significand exponent =>
      rw [toRat?_finite, Option.some.injEq] at hvalue
      have hx : IsFinitePair significand exponent := hx
      have habs : (n.natAbs : ℚ) = significand * 2 ^ exponent := by
        rw [Nat.cast_natAbs, Int.cast_abs, ← hvalue]
        cases negative
        · simp
        · simp
      have hlimit : 2 ^ (1024 : ℕ) = 2 ^ (54 : ℕ) * 2 ^ (970 : ℕ) := by
        decide +kernel
      have hcast (k : ℕ) : ((2 ^ k : ℕ) : ℚ) = 2 ^ k := by exact_mod_cast rfl
      have hmax : (2 : ℚ) ^ exponent ≤ 2 * ((2 ^ (970 : ℕ) : ℕ) : ℚ) := by
        have hpower : (2 : ℚ) ^ exponent ≤ 2 ^ (((970 : ℕ) : ℤ) + 1) :=
          zpow_le_zpow_right₀ (by norm_num) hx.le_max
        rw [zpow_add_one₀ two_ne_zero, zpow_natCast, mul_comm] at hpower
        exact hpower.trans_eq (congrArg (2 * ·) (hcast 970).symm)
      have hpos : 0 < 2 ^ (970 : ℕ) := by positivity
      rw [hlimit]
      generalize 2 ^ (970 : ℕ) = limit at hmax hpos ⊢
      have hbound : (n.natAbs : ℚ) ≤ ((2 ^ 53 - 1 : ℕ) : ℚ) * (2 * limit) := by
        rw [habs]
        have hle : significand ≤ 2 ^ 53 - 1 := Nat.le_pred_of_lt hx.lt
        gcongr
      have hbound : n.natAbs ≤ (2 ^ 53 - 1) * (2 * limit) := by exact_mod_cast hbound
      omega

namespace Number.Numeric

/-- The value is finite, and an integer among the doubles if it is one, so that it has a text from
which it can be read. -/
def IsWritable : Numeric → Prop
  | .integer n => n.natAbs < 2 ^ (1024 : ℕ) - 2 ^ (970 : ℕ)
  | .real x => x.toRat?.isSome

instance (a : Numeric) : Decidable a.IsWritable :=
  match a with
  | .integer n => inferInstanceAs (Decidable (n.natAbs < 2 ^ (1024 : ℕ) - 2 ^ (970 : ℕ)))
  | .real x => inferInstanceAs (Decidable (x.toRat?.isSome = true))

end Number.Numeric

/-- The numeral that a value is written as. -/
def Numeral.ofNumeric : Numeric → Numeral
  | .integer n => .ofInt n
  | .real x =>
    match x.toInt? with
    | some n => .ofInt n
    | none => ⟨x.text, .real x⟩

namespace Numeral

variable {a : Numeric}

/-- A writable value is written as its numeral. -/
theorem css_eq (h : a.IsWritable) : a.css = .ok (ofNumeric a).text := by
  cases a with
  | integer n =>
      have h : n.natAbs < 2 ^ (1024 : ℕ) - 2 ^ (970 : ℕ) := h
      rw [Numeric.css, if_pos h]
      rfl
  | real x =>
      simp only [Numeric.css, ofNumeric]
      cases x.toInt? <;> rfl

/-- The numeral has the exact value of what is written as it. -/
theorem toRat?_ofNumeric (a : Numeric) : (ofNumeric a).value.toRat? = a.toRat? := by
  cases a with
  | integer n => rfl
  | real x =>
      simp only [ofNumeric]
      cases h : x.toInt? with
      | none => rfl
      | some n => exact (Binary64.toRat?_of_toInt? h).symm

/-- The numeral of a value that was read and is writable is read back. -/
theorem isCanonical_ofNumeric (hread : a.IsRead) (h : a.IsWritable) :
    (ofNumeric a).IsCanonical := by
  have hlimit : 2 ^ (1024 : ℕ) - 2 ^ (970 : ℕ) < 10 ^ digitLimit := by decide +kernel
  cases a with
  | integer n => exact isCanonical_ofInt hread
  | real x =>
      simp only [ofNumeric]
      cases hint : x.toInt? with
      | some n =>
          have hn := Binary64.natAbs_lt_of_toInt? hread hint
          exact isCanonical_ofInt (Nat.lt_trans hn hlimit)
      | none =>
          cases x with
          | infinite | nan => cases h
          | finite negative significand exponent =>
              exact isCanonical_text hread (ne_zero_of_toInt? hint)

/-- What is read back is written as it was. -/
theorem css_value_ofNumeric (hread : a.IsRead) (h : a.IsWritable) :
    (ofNumeric a).value.css = .ok (ofNumeric a).text := by
  cases a with
  | integer n => exact css_eq h
  | real x =>
      simp only [ofNumeric]
      cases hint : x.toInt? with
      | some n =>
          have hn := Binary64.natAbs_lt_of_toInt? hread hint
          exact css_eq (a := .integer n) hn
      | none => simp only [Numeric.css, hint]

end Numeral

end Writable

/-- A unit that is written as it is and does not continue a numeral. -/
structure IsUnit (unit : String) : Prop where
  isName : IsName unit
  identifierText : identifierText unit = unit
  stops : ∀ rest, StopsNumeral (unit.toList ++ rest)

namespace Token

/-- A written number is read back in front of what is delimited. -/
theorem readsBefore_number {n : Numeral} (h : n.IsCanonical) {rest : List Char}
    (hrest : Delimited rest) : (written (.number n)).ReadsBefore rest := by
  have hstart := h.startsNumber rest
  have hread := h.readNumeral hrest.stopsNumeral
  obtain ⟨c, text, htext⟩ := h.exists_cons
  refine ⟨c, text, htext, scanned_iff.mp ?_⟩
  rw [htext] at hstart hread
  refine .number _ rest hstart hread ?_ (hrest.head?_ne (by decide))
  exact hrest.stopsName.startsName

/-- A written number with a percent sign is read back. -/
theorem readsBefore_percentage {n : Numeral} (h : n.IsCanonical) (rest : List Char) :
    (written (.percentage n)).ReadsBefore rest := by
  have hstart := h.startsNumber ('%' :: rest)
  have hrest : StopsNumeral ('%' :: rest) := ⟨rfl, rfl, by simp [readExponent]⟩
  have hread := h.readNumeral hrest
  obtain ⟨c, text, htext⟩ := h.exists_cons
  refine ⟨c, text ++ ['%'], ?_, scanned_iff.mp ?_⟩
  · show (n.text ++ "%").toList = _
    rw [String.toList_append, htext]
    rfl
  · rw [htext] at hstart hread
    rw [List.append_assoc]
    exact .percentage n rest hstart hread

/-- A written number with a unit is read back where the two are told apart. -/
theorem readsBefore_dimension_of_stops {n : Numeral} {unit : String} (hname : IsName unit)
    (htext : identifierText unit = unit) {rest : List Char} (hstops : StopsName rest)
    (hstart : startsNumber (n.text.toList ++ (unit.toList ++ rest)))
    (hread : readNumeral (n.text.toList ++ (unit.toList ++ rest)) = (n, unit.toList ++ rest)) :
    (written (.dimension n unit)).ReadsBefore rest := by
  have hunit : nameText unit.toList = unit.toList := by
    have hlist := congrArg String.toList htext
    rwa [identifierText, String.toList_ofList] at hlist
  have hunitstart := (startsName_nameText hname.ne_nil rest).1
  have hunitread := readName_nameText unit.toList rest
  rw [hunit] at hunitstart hunitread
  rw [hstops.readName, hname.nullFree.map_readBackChar, List.append_nil] at hunitread
  have hne := readNumeral_text_ne_nil hstart
  rw [hread] at hne
  cases hn : n.text.toList with
  | nil => exact absurd hn hne
  | cons c text =>
      refine ⟨c, text ++ unit.toList, ?_, scanned_iff.mp ?_⟩
      · show (n.text ++ unit).toList = _
        rw [String.toList_append, hn]
        rfl
      · rw [hn] at hstart hread
        rw [List.append_assoc]
        have hscanned := Scanned.dimension n _ _ rest hstart hread hunitstart hunitread
        rwa [String.ofList_toList] at hscanned

/-- A written number with a unit is read back in front of what is delimited. -/
theorem readsBefore_dimension {n : Numeral} (h : n.IsCanonical) {unit : String}
    (hunit : IsUnit unit) {rest : List Char} (hrest : Delimited rest) :
    (written (.dimension n unit)).ReadsBefore rest :=
  readsBefore_dimension_of_stops hunit.isName hunit.identifierText hrest.stopsName
    (h.startsNumber _) (h.readNumeral (hunit.stops rest))

/-- A written number is plain. -/
theorem isPlain_number {n : Numeral} (h : n.IsCanonical) : (written (.number n)).IsPlain where
  normal := normal_of_isControl h.isControl
  digits := h.digits

/-- A written number with a percent sign is plain. -/
theorem isPlain_percentage {n : Numeral} (h : n.IsCanonical) :
    (written (.percentage n)).IsPlain where
  normal := normal_of_isControl fun c hc => by
    have htext : c ∈ (n.text ++ "%").toList := hc
    rw [String.toList_append, List.mem_append] at htext
    rcases htext with hc | hc
    · exact h.isControl c hc
    · obtain rfl : c = '%' := by simpa using hc
      rfl
  digits := h.digits

/-- A written number with a unit is plain. -/
theorem isPlain_dimension {n : Numeral} (h : n.IsCanonical) {unit : String}
    (htext : identifierText unit = unit) : (written (.dimension n unit)).IsPlain where
  normal := normal_of_isControl fun c hc => by
    have hlist : c ∈ (n.text ++ unit).toList := hc
    rw [String.toList_append, List.mem_append] at hlist
    rcases hlist with hc | hc
    · exact h.isControl c hc
    · rw [← htext, identifierText, String.toList_ofList] at hc
      exact isControl_of_mem_nameText hc
  digits := h.digits

end Token

end Css
