import Css.Proofs.Token.Canonical
import Css.Proofs.Token.Digits

/-!
# The parts of numerals

A numeral has a sign, digits, a fraction and an exponent, of which some may be missing.
`IsNumeralText` says which texts these can be. The parts of every numeral that is read are such
texts, and such texts are read back as they are wherever nothing behind them continues the numeral.
-/

namespace Css

/-- A sign, or none. -/
def IsSign (text : List Char) : Prop := text = [] ∨ text = ['+'] ∨ text = ['-']

/-- The parts of the text of a numeral. -/
structure IsNumeralText (sign whole fraction exponent : List Char) : Prop where
  isSign : IsSign sign
  isDigit_whole : ∀ c ∈ whole, isDigit c
  fraction_cases : fraction = [] ∨
    ∃ places, fraction = '.' :: places ∧ places ≠ [] ∧ ∀ c ∈ places, isDigit c
  ne_nil : whole ≠ [] ∨ fraction ≠ []
  exponent_cases : exponent = [] ∨ ∃ mark sign power, exponent = mark :: (sign ++ power) ∧
    (mark = 'e' ∨ mark = 'E') ∧ IsSign sign ∧ power ≠ [] ∧ ∀ c ∈ power, isDigit c

/-- The text does not continue a numeral that ends with the exponent. If there is none, a fraction
or an exponent would continue it, and digits would in any case. -/
structure StopsBehind (exponent rest : List Char) : Prop where
  digit : startsDigit rest = false
  stops : exponent = [] → StopsNumeral rest

/-- What continues no numeral continues none with this exponent. -/
theorem StopsNumeral.stopsBehind {rest : List Char} (h : StopsNumeral rest) (exponent : List Char) :
    StopsBehind exponent rest :=
  ⟨h.digit, fun _ => h⟩

/-- Digits in front of what does not go on with a digit are read as digits. -/
theorem readDigits_append_of_isDigit {digits rest : List Char} (h : ∀ c ∈ digits, isDigit c)
    (hrest : startsDigit rest = false) : readDigits (digits ++ rest) = (digits, rest) := by
  rw [readDigits, List.takeWhile_append_of_pos h, List.dropWhile_append_of_pos h]
  cases rest with
  | nil => simp
  | cons c rest =>
      have hc : isDigit c = false := by simpa [startsDigit] using hrest
      simp [hc]

/-- What starts with one of some digits starts with a digit. -/
theorem startsDigit_append {digits : List Char} (hne : digits ≠ []) (h : ∀ c ∈ digits, isDigit c)
    (rest : List Char) : startsDigit (digits ++ rest) = true := by
  cases digits with
  | nil => exact absurd rfl hne
  | cons c digits => simpa [startsDigit] using h c (List.mem_cons_self ..)

/-- A text that starts with a digit, or with a point and a digit, starts with no sign. -/
theorem head?_of_startsUnsigned {s : List Char} (h : startsUnsigned s) :
    s.head?.any (fun c => c = '+' ∨ c = '-') = false := by
  cases s with
  | nil => rfl
  | cons c s =>
      have hc : ¬(c = '+' ∨ c = '-') := by
        rintro (rfl | rfl) <;> simp [startsUnsigned, isDigit] at h
      simpa using hc

/-- A text that starts with a digit starts an unsigned number. -/
theorem startsUnsigned_of_startsDigit {s : List Char} (h : startsDigit s) : startsUnsigned s := by
  cases s with
  | nil => cases h
  | cons c s =>
      have hc : isDigit c = true := by simpa [startsDigit] using h
      simp [startsUnsigned, hc]

namespace IsSign

variable {sign rest : List Char}

/-- The character of a sign. -/
theorem eq_of_mem (h : IsSign sign) {c : Char} (hc : c ∈ sign) : c = '+' ∨ c = '-' := by
  rcases h with rfl | rfl | rfl
  · cases hc
  · exact .inl (List.mem_singleton.mp hc)
  · exact .inr (List.mem_singleton.mp hc)

/-- A sign is read in front of what starts with none. -/
theorem readSign (h : IsSign sign)
    (hrest : rest.head?.any (fun c => c = '+' ∨ c = '-') = false) :
    readSign (sign ++ rest) = (sign, rest) := by
  rcases h with rfl | rfl | rfl
  · exact readSign_of_head hrest
  · rfl
  · rfl

/-- A sign in front of an unsigned number starts a number. -/
theorem startsNumber (h : IsSign sign) (hrest : startsUnsigned rest) :
    startsNumber (sign ++ rest) := by
  rcases h with rfl | rfl | rfl
  · have hhead := head?_of_startsUnsigned hrest
    cases rest with
    | nil => cases hrest
    | cons c rest =>
        have hc : ¬(c = '+' ∨ c = '-') := by simpa using hhead
        rwa [List.nil_append, Css.startsNumber, if_neg hc]
  · exact hrest
  · exact hrest

end IsSign

/-- A digit is no control character. -/
theorem isControl_of_isDigit {c : Char} (h : isDigit c) : isControl c = false :=
  Token.isControl_of_isNameChar (by simp [isNameChar, h])

/-- What is read as a sign is one. -/
theorem isSign_readSign (s : List Char) : IsSign (readSign s).1 := by
  cases s with
  | nil => exact .inl rfl
  | cons c s =>
      simp only [readSign]
      split
      · rename_i hc
        rcases hc with rfl | rfl
        · exact .inr (.inl rfl)
        · exact .inr (.inr rfl)
      · exact .inl rfl

/-- What is read as digits are some. -/
theorem isDigit_of_mem_readDigits {s : List Char} : ∀ c ∈ (readDigits s).1, isDigit c :=
  fun _ hc => List.mem_takeWhile_imp hc

/-- Digits are read where a digit stands. -/
theorem readDigits_ne_nil {s : List Char} (h : startsDigit s) : (readDigits s).1 ≠ [] := by
  cases s with
  | nil => cases h
  | cons c s =>
      have hc : isDigit c = true := by simpa [startsDigit] using h
      simp [readDigits, hc]

/-- What is read as a fraction is none, or a point with digits behind it. -/
theorem readFraction_cases (s : List Char) : (readFraction s).1 = [] ∨
    ∃ places, (readFraction s).1 = '.' :: places ∧ places ≠ [] ∧ ∀ c ∈ places, isDigit c := by
  unfold readFraction
  split
  · split
    · exact .inr ⟨_, rfl, readDigits_ne_nil ‹_›, isDigit_of_mem_readDigits⟩
    · exact .inl rfl
  · exact .inl rfl

/-- What is read as an exponent is none, or a mark with a sign and digits behind it. -/
theorem readExponent_cases (s : List Char) : (readExponent s).1 = [] ∨
    ∃ mark sign power, (readExponent s).1 = mark :: (sign ++ power) ∧ (mark = 'e' ∨ mark = 'E') ∧
      IsSign sign ∧ power ≠ [] ∧ ∀ c ∈ power, isDigit c := by
  cases s with
  | nil => exact .inl rfl
  | cons c s =>
      simp only [readExponent]
      split
      · rename_i hmark
        exact .inr ⟨c, _, _, rfl, hmark.1, isSign_readSign s, readDigits_ne_nil hmark.2,
          isDigit_of_mem_readDigits⟩
      · exact .inl rfl

namespace IsNumeralText

variable {sign whole fraction exponent rest : List Char}

/-- An exponent is read in front of what does not continue it. -/
theorem readExponent (h : IsNumeralText sign whole fraction exponent)
    (hrest : StopsBehind exponent rest) : readExponent (exponent ++ rest) = (exponent, rest) := by
  rcases h.exponent_cases with rfl | ⟨mark, sign, power, rfl, hmark, hsign, hne, hpower⟩
  · exact (hrest.stops rfl).exponent
  · have hstart := startsDigit_append hne hpower rest
    have hread := hsign.readSign (head?_of_startsUnsigned (startsUnsigned_of_startsDigit hstart))
    simp only [List.cons_append, List.append_assoc, Css.readExponent, hread, hstart, hmark,
      true_and, if_true, readDigits_append_of_isDigit hpower hrest.digit]

/-- An exponent does not continue digits or a fraction. -/
theorem stops_exponent (h : IsNumeralText sign whole fraction exponent)
    (hrest : StopsBehind exponent rest) : startsDigit (exponent ++ rest) = false ∧
      readFraction (exponent ++ rest) = ([], exponent ++ rest) := by
  rcases h.exponent_cases with rfl | ⟨mark, sign, power, rfl, hmark, -, -, -⟩
  · exact ⟨hrest.digit, (hrest.stops rfl).fraction⟩
  · rcases hmark with rfl | rfl
    · exact ⟨rfl, rfl⟩
    · exact ⟨rfl, rfl⟩

/-- A fraction is read in front of an exponent. -/
theorem readFraction (h : IsNumeralText sign whole fraction exponent)
    (hrest : StopsBehind exponent rest) :
    readFraction (fraction ++ (exponent ++ rest)) = (fraction, exponent ++ rest) := by
  obtain ⟨hdigit, hfraction⟩ := h.stops_exponent hrest
  rcases h.fraction_cases with rfl | ⟨places, rfl, hne, hplaces⟩
  · exact hfraction
  · simp only [List.cons_append, Css.readFraction, startsDigit_append hne hplaces, if_true,
      readDigits_append_of_isDigit hplaces hdigit]

/-- A fraction does not continue digits. -/
theorem startsDigit_fraction (h : IsNumeralText sign whole fraction exponent)
    (hrest : StopsBehind exponent rest) : startsDigit (fraction ++ (exponent ++ rest)) = false := by
  rcases h.fraction_cases with rfl | ⟨places, rfl, -, -⟩
  · exact (h.stops_exponent hrest).1
  · rfl

/-- Digits or a fraction start an unsigned number, whatever follows. -/
theorem startsUnsigned (h : IsNumeralText sign whole fraction exponent) (rest : List Char) :
    startsUnsigned (whole ++ (fraction ++ rest)) := by
  by_cases hwhole : whole = []
  · rcases h.fraction_cases with rfl | ⟨places, rfl, hne, hplaces⟩
    · exact absurd hwhole (h.ne_nil.resolve_right (by simp))
    · simp [hwhole, Css.startsUnsigned, startsDigit_append hne hplaces]
  · exact startsUnsigned_of_startsDigit (startsDigit_append hwhole h.isDigit_whole _)

/-- The text of a numeral starts a number, whatever follows. -/
theorem startsNumber (h : IsNumeralText sign whole fraction exponent) (rest : List Char) :
    startsNumber (sign ++ (whole ++ (fraction ++ rest))) :=
  h.isSign.startsNumber (h.startsUnsigned rest)

/-- The text of a numeral is read as its parts, in front of what does not continue it. -/
theorem readNumeral (h : IsNumeralText sign whole fraction exponent)
    (hrest : StopsBehind exponent rest) :
    readNumeral (sign ++ (whole ++ (fraction ++ (exponent ++ rest)))) =
      (⟨String.ofList (sign ++ whole ++ fraction ++ exponent),
        numeralValue sign whole fraction exponent⟩, rest) := by
  have hsign := h.isSign.readSign (head?_of_startsUnsigned (h.startsUnsigned (exponent ++ rest)))
  have hdigits := readDigits_append_of_isDigit h.isDigit_whole (h.startsDigit_fraction hrest)
  simp only [Css.readNumeral, hsign, hdigits, h.readFraction hrest, h.readExponent hrest]

/-- The text of a numeral has no control characters. -/
theorem isControl (h : IsNumeralText sign whole fraction exponent) :
    ∀ c ∈ sign ++ whole ++ fraction ++ exponent, isControl c = false := by
  have hsign {text : List Char} (htext : IsSign text) {c : Char} (hc : c ∈ text) :
      Css.isControl c = false := by
    rcases htext.eq_of_mem hc with rfl | rfl <;> rfl
  intro c hc
  simp only [List.mem_append] at hc
  rcases hc with ((hc | hc) | hc) | hc
  · exact hsign h.isSign hc
  · exact isControl_of_isDigit (h.isDigit_whole c hc)
  · rcases h.fraction_cases with rfl | ⟨places, rfl, -, hplaces⟩
    · cases hc
    · rcases List.mem_cons.mp hc with rfl | hc
      · rfl
      · exact isControl_of_isDigit (hplaces c hc)
  · rcases h.exponent_cases with rfl | ⟨mark, sign, power, rfl, hmark, hsigned, -, hpower⟩
    · cases hc
    · simp only [List.mem_cons, List.mem_append] at hc
      rcases hc with rfl | hc | hc
      · rcases hmark with rfl | rfl <;> rfl
      · exact hsign hsigned hc
      · exact isControl_of_isDigit (hpower c hc)

/-- A numeral has an exponent if and only if its text has a mark of one. -/
theorem exponent_eq_nil_iff (h : IsNumeralText sign whole fraction exponent) :
    exponent = [] ↔ ∀ c ∈ sign ++ whole ++ fraction ++ exponent, ¬(c = 'e' ∨ c = 'E') := by
  have hdigit {c : Char} (hc : isDigit c) : ¬(c = 'e' ∨ c = 'E') := by
    rintro (rfl | rfl) <;> cases hc
  constructor
  · rintro rfl c hc
    simp only [List.append_nil, List.mem_append] at hc
    rcases hc with (hc | hc) | hc
    · rcases h.isSign.eq_of_mem hc with rfl | rfl <;> decide
    · exact hdigit (h.isDigit_whole c hc)
    · rcases h.fraction_cases with rfl | ⟨places, rfl, -, hplaces⟩
      · cases hc
      · rcases List.mem_cons.mp hc with rfl | hc
        · decide
        · exact hdigit (hplaces c hc)
  · intro hnone
    rcases h.exponent_cases with rfl | ⟨mark, sign, power, rfl, hmark, -⟩
    · rfl
    · exact absurd hmark (hnone mark (by simp))

end IsNumeralText

/-- The parts of a numeral that is read where a number starts. -/
theorem exists_isNumeralText {s : List Char} (h : startsNumber s) :
    ∃ sign whole fraction exponent, IsNumeralText sign whole fraction exponent ∧
      (readNumeral s).1 = ⟨String.ofList (sign ++ whole ++ fraction ++ exponent),
        numeralValue sign whole fraction exponent⟩ := by
  rw [startsNumber_iff] at h
  exact ⟨_, _, _, _, ⟨isSign_readSign s, isDigit_of_mem_readDigits, readFraction_cases _, h,
    readExponent_cases _⟩, rfl⟩

end Css
