import Css.Proofs.Token.Numeral

/-!
# The longest numeral

The syntax of numerals is a regular expression, `numeralPattern`. Where a number starts, the reader
takes the longest piece of the text that matches it, `readNumeral_longest`: its parts are those of a
match, `mem_numeralPattern_iff`, and any match in front of a text is read along, with what continues
it, `isPrefix_readNumeral`.
-/

namespace Css

namespace Pattern

/-- Matches one of the characters. -/
def oneOf : List Char → RegularExpression Char
  | [] => 0
  | c :: rest => .char c + oneOf rest

/-- Matches what the pattern matches, or nothing. -/
def optional (pattern : RegularExpression Char) : RegularExpression Char := 1 + pattern

/-- Matches what the pattern matches, once or more often. -/
def repeated (pattern : RegularExpression Char) : RegularExpression Char := pattern * pattern.star

/-- The texts of one of the characters. -/
theorem mem_oneOf {characters text : List Char} :
    text ∈ (oneOf characters).matches' ↔ ∃ c ∈ characters, text = [c] := by
  induction characters with
  | nil => simp [oneOf, Language.notMem_zero]
  | cons c rest ih =>
      rw [oneOf, RegularExpression.matches'_add, Language.mem_add, ih]
      simp only [List.mem_cons, exists_eq_or_imp]
      rfl

/-- The texts of an optional pattern. -/
theorem mem_optional {pattern : RegularExpression Char} {text : List Char} :
    text ∈ (optional pattern).matches' ↔ text = [] ∨ text ∈ pattern.matches' := by
  rw [optional, RegularExpression.matches'_add, RegularExpression.matches'_epsilon,
    Language.mem_add, Language.mem_one]

/-- The texts of two patterns in a row. -/
theorem mem_mul {p q : RegularExpression Char} {text : List Char} :
    text ∈ (p * q).matches' ↔ ∃ a ∈ p.matches', ∃ b ∈ q.matches', text = a ++ b := by
  rw [RegularExpression.matches'_mul, Language.mem_mul]
  simp only [eq_comm]

/-- The texts of repeated characters are those that consist of such characters. -/
theorem mem_star_oneOf {characters text : List Char} :
    text ∈ (oneOf characters).star.matches' ↔ ∀ c ∈ text, c ∈ characters := by
  rw [RegularExpression.matches'_star, Language.mem_kstar]
  constructor
  · rintro ⟨parts, rfl, hparts⟩ c hc
    obtain ⟨part, hpart, hc⟩ := List.mem_flatten.mp hc
    obtain ⟨d, hd, rfl⟩ := mem_oneOf.mp (hparts part hpart)
    rwa [List.mem_singleton.mp hc]
  · intro h
    refine ⟨text.map fun c => [c], by rw [← List.flatMap_def, List.flatMap_singleton'], ?_⟩
    intro part hpart
    obtain ⟨c, hc, rfl⟩ := List.mem_map.mp hpart
    exact mem_oneOf.mpr ⟨c, h c hc, rfl⟩

/-- The texts of repeated characters, at least one. -/
theorem mem_repeated_oneOf {characters text : List Char} :
    text ∈ (repeated (oneOf characters)).matches' ↔ text ≠ [] ∧ ∀ c ∈ text, c ∈ characters := by
  rw [repeated, mem_mul]
  constructor
  · rintro ⟨a, ha, b, hb, rfl⟩
    obtain ⟨c, hc, rfl⟩ := mem_oneOf.mp ha
    refine ⟨by simp, ?_⟩
    rw [List.singleton_append, List.forall_mem_cons]
    exact ⟨hc, mem_star_oneOf.mp hb⟩
  · rintro ⟨hne, h⟩
    obtain ⟨c, rest, rfl⟩ := List.exists_cons_of_ne_nil hne
    rw [List.forall_mem_cons] at h
    exact ⟨[c], mem_oneOf.mpr ⟨c, h.1, rfl⟩, rest, mem_star_oneOf.mpr h.2, rfl⟩

end Pattern

open Pattern

/-- An optional sign. -/
def signPattern : RegularExpression Char := optional (oneOf ['+', '-'])

/-- Decimal digits, at least one. -/
def digitsPattern : RegularExpression Char :=
  repeated (oneOf ['0', '1', '2', '3', '4', '5', '6', '7', '8', '9'])

/-- A point with digits behind it. -/
def fractionPattern : RegularExpression Char := .char '.' * digitsPattern

/-- A mark of an exponent with digits behind it, which may have a sign. -/
def exponentPattern : RegularExpression Char := oneOf ['e', 'E'] * signPattern * digitsPattern

/-- The syntax of numerals: an optional sign, digits with an optional fraction or a fraction alone,
and an optional exponent. -/
def numeralPattern : RegularExpression Char :=
  signPattern * (digitsPattern * optional fractionPattern + fractionPattern) *
    optional exponentPattern

/-- The decimal digits. -/
theorem isDigit_iff_mem {c : Char} :
    isDigit c ↔ c ∈ ['0', '1', '2', '3', '4', '5', '6', '7', '8', '9'] := by
  constructor
  · intro h
    have hrange : 48 ≤ c.toNat ∧ c.toNat ≤ 57 := by
      simpa [isDigit, Char.isDigit, UInt32.le_iff_toNat_le] using h
    obtain ⟨hlow, hhigh⟩ := hrange
    rw [← Char.ofNat_toNat c]
    interval_cases c.toNat <;> decide
  · intro h
    fin_cases h <;> rfl

/-- What matches the pattern of signs is a sign. -/
theorem mem_signPattern {text : List Char} : text ∈ signPattern.matches' ↔ IsSign text := by
  rw [signPattern, mem_optional, mem_oneOf, IsSign]
  simp

/-- What matches the pattern of digits is digits. -/
theorem mem_digitsPattern {text : List Char} :
    text ∈ digitsPattern.matches' ↔ text ≠ [] ∧ ∀ c ∈ text, isDigit c := by
  simp only [digitsPattern, mem_repeated_oneOf, isDigit_iff_mem]

/-- What matches the pattern of fractions is a point with digits behind it. -/
theorem mem_fractionPattern {text : List Char} : text ∈ fractionPattern.matches' ↔
    ∃ places, text = '.' :: places ∧ places ≠ [] ∧ ∀ c ∈ places, isDigit c := by
  rw [fractionPattern, mem_mul]
  constructor
  · rintro ⟨_, rfl, places, hplaces, rfl⟩
    exact ⟨places, rfl, mem_digitsPattern.mp hplaces⟩
  · rintro ⟨places, rfl, hplaces⟩
    exact ⟨['.'], rfl, places, mem_digitsPattern.mpr hplaces, rfl⟩

/-- What matches the pattern of exponents is a mark with a sign and digits behind it. -/
theorem mem_exponentPattern {text : List Char} : text ∈ exponentPattern.matches' ↔
    ∃ mark sign power, text = mark :: (sign ++ power) ∧ (mark = 'e' ∨ mark = 'E') ∧ IsSign sign ∧
      power ≠ [] ∧ ∀ c ∈ power, isDigit c := by
  rw [exponentPattern, mem_mul]
  constructor
  · rintro ⟨_, hfront, power, hpower, rfl⟩
    obtain ⟨_, hfirst, sign, hsign, rfl⟩ := mem_mul.mp hfront
    obtain ⟨mark, hmark, rfl⟩ := mem_oneOf.mp hfirst
    rw [List.mem_pair] at hmark
    exact ⟨mark, sign, power, rfl, hmark, mem_signPattern.mp hsign, mem_digitsPattern.mp hpower⟩
  · rintro ⟨mark, sign, power, rfl, hmark, hsign, hpower⟩
    have hfront : mark :: sign ∈ (oneOf ['e', 'E'] * signPattern).matches' :=
      mem_mul.mpr ⟨[mark], mem_oneOf.mpr ⟨mark, List.mem_pair.mpr hmark, rfl⟩, sign,
        mem_signPattern.mpr hsign, rfl⟩
    exact ⟨mark :: sign, hfront, power, mem_digitsPattern.mpr hpower, rfl⟩

/-- What matches the pattern of numerals has the parts of one. -/
theorem mem_numeralPattern_iff {text : List Char} : text ∈ numeralPattern.matches' ↔
    ∃ sign whole fraction exponent, IsNumeralText sign whole fraction exponent ∧
      text = sign ++ (whole ++ (fraction ++ exponent)) := by
  rw [numeralPattern, mem_mul]
  constructor
  · rintro ⟨_, hfront, exponent, hexponent, rfl⟩
    obtain ⟨sign, hsign, middle, hmiddle, rfl⟩ := mem_mul.mp hfront
    have hexponent := (mem_optional.mp hexponent).imp_right mem_exponentPattern.mp
    rw [RegularExpression.matches'_add, Language.mem_add] at hmiddle
    rcases hmiddle with hmiddle | hmiddle
    · obtain ⟨whole, hwhole, fraction, hfraction, rfl⟩ := mem_mul.mp hmiddle
      obtain ⟨hne, hdigits⟩ := mem_digitsPattern.mp hwhole
      have hfraction := (mem_optional.mp hfraction).imp_right mem_fractionPattern.mp
      exact ⟨sign, whole, fraction, exponent, ⟨mem_signPattern.mp hsign, hdigits, hfraction,
        .inl hne, hexponent⟩, by simp⟩
    · have hfraction := mem_fractionPattern.mp hmiddle
      have hne : middle ≠ [] := by
        obtain ⟨places, rfl, -⟩ := hfraction
        exact List.cons_ne_nil _ _
      exact ⟨sign, [], middle, exponent, ⟨mem_signPattern.mp hsign, nofun, .inr hfraction,
        .inr hne, hexponent⟩, by simp⟩
  · rintro ⟨sign, whole, fraction, exponent, h, rfl⟩
    have hexponent : exponent ∈ (optional exponentPattern).matches' :=
      mem_optional.mpr (h.exponent_cases.imp_right mem_exponentPattern.mpr)
    have hmiddle : whole ++ fraction ∈
        (digitsPattern * optional fractionPattern + fractionPattern).matches' := by
      rw [RegularExpression.matches'_add, Language.mem_add]
      by_cases hwhole : whole = []
      · rw [hwhole, List.nil_append]
        have hne := h.ne_nil.resolve_left (not_not_intro hwhole)
        exact .inr (mem_fractionPattern.mpr (h.fraction_cases.resolve_left hne))
      · exact .inl (mem_mul.mpr ⟨whole, mem_digitsPattern.mpr ⟨hwhole, h.isDigit_whole⟩, fraction,
          mem_optional.mpr (h.fraction_cases.imp_right mem_fractionPattern.mpr), rfl⟩)
    exact ⟨sign ++ (whole ++ fraction), mem_mul.mpr ⟨sign, mem_signPattern.mpr h.isSign, _, hmiddle,
      rfl⟩, exponent, hexponent, by simp⟩

/-- Digits are read along with those behind them. -/
theorem readDigits_append_digits {digits : List Char} (h : ∀ c ∈ digits, isDigit c)
    (rest : List Char) :
    readDigits (digits ++ rest) = (digits ++ (readDigits rest).1, (readDigits rest).2) := by
  rw [readDigits, List.takeWhile_append_of_pos h, List.dropWhile_append_of_pos h, readDigits]

namespace IsNumeralText

variable {sign whole fraction exponent : List Char}

/-- The sign of a numeral is read. -/
theorem readSign (h : IsNumeralText sign whole fraction exponent) (rest : List Char) :
    Css.readSign (sign ++ (whole ++ (fraction ++ rest))) = (sign, whole ++ (fraction ++ rest)) :=
  h.isSign.readSign (head?_of_startsUnsigned (h.startsUnsigned rest))

/-- A numeral in front of a text is read, with what continues it. -/
theorem isPrefix_readNumeral (h : IsNumeralText sign whole fraction exponent) (rest : List Char) :
    sign ++ (whole ++ (fraction ++ exponent)) <+:
      (Css.readNumeral (sign ++ (whole ++ (fraction ++ (exponent ++ rest))))).1.text.toList := by
  rcases h.exponent_cases with rfl | ⟨mark, powerSign, power, rfl, hmark, hpowerSign, hne, hpower⟩
  · rw [List.append_nil, List.nil_append]
    rcases h.fraction_cases with rfl | ⟨places, rfl, hne, hplaces⟩
    · have hsign : Css.readSign (sign ++ (whole ++ rest)) = (sign, whole ++ rest) := h.readSign rest
      simp only [Css.readNumeral, List.nil_append, List.append_nil, hsign,
        readDigits_append_digits h.isDigit_whole, String.toList_ofList, List.append_assoc,
        List.prefix_append_right_inj]
      exact List.prefix_append whole _
    · -- the point stops the digits, and the digits behind it are read along
      have hsign : Css.readSign (sign ++ (whole ++ '.' :: (places ++ rest))) =
          (sign, whole ++ '.' :: (places ++ rest)) := h.readSign rest
      have hwhole : readDigits (whole ++ '.' :: (places ++ rest)) =
          (whole, '.' :: (places ++ rest)) := readDigits_append_of_isDigit h.isDigit_whole rfl
      have hfraction : Css.readFraction ('.' :: (places ++ rest)) =
          ('.' :: (places ++ (readDigits rest).1), (readDigits rest).2) := by
        rw [Css.readFraction, if_pos (startsDigit_append hne hplaces rest),
          readDigits_append_digits hplaces]
      simp only [Css.readNumeral, List.cons_append, hsign, hwhole, hfraction, String.toList_ofList,
        List.append_assoc, List.prefix_append_right_inj, List.cons_prefix_cons, true_and]
      exact List.prefix_append places _
  · -- the digits that follow belong to the exponent, behind which nothing continues a numeral
    have hmore : IsNumeralText sign whole fraction
        (mark :: (powerSign ++ (power ++ (readDigits rest).1))) :=
      { h with
        exponent_cases := .inr ⟨mark, powerSign, _, rfl, hmark, hpowerSign, by simp [hne],
          List.forall_mem_append.mpr ⟨hpower, isDigit_of_mem_readDigits⟩⟩ }
    have hdigits : readDigits ((readDigits rest).1 ++ (readDigits rest).2) =
        ((readDigits rest).1, (readDigits rest).2) := by
      rw [readDigits_append]
    have hread := hmore.readNumeral
      ⟨(eq_of_readDigits hdigits).2.2, fun hnil => absurd hnil (List.cons_ne_nil _ _)⟩
    have hrest : mark :: (powerSign ++ power) ++ rest =
        mark :: (powerSign ++ (power ++ (readDigits rest).1)) ++ (readDigits rest).2 := by
      simp only [List.cons_append, List.append_assoc, readDigits_append]
    rw [hrest, hread, String.toList_ofList]
    exact ⟨(readDigits rest).1, by simp⟩

/-- A numeral has a fraction if and only if its text has a point. -/
theorem fraction_eq_nil_iff (h : IsNumeralText sign whole fraction exponent) :
    fraction = [] ↔ ∀ c ∈ sign ++ whole ++ fraction ++ exponent, c ≠ '.' := by
  have hdigits {text : List Char} (htext : ∀ c ∈ text, isDigit c) : ∀ c ∈ text, c ≠ '.' := by
    rintro c hc rfl
    cases htext _ hc
  have hsign {text : List Char} (htext : IsSign text) : ∀ c ∈ text, c ≠ '.' := by
    rintro c hc rfl
    rcases htext.eq_of_mem hc with heq | heq <;> cases heq
  constructor
  · rintro rfl c hc
    simp only [List.append_nil, List.mem_append] at hc
    rcases hc with (hc | hc) | hc
    · exact hsign h.isSign c hc
    · exact hdigits h.isDigit_whole c hc
    · rcases h.exponent_cases with rfl | ⟨mark, sign, power, rfl, hmark, hpowerSign, -, hpower⟩
      · cases hc
      · rcases List.mem_cons.mp hc with rfl | hc
        · rcases hmark with rfl | rfl <;> decide
        · exact List.forall_mem_append.mpr ⟨hsign hpowerSign, hdigits hpower⟩ c hc
  · intro hnone
    rcases h.fraction_cases with rfl | ⟨places, rfl, -⟩
    · rfl
    · exact absurd rfl (hnone '.' (by simp))

end IsNumeralText

/-- A numeral denotes an integer if and only if it has neither a fraction nor an exponent. -/
theorem isInteger_numeralValue (sign whole fraction exponent : List Char) :
    (numeralValue sign whole fraction exponent).isInteger ↔ fraction = [] ∧ exponent = [] := by
  rw [numeralValue]
  split
  · exact iff_of_true rfl ‹_›
  · exact iff_of_false Bool.false_ne_true ‹_›

/-- The number of digits among a sign and digits. -/
theorem length_filter_isDigit {sign digits : List Char} (hsign : IsSign sign)
    (hdigits : ∀ c ∈ digits, isDigit c) :
    ((sign ++ digits).filter isDigit).length = digits.length := by
  rw [List.filter_append, List.filter_eq_self.mpr hdigits]
  rcases hsign with rfl | rfl | rfl <;> rfl

/-- The number that decimal digits denote by their places. -/
def placeValue (digits : List Char) : ℕ :=
  Nat.ofDigits 10 (digits.reverse.map fun c => c.toNat - '0'.toNat)

/-- Digits are read as the number that they denote by their places. -/
theorem decimalValue_eq_placeValue (digits : List Char) :
    decimalValue digits = placeValue digits := by
  induction digits using List.reverseRecOn with
  | nil => rfl
  | append_singleton digits c ih =>
      rw [decimalValue, List.foldl_append, ← decimalValue, ih, placeValue, placeValue,
        List.reverse_append, List.reverse_singleton, List.singleton_append, List.map_cons,
        Nat.ofDigits_cons, add_comm]
      rfl

/-- A sign and digits denote the number of the digits, or its negative. -/
theorem signedValue_append {sign digits : List Char} (hsign : IsSign sign)
    (hdigits : ∀ c ∈ digits, isDigit c) :
    signedValue (sign ++ digits) = (if sign = ['-'] then -1 else 1) * placeValue digits := by
  rw [← decimalValue_eq_placeValue]
  rcases hsign with rfl | rfl | rfl
  · simp [signedValue_of_isDigit hdigits]
  · simp [signedValue]
  · simp [signedValue]

/-- The text is the longest one that the other text starts with and that matches the pattern. -/
structure IsLongestMatch (pattern : RegularExpression Char) (s text : List Char) : Prop where
  starts : text <+: s
  mem : text ∈ pattern.matches'
  length_le : ∀ other, other <+: s → other ∈ pattern.matches' → other.length ≤ text.length

/-- Where a number starts, the longest match of the pattern is read. -/
theorem isLongestMatch_readNumeral {s : List Char} (h : startsNumber s) :
    IsLongestMatch numeralPattern s (readNumeral s).1.text.toList where
  starts := ⟨_, readNumeral_append s⟩
  mem := by
    obtain ⟨sign, whole, fraction, exponent, hparts, hread⟩ := exists_isNumeralText h
    refine mem_numeralPattern_iff.mpr ⟨sign, whole, fraction, exponent, hparts, ?_⟩
    rw [hread, String.toList_ofList]
    simp only [List.append_assoc]
  length_le := by
    rintro other ⟨rest, rfl⟩ hother
    obtain ⟨sign, whole, fraction, exponent, hparts, rfl⟩ := mem_numeralPattern_iff.mp hother
    have hprefix := hparts.isPrefix_readNumeral rest
    simp only [List.append_assoc]
    exact hprefix.length_le

/-- Where a number starts, the longest piece of the text that matches the pattern of numerals is
read. It is an integer if and only if the piece has neither a point nor a mark of an exponent. An
integer of no more digits than may be read is not refused, and is the one that its sign and its
digits denote. -/
theorem readNumeral_longest {s : List Char} (h : startsNumber s) :
    (readNumeral s).1.text.toList ++ (readNumeral s).2 = s ∧
      IsLongestMatch numeralPattern s (readNumeral s).1.text.toList ∧
      ((readNumeral s).1.value.isInteger ↔
        ∀ c ∈ (readNumeral s).1.text.toList, c ≠ '.' ∧ c ≠ 'e' ∧ c ≠ 'E') ∧
      ∀ count, (readNumeral s).1.integerDigits? = some count → count ≤ digitLimit →
        (readNumeral s).1.excessDigits? = none ∧ ∃ sign digits, IsSign sign ∧
          digits.length = count ∧ (∀ c ∈ digits, isDigit c) ∧
          (readNumeral s).1.text.toList = sign ++ digits ∧
          (readNumeral s).1.value =
            .integer ((if sign = ['-'] then -1 else 1) * placeValue digits) := by
  refine ⟨readNumeral_append s, isLongestMatch_readNumeral h, ?_,
    fun count hcount hlimit => ⟨?_, ?_⟩⟩
  · obtain ⟨sign, whole, fraction, exponent, hparts, hread⟩ := exists_isNumeralText h
    rw [hread, isInteger_numeralValue, String.toList_ofList, hparts.fraction_eq_nil_iff,
      hparts.exponent_eq_nil_iff]
    simp only [not_or, forall_and]
  · rw [Option.eq_none_iff_forall_ne_some]
    intro excess hexcess
    obtain ⟨hdigits, hless⟩ := Numeral.excessDigits?_eq_some_iff.mp hexcess
    obtain rfl : count = excess := Option.some.inj (hcount.symm.trans hdigits)
    omega
  · obtain ⟨sign, whole, fraction, exponent, hparts, hread⟩ := exists_isNumeralText h
    rw [Numeral.integerDigits?, hread] at hcount
    split at hcount
    · rename_i hinteger
      obtain ⟨rfl, rfl⟩ := (isInteger_numeralValue ..).mp hinteger
      simp only [String.toList_ofList, List.append_nil, Option.some.injEq,
        length_filter_isDigit hparts.isSign hparts.isDigit_whole] at hcount
      refine ⟨sign, whole, hparts.isSign, hcount, hparts.isDigit_whole, ?_, ?_⟩
      · rw [hread, String.toList_ofList, List.append_nil, List.append_nil]
      · rw [hread, ← signedValue_append hparts.isSign hparts.isDigit_whole]
        rfl
    · cases hcount

/-- A unit that starts like an exponent stops the digits in front of it. -/
theorem readNumeral_longest_unit :
    startsNumber "-07em".toList ∧
      readNumeral "-07em".toList = (⟨"-07", .integer (-7)⟩, "em".toList) ∧
      IsLongestMatch numeralPattern "-07em".toList "-07".toList ∧
      ∃ sign digits, IsSign sign ∧ digits.length = 2 ∧ (∀ c ∈ digits, isDigit c) ∧
        "-07".toList = sign ++ digits ∧
        Number.Numeric.integer (-7) =
          .integer ((if sign = ['-'] then -1 else 1) * placeValue digits) := by
  have hstart : startsNumber "-07em".toList := by decide
  have hread : readNumeral "-07em".toList = (⟨"-07", .integer (-7)⟩, "em".toList) := by cbv
  obtain ⟨-, hlongest, -, hinteger⟩ := readNumeral_longest hstart
  rw [hread] at hlongest hinteger
  exact ⟨hstart, hread, hlongest, (hinteger 2 (by cbv) (by decide)).2⟩

end Css
