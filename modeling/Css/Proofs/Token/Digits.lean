import Css.Proofs.Token.Readers

/-!
# Numerals in front of another text

The readers of signs, digits, fractions and exponents look at most three characters further than
they read. A numeral that is read in front of a text is read in front of what follows in its place,
and a text that starts with a name starts with no numeral.
-/

namespace Css

variable {rest other : List Char}

/-- A text that starts with no sign has none. -/
theorem readSign_of_head {s : List Char} (h : s.head?.any (fun c => c = '+' ∨ c = '-') = false) :
    readSign s = ([], s) := by
  cases s with
  | nil => rfl
  | cons c s =>
      have hc : ¬(c = '+' ∨ c = '-') := by simpa using h
      simp [readSign, hc]

/-- A sign is read in front of another text. -/
theorem readSign_of_follows (h : Follows rest other) {text sign : List Char}
    (hread : readSign (text ++ rest) = (sign, rest)) :
    readSign (text ++ other) = (sign, other) := by
  cases text with
  | nil =>
      have hrest : rest.head?.any (fun c => c = '+' ∨ c = '-') = false := by
        cases rest with
        | nil => rfl
        | cons c rest =>
            simp only [List.nil_append, readSign] at hread
            split at hread
            · exact absurd (congrArg List.length (Prod.mk.inj hread).2) (by simp)
            · rename_i hc
              simpa using hc
      have hsign := readSign_of_head hrest
      rw [List.nil_append, hsign] at hread
      rw [List.nil_append, readSign_of_head (h.head?_any (by decide) hrest), (Prod.mk.inj hread).1]
  | cons c text =>
      simp only [List.cons_append, readSign] at hread ⊢
      split at hread
      · rename_i hc
        obtain ⟨rfl, htext⟩ := Prod.mk.inj hread
        rw [if_pos hc, List.append_left_eq_self.mp htext]
        rfl
      · rw [← List.cons_append] at hread
        cases List.append_left_eq_self.mp (Prod.mk.inj hread).2

/-- Digits in front of `rest` are all of the text in front of it, and `rest` starts with none. -/
theorem eq_of_readDigits {text digits : List Char}
    (h : readDigits (text ++ rest) = (digits, rest)) :
    digits = text ∧ (∀ c ∈ text, isDigit c) ∧ startsDigit rest = false := by
  have happend := readDigits_append (text ++ rest)
  rw [h] at happend
  obtain rfl : digits = text := List.append_cancel_right happend
  obtain ⟨htake, hdrop⟩ := Prod.mk.inj h
  refine ⟨rfl, fun c hc => ?_, ?_⟩
  · rw [← htake] at hc
    exact List.mem_takeWhile_imp hc
  · have hhead := List.head?_dropWhile_not isDigit (digits ++ rest)
    rw [hdrop] at hhead
    cases rest with
    | nil => rfl
    | cons c rest => simpa [startsDigit] using hhead

/-- Digits are read in front of another text. -/
theorem readDigits_of_follows (h : Follows rest other) {text digits : List Char}
    (hread : readDigits (text ++ rest) = (digits, rest)) :
    readDigits (text ++ other) = (digits, other) := by
  obtain ⟨rfl, hdigits, hrest⟩ := eq_of_readDigits hread
  have hother := h.startsDigit hrest
  rw [readDigits, List.takeWhile_append_of_pos hdigits, List.dropWhile_append_of_pos hdigits]
  cases other with
  | nil => simp
  | cons c other =>
      have hc : isDigit c = false := by simpa [startsDigit] using hother
      simp [hc]

/-- A text that starts with the digits that are read of it does so whatever follows. -/
theorem startsDigit_of_readDigits {digits : List Char}
    (hread : readDigits (digits ++ rest) = (digits, rest)) (h : startsDigit (digits ++ rest))
    (other : List Char) : startsDigit (digits ++ other) := by
  cases digits with
  | nil =>
      have hnone : readDigits ([] ++ rest) = ([], rest) := hread
      rw [List.nil_append, (eq_of_readDigits hnone).2.2] at h
      cases h
  | cons d digits => exact h

/-- Digits do not end with a backslash. -/
theorem breaksOff_of_isDigit {digits : List Char} (h : ∀ c ∈ digits, isDigit c) :
    breaksOff digits = false :=
  breaksOff_of_not_mem fun hmem => absurd (h _ hmem) (by decide)

/-- A text has no fraction if no digit follows a point at its beginning. -/
theorem readFraction_eq_nil_iff {s : List Char} :
    readFraction s = ([], s) ↔ s.head? = some '.' → startsUnsigned s = false := by
  unfold readFraction
  split
  · rename_i rest
    have hpoint : isDigit '.' = false := rfl
    by_cases hdigit : startsDigit rest
    · simp [hdigit, startsUnsigned]
    · simp [hdigit, startsUnsigned, hpoint]
  · rename_i hother
    refine iff_of_true rfl fun hhead => ?_
    obtain ⟨tail, htail⟩ := List.head?_eq_some_iff.mp hhead
    exact absurd htail (hother tail)

/-- A fraction is read in front of another text. -/
theorem readFraction_of_follows (h : Follows rest other) {text fraction : List Char}
    (hread : readFraction (text ++ rest) = (fraction, rest)) :
    readFraction (text ++ other) = (fraction, other) := by
  have happend := readFraction_append (text ++ rest)
  rw [hread] at happend
  obtain rfl : fraction = text := List.append_cancel_right happend
  cases fraction with
  | nil =>
      rw [List.nil_append, readFraction_eq_nil_iff] at hread ⊢
      intro hhead
      by_cases hrest : rest.head? = some '.'
      · exact h.startsUnsigned (hread hrest)
      · exact absurd hhead (h.head?_ne (by decide) hrest)
  | cons c digits =>
      obtain rfl : c = '.' := by
        unfold readFraction at hread
        split at hread
        · rename_i heq
          exact (List.cons.inj heq).1
        · cases (Prod.mk.inj hread).1
      simp only [List.cons_append, readFraction] at hread ⊢
      split at hread
      · have hdigits : readDigits (digits ++ rest) = (digits, rest) := by
          obtain ⟨htext, htail⟩ := Prod.mk.inj hread
          exact Prod.ext (List.cons.inj htext).2 htail
        rw [if_pos (startsDigit_of_readDigits hdigits ‹_› other), readDigits_of_follows h hdigits]
      · cases (Prod.mk.inj hread).1

/-- What is no exponent is replaced by none. -/
theorem readExponent_eq_nil_of_follows (h : Follows rest other)
    (hread : readExponent rest = ([], rest)) : readExponent other = ([], other) := by
  have hhead {c : Char} (hc : ¬(c = 'e' ∨ c = 'E')) (other : List Char) :
      readExponent (c :: other) = ([], c :: other) := by
    simp [readExponent, hc]
  cases h with
  | ending h =>
      obtain ⟨hc, -⟩ := h
      have hall : endings.all (fun c => ¬(c = 'e' ∨ c = 'E')) := by decide
      exact hhead (by simpa using List.all_eq_true.mp hall _ hc) _
  | name => exact hhead (by decide) _
  | mark hc => rcases hc with rfl | rfl <;> exact hhead (by decide) _
  | @cons rest other c hc h =>
      by_cases hmark : c = 'e' ∨ c = 'E'
      · have hrest : startsDigit (readSign rest).2 = false := by
          by_contra hdigit
          simp [readExponent, hmark, hdigit] at hread
        simp [readExponent, h.startsDigit_readSign hrest]
      · exact hhead hmark other
  | escape => exact hhead (by decide) _

/-- An exponent is read in front of another text. -/
theorem readExponent_of_follows (h : Follows rest other) {text exponent : List Char}
    (hread : readExponent (text ++ rest) = (exponent, rest)) :
    readExponent (text ++ other) = (exponent, other) := by
  have happend := readExponent_append (text ++ rest)
  rw [hread] at happend
  obtain rfl : exponent = text := List.append_cancel_right happend
  cases exponent with
  | nil => exact readExponent_eq_nil_of_follows h hread
  | cons c text =>
      rcases hsign : readSign (text ++ rest) with ⟨sign, after⟩
      rcases hdigits : readDigits after with ⟨digits, left⟩
      simp only [List.cons_append, readExponent, hsign, hdigits] at hread ⊢
      split at hread
      · rename_i hmark
        obtain ⟨hexponent, rfl⟩ := Prod.mk.inj hread
        obtain rfl : sign ++ digits = text := (List.cons.inj hexponent).2
        obtain rfl : digits ++ left = after := by
          have happend := readDigits_append after
          rwa [hdigits] at happend
        have hfollows : Follows (digits ++ left) (digits ++ other) := h.append fun hbreaks => by
          rw [breaksOff_of_isDigit (eq_of_readDigits hdigits).2.1] at hbreaks
          cases hbreaks
        rw [List.append_assoc] at hsign ⊢
        rw [readSign_of_follows hfollows hsign]
        have hstart := startsDigit_of_readDigits hdigits hmark.2 other
        simp only [hmark.1, hstart, and_self, if_true, readDigits_of_follows h hdigits]
      · cases (Prod.mk.inj hread).1

/-- A text starts with a number if it has digits in front of a point or behind it. -/
theorem startsNumber_iff (s : List Char) :
    startsNumber s ↔ (readDigits (readSign s).2).1 ≠ [] ∨
      (readFraction (readDigits (readSign s).2).2).1 ≠ [] := by
  have hunsigned (s : List Char) : startsUnsigned s ↔ (readDigits s).1 ≠ [] ∨
      (readFraction (readDigits s).2).1 ≠ [] := by
    cases s with
    | nil => simp [startsUnsigned, readDigits, readFraction]
    | cons c s =>
        by_cases hc : isDigit c
        · simp [startsUnsigned, readDigits, hc]
        · by_cases hpoint : c = '.'
          · subst hpoint
            by_cases hdigit : startsDigit s <;>
              simp [startsUnsigned, readDigits, hc, readFraction, hdigit]
          · simp [startsUnsigned, readDigits, hc, readFraction, hpoint]
  cases s with
  | nil => exact hunsigned []
  | cons c s =>
      by_cases hc : c = '+' ∨ c = '-'
      · simpa [startsNumber, readSign, hc] using hunsigned s
      · simpa [startsNumber, readSign, hc] using hunsigned (c :: s)

/-- No part of a numeral holds a backslash. -/
theorem not_mem_readNumeral (s : List Char) : '\\' ∉ (readNumeral s).1.text.toList := by
  have hdigits (s : List Char) : '\\' ∉ (readDigits s).1 :=
    fun hmem => absurd (List.mem_takeWhile_imp hmem) (by decide)
  have hsign (s : List Char) : '\\' ∉ (readSign s).1 := by
    cases s with
    | nil => exact List.not_mem_nil
    | cons c s =>
        simp only [readSign]
        split
        · rename_i hc
          rw [List.mem_singleton]
          rintro rfl
          cases hc with
          | inl hc => cases hc
          | inr hc => cases hc
        · exact List.not_mem_nil
  have hfraction (s : List Char) : '\\' ∉ (readFraction s).1 := by
    unfold readFraction
    split
    · split
      · simpa using hdigits _
      · exact List.not_mem_nil
    · exact List.not_mem_nil
  have hexponent (s : List Char) : '\\' ∉ (readExponent s).1 := by
    cases s with
    | nil => exact List.not_mem_nil
    | cons c s =>
        simp only [readExponent]
        split
        · rename_i hmark
          have hc : '\\' ≠ c := by
            rintro rfl
            rcases hmark.1 with hc | hc <;> cases hc
          simp [hc, hsign, hdigits]
        · exact List.not_mem_nil
  simp [readNumeral, hsign, hdigits, hfraction, hexponent]

/-- A numeral is read in front of another text, and it starts a number there if it does. -/
theorem readNumeral_of_follows (h : Follows rest other) {text : List Char} {n : Numeral}
    (hread : readNumeral (text ++ rest) = (n, rest)) :
    readNumeral (text ++ other) = (n, other) ∧
      (startsNumber (text ++ rest) → startsNumber (text ++ other)) := by
  have hbackslash := not_mem_readNumeral (text ++ rest)
  have htext := readNumeral_append (text ++ rest)
  rw [hread] at hbackslash htext
  replace htext : n.text.toList = text := List.append_cancel_right htext
  rw [htext] at hbackslash
  rw [startsNumber_iff, startsNumber_iff]
  rcases hsign : readSign (text ++ rest) with ⟨sign, s₁⟩
  rcases hwhole : readDigits s₁ with ⟨whole, s₂⟩
  rcases hfraction : readFraction s₂ with ⟨fraction, s₃⟩
  rcases hexponent : readExponent s₃ with ⟨exponent, s₄⟩
  simp only [readNumeral, hsign, hwhole, hfraction, hexponent] at hread
  obtain ⟨rfl, rfl⟩ := Prod.mk.inj hread
  obtain rfl : exponent ++ s₄ = s₃ := by
    have happend := readExponent_append s₃
    rwa [hexponent] at happend
  obtain rfl : fraction ++ (exponent ++ s₄) = s₂ := by
    have happend := readFraction_append s₂
    rwa [hfraction] at happend
  obtain rfl : whole ++ (fraction ++ (exponent ++ s₄)) = s₁ := by
    have happend := readDigits_append s₁
    rwa [hwhole] at happend
  obtain rfl : sign ++ (whole ++ (fraction ++ exponent)) = text := by
    rw [← htext, String.toList_ofList]
    simp only [List.append_assoc]
  simp only [List.mem_append, not_or] at hbackslash
  -- what stands behind each part is followed by the same in front of the other text
  have hbehind {part left left' : List Char} (hpart : '\\' ∉ part) (h : Follows left left') :
      Follows (part ++ left) (part ++ left') := h.append fun hbreaks => by
    rw [breaksOff_of_not_mem hpart] at hbreaks
    cases hbreaks
  have hthird := hbehind hbackslash.2.2.2 h
  have hsecond := hbehind hbackslash.2.2.1 hthird
  have hfirst := hbehind hbackslash.2.1 hsecond
  have hsign' : readSign (sign ++ (whole ++ (fraction ++ exponent)) ++ other) =
      (sign, whole ++ (fraction ++ (exponent ++ other))) := by
    rw [List.append_assoc, List.append_assoc, List.append_assoc] at hsign ⊢
    exact readSign_of_follows hfirst hsign
  simp only [readNumeral, hsign', readDigits_of_follows hsecond hwhole,
    readFraction_of_follows hthird hfraction, readExponent_of_follows h hexponent]
  exact ⟨trivial, id⟩

/-- A digit does not start a name. -/
theorem isNameStart_of_isDigit {c : Char} (h : isDigit c) : isNameStart c = false := by
  have hall : ∀ n < 0x80, isDigit (Char.ofNat n) → isNameStart (Char.ofNat n) = false := by
    decide +kernel
  have hc := hall c.toNat (toNat_of_isDigit h).2
  rw [Char.ofNat_toNat] at hc
  exact hc h

/-- A text that starts with a name starts with no number. -/
theorem startsNumber_of_startsName {s : List Char} (h : startsName s) : startsNumber s = false := by
  have hunsigned {c : Char} (hc : isNameStart c ∨ c = '-' ∨ c = '\\') (s : List Char) :
      startsUnsigned (c :: s) = false := by
    have hdigit : isDigit c = false := by
      by_contra hdigit
      rw [Bool.not_eq_false] at hdigit
      rcases hc with hc | rfl | rfl
      · rw [isNameStart_of_isDigit hdigit] at hc
        cases hc
      · cases hdigit
      · cases hdigit
    have hpoint : c ≠ '.' := by
      rintro rfl
      rcases hc with hc | hc | hc <;> cases hc
    simp [startsUnsigned, hdigit, hpoint]
  cases s with
  | nil => rfl
  | cons c s =>
      have hplus := ne_of_startsName (d := '+') h rfl (by decide) (by decide)
      by_cases hc : c = '-'
      · subst hc
        cases s with
        | nil => rfl
        | cons d s =>
            refine hunsigned (c := d) ?_ s
            simp only [startsName, if_true, startsEscape_cons, List.head?_cons, Option.any_some,
              Bool.or_eq_true, Bool.and_eq_true, beq_iff_eq, decide_eq_true_eq] at h
            rcases h with h | h | h
            · exact .inr (.inr h.1)
            · exact .inl h
            · exact .inr (.inl h)
      · rw [startsNumber, if_neg (by simp [hplus, hc])]
        refine hunsigned ?_ s
        simp only [startsName, hc, if_false, startsEscape_cons, Bool.or_eq_true, Bool.and_eq_true,
          beq_iff_eq] at h
        exact h.imp_right fun h => .inr h.1

end Css
