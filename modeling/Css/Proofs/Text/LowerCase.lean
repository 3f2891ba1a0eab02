import Css.Text.LowerCase
import Mathlib

/-!
# Lower case is settled

What is in lower case stays as it is: the lower-case forms of each run of the case table lie in no
run again, `avoids_caseRuns`, so every character of a text in lower case is its own lower-case form.
-/

namespace Css.Text

/-- The character is one of those of the run. -/
def CaseRun.Covers (run : CaseRun) (code : Nat) : Prop :=
  run.first ≤ code ∧ code ≤ run.last ∧ (code - run.first) % run.step = 0

/-- The lower-case forms of one run are seen to lie outside of another: below, above, or between its
characters. -/
def CaseRun.avoids (run other : CaseRun) : Bool :=
  (run.last + run.shift).toNat.blt other.first || other.last.blt (run.first + run.shift).toNat ||
    (other.step == 2 && (run.step == 2 || run.first == run.last) &&
      (run.first + run.shift - other.first) % 2 == 1)

/-- The dotted capital I and the capital sigma, as runs. -/
def specialRuns : List CaseRun := [⟨0x130, 0x130, 1, 0⟩, ⟨0x3A3, 0x3A3, 1, 0⟩]

/-- No run covers the lower-case forms of another run or of itself, and none of them is a special
character or an ASCII capital letter. -/
theorem avoids_caseRuns :
    caseRuns.all fun run => 'Z'.toNat < (run.first : Int) + run.shift &&
      (specialRuns ++ caseRuns).all run.avoids := by
  decide +kernel

/-- A run does not cover the lower-case forms that lie outside of it. -/
theorem CaseRun.not_covers {run other : CaseRun} {code : Nat} (havoids : run.avoids other)
    (hcode : run.Covers code) (hpos : 0 < (run.first : Int) + run.shift) :
    ¬other.Covers (code + run.shift).toNat := by
  rintro ⟨hfirst, hlast, hmod⟩
  obtain ⟨hfirst', hlast', hmod'⟩ := hcode
  simp only [avoids, Bool.or_eq_true, Bool.and_eq_true, Nat.blt_eq, beq_iff_eq] at havoids
  rcases havoids with (hbelow | habove) | ⟨⟨hstep, hstep'⟩, hodd⟩
  · omega
  · omega
  · rw [hstep] at hmod
    rcases hstep' with hstep' | hsingle
    · rw [hstep'] at hmod'
      omega
    · omega

/-- The lower-case form of a character above ASCII is given by the run that covers it. -/
theorem lowerChar_cases {c : Char} (hascii : ¬c.toNat < 0x80) :
    (∃ run ∈ caseRuns, run.Covers c.toNat ∧
      lowerChar c = Char.ofNat ((c.toNat : Int) + run.shift).toNat) ∨
    (∀ run ∈ caseRuns, ¬run.Covers c.toNat) ∧ lowerChar c = c := by
  rw [lowerChar, if_neg hascii]
  split
  · rename_i run hfind
    have hrun := List.find?_some hfind
    simp only [Bool.and_eq_true, decide_eq_true_eq, beq_iff_eq, and_assoc] at hrun
    exact .inl ⟨run, List.mem_of_find?_eq_some hfind, hrun, rfl⟩
  · rename_i hfind
    refine .inr ⟨fun run hmem hcovers => ?_, rfl⟩
    have hrun := List.find?_eq_none.mp hfind run hmem
    simp only [Bool.and_eq_true, decide_eq_true_eq, beq_iff_eq, and_assoc] at hrun
    exact hrun hcovers

/-- The character is its own lower-case form, and none of the special ones. -/
structure IsSettled (c : Char) : Prop where
  lowerChar : lowerChar c = c
  ne_sigma : c ≠ 'Σ'
  ne_dotted : c ≠ 'İ'

instance (c : Char) : Decidable (IsSettled c) :=
  decidable_of_iff (Text.lowerChar c = c ∧ c ≠ 'Σ' ∧ c ≠ 'İ')
    ⟨fun h => ⟨h.1, h.2.1, h.2.2⟩, fun h => ⟨h.lowerChar, h.ne_sigma, h.ne_dotted⟩⟩

/-- The lower-case forms of ASCII characters are settled, and so are all but the capital letters. -/
theorem isSettled_ascii : ∀ n < 0x80, IsSettled (lowerChar (Char.ofNat n)) ∧
    (n < 'A'.toNat ∨ 'Z'.toNat < n → IsSettled (Char.ofNat n)) := by
  decide +kernel

/-- The lower-case form that a run gives lies behind the capital letters. -/
theorem toNat_lt_form {run : CaseRun} (hmem : run ∈ caseRuns) {code : Nat}
    (hcode : run.Covers code) :
    'Z'.toNat < ((code : Int) + run.shift).toNat := by
  have hrun := List.all_eq_true.mp avoids_caseRuns run hmem
  rw [Bool.and_eq_true, decide_eq_true_eq] at hrun
  have := hcode.1
  omega

/-- The lower-case form that a run gives is settled. -/
theorem isSettled_form {run : CaseRun} (hmem : run ∈ caseRuns) {code : Nat}
    (hcode : run.Covers code) : IsSettled (Char.ofNat ((code : Int) + run.shift).toNat) := by
  have hrun := List.all_eq_true.mp avoids_caseRuns run hmem
  rw [Bool.and_eq_true, decide_eq_true_eq, List.all_eq_true] at hrun
  obtain ⟨hcapital, havoids⟩ := hrun
  have hcapital' := toNat_lt_form hmem hcode
  have hpos : 0 < (run.first : Int) + run.shift := by omega
  have hnot {other : CaseRun} (h : other ∈ specialRuns ++ caseRuns) :
      ¬other.Covers ((code : Int) + run.shift).toNat :=
    CaseRun.not_covers (havoids other h) hcode hpos
  generalize ((code : Int) + run.shift).toNat = form at hcapital' hnot ⊢
  by_cases hvalid : form.isValidChar
  · have htoNat : (Char.ofNat form).toNat = form := by rw [Char.toNat_ofNat, if_pos hvalid]
    by_cases hascii : form < 0x80
    · exact (isSettled_ascii form hascii).2 (.inr hcapital')
    · have hspecial {other : CaseRun} (h : other ∈ specialRuns) : ¬other.Covers form :=
        hnot (List.mem_append_left _ h)
      refine ⟨?_, fun heq => ?_, fun heq => ?_⟩
      · rcases lowerChar_cases (c := Char.ofNat form) (by omega) with
          ⟨other, hother, hcovers, -⟩ | ⟨-, hself⟩
        · rw [htoNat] at hcovers
          exact absurd hcovers (hnot (List.mem_append_right _ hother))
        · exact hself
      · rw [← htoNat, heq] at hspecial
        exact hspecial (List.mem_cons_of_mem _ (List.mem_singleton_self _))
          ⟨by decide, by decide, by decide⟩
      · rw [← htoNat, heq] at hspecial
        exact hspecial (List.mem_cons_self ..) ⟨by decide, by decide, by decide⟩
  · rw [Char.ofNat, dif_neg hvalid]
    exact (isSettled_ascii 0 (by decide)).2 (.inl (by decide))

/-- A lower-case form is settled. -/
theorem isSettled_lowerChar {c : Char} (hsigma : c ≠ 'Σ') (hdotted : c ≠ 'İ') :
    IsSettled (lowerChar c) := by
  by_cases hascii : c.toNat < 0x80
  · have hsettled := (isSettled_ascii c.toNat hascii).1
    rwa [Char.ofNat_toNat] at hsettled
  · rcases lowerChar_cases hascii with ⟨run, hmem, hcovers, hform⟩ | ⟨-, hself⟩
    · rw [hform]
      exact isSettled_form hmem hcovers
    · rw [hself]
      exact ⟨hself, hsigma, hdotted⟩

/-- The characters of a text in lower case are settled. -/
theorem isSettled_of_mem_lowerAfter {before text : List Char} {c : Char}
    (h : c ∈ lowerAfter before text) : IsSettled c := by
  have hspecial : IsSettled 'ς' ∧ IsSettled 'σ' ∧ IsSettled 'i' ∧ IsSettled '\u0307' := by
    decide +kernel
  induction text generalizing before with
  | nil => cases h
  | cons d text ih =>
      rw [lowerAfter] at h
      rcases List.mem_append.mp h with h | h
      · split at h
        · split at h
          · rw [List.mem_singleton.mp h]
            exact hspecial.1
          · rw [List.mem_singleton.mp h]
            exact hspecial.2.1
        · split at h
          · simp only [List.mem_cons, List.not_mem_nil, or_false] at h
            rcases h with rfl | rfl
            · exact hspecial.2.2.1
            · exact hspecial.2.2.2
          · rw [List.mem_singleton.mp h]
            exact isSettled_lowerChar ‹_› ‹_›
      · exact ih h

/-- A settled text is its own lower-case form. -/
theorem lowerAfter_of_isSettled (before : List Char) {text : List Char}
    (h : ∀ c ∈ text, IsSettled c) : lowerAfter before text = text := by
  induction text generalizing before with
  | nil => rfl
  | cons c text ih =>
      have hc := h c (List.mem_cons_self ..)
      rw [lowerAfter, if_neg hc.ne_sigma, if_neg hc.ne_dotted, hc.lowerChar,
        ih _ fun d hd => h d (List.mem_cons_of_mem c hd)]
      rfl

/-- The character is an ASCII character, and no capital letter. -/
def isSmallAscii (c : Char) : Bool := c.toNat < 0x80 && !c.isUpper

/-- A word of such characters is in lower case. -/
theorem lowerCase_of_isSmallAscii {word : String} (h : word.toList.all isSmallAscii = true) :
    lowerCase word = word := by
  have hsettled : ∀ c ∈ word.toList, IsSettled c := by
    intro c hc
    have hsmall := List.all_eq_true.mp h c hc
    simp only [isSmallAscii, Bool.and_eq_true, decide_eq_true_eq, Bool.not_eq_true'] at hsmall
    have hcapital : c.toNat < 'A'.toNat ∨ 'Z'.toNat < c.toNat := by
      by_contra hcapital
      have hupper : c.isUpper = true := by
        simp only [Char.isUpper, decide_eq_true_eq]
        simp only [not_or, not_lt] at hcapital
        exact hcapital
      rw [hsmall.2] at hupper
      cases hupper
    have hc := (isSettled_ascii c.toNat hsmall.1).2 hcapital
    rwa [Char.ofNat_toNat] at hc
  rw [lowerCase, lowerAfter_of_isSettled [] hsettled, String.ofList_toList]

/-- What is in lower case stays as it is. -/
theorem lowerCase_lowerCase (text : String) : lowerCase (lowerCase text) = lowerCase text := by
  rw [lowerCase, lowerCase, String.toList_ofList,
    lowerAfter_of_isSettled [] fun _ hc => isSettled_of_mem_lowerAfter hc]

/-- Characters stay characters. -/
theorem lowerAfter_ne_nil (before : List Char) {text : List Char} (h : text ≠ []) :
    lowerAfter before text ≠ [] := by
  cases text with
  | nil => exact absurd rfl h
  | cons c text =>
      rw [lowerAfter]
      refine List.append_ne_nil_of_left_ne_nil ?_ _
      split
      · simp
      · split <;> simp

/-- A text that holds something holds something in lower case. -/
theorem lowerCase_ne_empty {text : String} (h : text ≠ "") : lowerCase text ≠ "" := by
  rw [ne_eq, ← String.toList_eq_nil_iff, lowerCase, String.toList_ofList]
  exact lowerAfter_ne_nil [] (by simpa using h)

/-- A hyphen is the lower-case form of nothing else. -/
theorem lowerChar_eq_hyphen_iff {c : Char} : lowerChar c = '-' ↔ c = '-' := by
  have hcode : c = '-' ↔ c.toNat = '-'.toNat := Char.toNat_inj.symm
  by_cases hascii : c.toNat < 0x80
  · have hall : ∀ n < 0x80, lowerChar (Char.ofNat n) = '-' ↔ n = '-'.toNat := by decide +kernel
    rw [hcode, ← hall c.toNat hascii, Char.ofNat_toNat]
  · rcases lowerChar_cases hascii with ⟨run, hmem, hcovers, hform⟩ | ⟨-, hself⟩
    · have hbehind := toNat_lt_form hmem hcovers
      rw [hform]
      generalize ((c.toNat : Int) + run.shift).toNat = form at hbehind ⊢
      refine iff_of_false (fun heq => ?_) (fun heq => hascii (by simp [heq]))
      rw [← Char.toNat_inj, Char.toNat_ofNat] at heq
      have hsmall : '-'.toNat < 'Z'.toNat ∧ '-'.toNat ≠ 0 := by decide
      split at heq <;> omega
    · rw [hself]

/-- A text in lower case starts with as many hyphens as the text. -/
theorem isPrefixOf_lowerAfter (n : Nat) (before text : List Char) :
    (List.replicate n '-').isPrefixOf (lowerAfter before text) =
      (List.replicate n '-').isPrefixOf text := by
  induction n generalizing before text with
  | zero => simp
  | succ n ih =>
      cases text with
      | nil => rfl
      | cons c text =>
          rw [lowerAfter, List.replicate_succ]
          split
          · rename_i hsigma
            subst hsigma
            split <;> rfl
          · split
            · rename_i hdotted
              subst hdotted
              rfl
            · have hbeq : ('-' == lowerChar c) = ('-' == c) := by
                rw [Bool.eq_iff_iff, beq_iff_eq, beq_iff_eq, eq_comm,
                  lowerChar_eq_hyphen_iff, eq_comm]
              simp only [List.cons_append, List.nil_append, List.isPrefixOf, hbeq, ih]

end Css.Text
