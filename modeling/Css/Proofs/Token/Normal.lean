import Css.Proofs.Token.Sound

/-!
# Normalized texts

Normalizing a source replaces carriage returns, form feeds and null characters. A text without them
stays as it is, also in front of another text.
-/

namespace Css

/-- The text has none of the characters that are replaced when a source is normalized. -/
def Normal (text : List Char) : Prop := ∀ c ∈ text, c ≠ '\r' ∧ c ≠ '\x0C' ∧ c ≠ '\x00'

/-- Two normal texts are normal one after the other. -/
theorem normal_append {a b : List Char} : Normal (a ++ b) ↔ Normal a ∧ Normal b :=
  List.forall_mem_append

/-- What holds only characters of a normal text is normal. -/
theorem Normal.subset {a b : List Char} (h : Normal b) (hab : a ⊆ b) : Normal a :=
  fun c hc => h c (hab hc)

/-- A text without control characters is normal. -/
theorem normal_of_isControl {text : List Char} (h : ∀ c ∈ text, isControl c = false) :
    Normal text := by
  intro c hc
  have hcontrol := h c hc
  refine ⟨?_, ?_, ?_⟩ <;> rintro rfl <;> cases hcontrol

/-- A normal text is kept when a source is normalized that starts with it. -/
theorem Normal.normalize_append {text : List Char} (h : Normal text) (rest : List Char) :
    normalize (text ++ rest) = text ++ normalize rest := by
  induction text with
  | nil => rfl
  | cons c text ih =>
      obtain ⟨hreturn, hfeed, hnull⟩ := h c (List.mem_cons_self ..)
      rw [List.cons_append, normalize, ih (h.subset (List.subset_cons_self c text))]
      · simp [hreturn, hfeed, hnull]
      · exact fun _ heq => absurd heq hreturn

/-- A normal text is normalized. -/
theorem Normal.normalize_eq {text : List Char} (h : Normal text) : normalize text = text := by
  simpa [normalize] using h.normalize_append []

/-- A normalized text is normal. -/
theorem normal_normalize (s : List Char) : Normal (normalize s) := by
  fun_induction normalize s with
  | case1 => exact List.forall_mem_nil _
  | case2 rest ih => exact List.forall_mem_cons.mpr ⟨by decide, ih⟩
  | case3 c rest _ ih =>
      refine List.forall_mem_cons.mpr ⟨?_, ih⟩
      split
      · decide
      · rename_i hline
        rw [not_or] at hline
        split
        · decide
        · exact ⟨hline.1, hline.2, ‹_›⟩

end Css
