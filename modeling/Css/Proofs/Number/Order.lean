import Css.Number.Numeric
import Mathlib

/-!
# The order of numeric values

Comparisons of numeric values go by their exact values, with the infinities at the two ends. Only
what is not a number compares with nothing.
-/

namespace Css.Number.Numeric

/-- A value that is neither infinite nor undefined has an exact value. -/
theorem toRat?_eq_none_iff {a : Numeric} :
    a.toRat? = none ↔ a = .real .nan ∨ ∃ negative, a = .real (.infinite negative) := by
  cases a with
  | integer n => simp [toRat?]
  | real x => cases x <;> simp [toRat?, Binary64.toRat?]

/-- Values with exact values are compared by these. -/
theorem le_iff_of_toRat? {a b : Numeric} {x y : Rat} (ha : a.toRat? = some x)
    (hb : b.toRat? = some y) : a.le b = true ↔ x ≤ y := by
  have hnone {c : Numeric} {z : Rat} (hc : c.toRat? = some z) :
      c ≠ .real .nan ∧ ∀ negative, c ≠ .real (.infinite negative) := by
    have hne : ¬ c.toRat? = none := by simp [hc]
    rw [toRat?_eq_none_iff] at hne
    exact ⟨fun h => hne (.inl h), fun negative h => hne (.inr ⟨negative, h⟩)⟩
  unfold le
  split
  · exact absurd rfl (hnone ha).1
  · exact absurd rfl (hnone hb).1
  · exact absurd rfl ((hnone ha).2 true)
  · exact absurd rfl ((hnone hb).2 false)
  · simp [ha, hb]

/-- A value between two integers has an exact value between them. -/
theorem toRat?_of_between {lower upper : Int} {a : Numeric}
    (hlower : (integer lower).le a = true) (hupper : a.le (integer upper) = true) :
    ∃ x, a.toRat? = some x ∧ (lower : Rat) ≤ x ∧ x ≤ upper := by
  cases ha : a.toRat? with
  | none =>
      rcases toRat?_eq_none_iff.mp ha with rfl | ⟨negative, rfl⟩
      · cases hupper
      · cases negative
        · cases hupper
        · cases hlower
  | some x =>
      exact ⟨x, rfl, (le_iff_of_toRat? rfl ha).mp hlower, (le_iff_of_toRat? ha rfl).mp hupper⟩

/-- A number that is not below zero is at least zero. -/
theorem zero_le_of_isNegative_eq_false {a : Numeric} (hnan : a ≠ .real .nan)
    (h : a.isNegative = false) : (integer 0).le a = true := by
  cases ha : a.toRat? with
  | none =>
      rcases toRat?_eq_none_iff.mp ha with rfl | ⟨negative, rfl⟩
      · exact absurd rfl hnan
      · cases negative
        · rfl
        · cases h
  | some x =>
      have hzero : (integer 0).toRat? = some 0 := rfl
      have hlower := le_iff_of_toRat? hzero ha
      have hupper := le_iff_of_toRat? ha hzero
      by_contra hle
      have hx : ¬ 0 ≤ x := fun hx => hle (hlower.mpr hx)
      have hx' : a.le (integer 0) = true := hupper.mpr (le_of_not_ge hx)
      simp [isNegative, hle, hx'] at h

end Css.Number.Numeric
