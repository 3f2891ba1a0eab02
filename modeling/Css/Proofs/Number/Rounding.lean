import Css.Number.Shortest
import Mathlib

/-!
# Rounding to doubles

A ratio is rounded to the double in whose rounding interval it lies: `ofRatio_of_contains` says so
for every positive double, `ofDecimal_of_contains` for decimals. The exponent is the only one that
leaves a significand of the right size, `FitsAt.unique`, and a ratio just below a power of two is
rounded up to it from the exponent below.
-/

namespace Css.Number

open Binary64

/-- A power with an integer exponent is a ratio of powers with natural ones. -/
theorem zpow_eq_div (b : ℚ) (e : ℤ) : b ^ e = b ^ e.toNat / b ^ (-e).toNat := by
  rcases le_total 0 e with he | he
  · obtain ⟨n, rfl⟩ := Int.eq_ofNat_of_zero_le he
    simp
  · obtain ⟨n, hn⟩ := Int.eq_ofNat_of_zero_le (Int.neg_nonneg_of_nonpos he)
    obtain rfl : e = -n := by omega
    simp [zpow_neg]

/-- The ratio whose nearest integer is the significand. -/
theorem ratio_scaled (n d : ℕ) (e : ℤ) :
    ((n * 2 ^ (-e).toNat : ℕ) : ℚ) / ((d * 2 ^ e.toNat : ℕ) : ℚ) = n / d / 2 ^ e := by
  rw [zpow_eq_div 2 e]
  push_cast
  field_simp

/-- A ratio at most half away from an integer is rounded to it, if the integer is even or the ratio
is less than half away. -/
theorem roundHalfEven_eq {n d k : ℕ} (hd : d ≠ 0) (hlower : (k : ℚ) - 1 / 2 ≤ n / d)
    (hupper : (n : ℚ) / d ≤ k + 1 / 2)
    (hodd : k % 2 = 1 → (k : ℚ) - 1 / 2 < n / d ∧ (n : ℚ) / d < k + 1 / 2) :
    roundHalfEven n d = k := by
  have hpos : 0 < d := Nat.pos_of_ne_zero hd
  have hposQ : (0 : ℚ) < d := by exact_mod_cast hpos
  have hbelow : 2 * (d * k) ≤ 2 * n + d := by
    rw [le_div_iff₀ hposQ] at hlower
    have : (2 * (d * k) : ℚ) ≤ 2 * n + d := by linarith
    exact_mod_cast this
  have habove : 2 * n ≤ 2 * (d * k) + d := by
    rw [div_le_iff₀ hposQ] at hupper
    have : (2 * n : ℚ) ≤ 2 * (d * k) + d := by linarith
    exact_mod_cast this
  have hstrict : k % 2 = 1 → 2 * (d * k) < 2 * n + d ∧ 2 * n < 2 * (d * k) + d := by
    intro hk
    obtain ⟨hlower, hupper⟩ := hodd hk
    rw [lt_div_iff₀ hposQ] at hlower
    rw [div_lt_iff₀ hposQ] at hupper
    have hbelow : (2 * (d * k) : ℚ) < 2 * n + d := by linarith
    have habove : (2 * n : ℚ) < 2 * (d * k) + d := by linarith
    exact ⟨by exact_mod_cast hbelow, by exact_mod_cast habove⟩
  have hdiv := Nat.div_add_mod n d
  have hmod := Nat.mod_lt n hpos
  have hquotient : n / d ≤ k ∧ k ≤ n / d + 1 := by
    constructor
    · by_contra hlt
      have := Nat.mul_le_mul_left d (Nat.lt_of_not_le hlt)
      rw [Nat.mul_succ] at this
      omega
    · by_contra hlt
      have := Nat.mul_le_mul_left d (Nat.lt_of_not_le hlt)
      rw [Nat.mul_succ, Nat.mul_succ] at this
      omega
  unfold roundHalfEven
  dsimp only
  rcases Nat.eq_or_lt_of_le hquotient.1 with rfl | hlt
  · exact if_neg (by omega)
  · obtain rfl : k = n / d + 1 := by omega
    rw [Nat.mul_add, Nat.mul_one] at hbelow hstrict
    exact if_pos (by omega)

/-- Rounding gives one of the two neighbours. -/
theorem div_le_roundHalfEven (n d : ℕ) :
    n / d ≤ roundHalfEven n d ∧ roundHalfEven n d ≤ n / d + 1 := by
  unfold roundHalfEven
  dsimp only
  split <;> omega

/-- The exponent leaves at most 53 binary digits before the point, and no fewer unless it is the
least exponent. -/
structure FitsAt (q : ℚ) (e : ℤ) : Prop where
  ge_min : minExponent ≤ e
  lt : q < 2 ^ (53 : ℕ) * 2 ^ e
  normal : minExponent < e → 2 ^ (52 : ℕ) * 2 ^ e ≤ q

/-- Only one exponent fits. -/
theorem FitsAt.unique {q : ℚ} {e f : ℤ} (he : FitsAt q e) (hf : FitsAt q f) : e = f := by
  have hle {e f : ℤ} (he : FitsAt q e) (hf : FitsAt q f) : f ≤ e := by
    by_contra hlt
    have hge := hf.normal (lt_of_le_of_lt he.ge_min (not_le.mp hlt))
    have hpow : (2 : ℚ) ^ (e + 1) ≤ 2 ^ f := zpow_le_zpow_right₀ (by norm_num) (by omega)
    rw [zpow_add_one₀ two_ne_zero] at hpow
    linarith [he.lt]
  exact le_antisymm (hle hf he) (hle he hf)

/-- The numbers of binary digits of the two sides of a ratio bound it within two powers of two. -/
theorem log2_bounds {n d : ℕ} (hn : n ≠ 0) (hd : d ≠ 0) :
    (2 : ℚ) ^ (52 : ℕ) * 2 ^ ((n.log2 : ℤ) - d.log2 - 53) ≤ n / d ∧
      (n : ℚ) / d < 2 ^ (54 : ℕ) * 2 ^ ((n.log2 : ℤ) - d.log2 - 53) := by
  have hpos : (0 : ℚ) < d := by positivity
  have hnlower : (2 : ℚ) ^ n.log2 ≤ n := by exact_mod_cast Nat.log2_self_le hn
  have hnupper : (n : ℚ) < 2 ^ (n.log2 + 1) := by exact_mod_cast Nat.lt_log2_self (n := n)
  have hdlower : (2 : ℚ) ^ d.log2 ≤ d := by exact_mod_cast Nat.log2_self_le hd
  have hdupper : (d : ℚ) < 2 ^ (d.log2 + 1) := by exact_mod_cast Nat.lt_log2_self (n := d)
  have hmul (a b : ℕ) (e : ℤ) : (2 : ℚ) ^ a * 2 ^ e * 2 ^ b = 2 ^ (a + e + b) := by
    rw [← zpow_natCast, ← zpow_natCast, ← zpow_add₀ two_ne_zero, ← zpow_add₀ two_ne_zero]
  constructor
  · rw [le_div_iff₀ hpos]
    calc (2 : ℚ) ^ (52 : ℕ) * 2 ^ ((n.log2 : ℤ) - d.log2 - 53) * d
        ≤ 2 ^ (52 : ℕ) * 2 ^ ((n.log2 : ℤ) - d.log2 - 53) * 2 ^ (d.log2 + 1) := by gcongr
      _ = 2 ^ n.log2 := by
        rw [hmul, ← zpow_natCast]
        congr 1
        push_cast
        omega
      _ ≤ n := hnlower
  · rw [div_lt_iff₀ hpos]
    calc (n : ℚ) < 2 ^ (n.log2 + 1) := hnupper
      _ = 2 ^ (54 : ℕ) * 2 ^ ((n.log2 : ℤ) - d.log2 - 53) * 2 ^ d.log2 := by
        rw [hmul, ← zpow_natCast]
        congr 1
        push_cast
        omega
      _ ≤ 2 ^ (54 : ℕ) * 2 ^ ((n.log2 : ℤ) - d.log2 - 53) * d := by gcongr

/-- The exponent that a ratio is rounded at fits it. -/
theorem fitsAt_exponentOf {n d : ℕ} (hn : n ≠ 0) (hd : d ≠ 0) :
    FitsAt (n / d) (exponentOf n d) := by
  obtain ⟨hlower, hupper⟩ := log2_bounds hn hd
  unfold exponentOf
  dsimp only
  generalize (n.log2 : ℤ) - d.log2 - 53 = guess at hlower hupper ⊢
  have hfits : n * 2 ^ (-guess).toNat < 2 ^ (53 : ℕ) * (d * 2 ^ guess.toNat) ↔
      (n : ℚ) / d < 2 ^ (53 : ℕ) * 2 ^ guess := by
    have hpos : (0 : ℚ) < ((d * 2 ^ guess.toNat : ℕ) : ℚ) := by positivity
    rw [← div_lt_iff₀ (by positivity), ← ratio_scaled, div_lt_iff₀ hpos]
    exact_mod_cast Iff.rfl
  -- Without the lower limit the exponent leaves 53 binary digits.
  have hfree : ∀ e, e = (if n * 2 ^ (-guess).toNat < 2 ^ (53 : ℕ) * (d * 2 ^ guess.toNat) then guess
      else guess + 1) → (n : ℚ) / d < 2 ^ (53 : ℕ) * 2 ^ e ∧
        2 ^ (52 : ℕ) * 2 ^ e ≤ (n : ℚ) / d := by
    rintro e rfl
    split
    · exact ⟨hfits.mp ‹_›, hlower⟩
    · rename_i hlarge
      rw [hfits, not_lt] at hlarge
      rw [zpow_add_one₀ two_ne_zero]
      exact ⟨by linarith, by linarith⟩
  obtain ⟨hlt, hge⟩ := hfree _ rfl
  refine ⟨le_max_left .., lt_of_lt_of_le hlt ?_, fun hmin => ?_⟩
  · gcongr
    · norm_num
    · exact le_max_right ..
  · rwa [max_eq_right (by omega)]

/-- The significand and the exponent of a finite double. -/
structure IsFinitePair (significand : ℕ) (exponent : ℤ) : Prop where
  lt : significand < 2 ^ (53 : ℕ)
  ge_min : minExponent ≤ exponent
  le_max : exponent ≤ maxExponent
  normal : minExponent < exponent → 2 ^ (52 : ℕ) ≤ significand

/-- A double as the nearest one to some number: its significand has the right size. -/
def Binary64.IsDouble : Binary64 → Prop
  | .finite _ significand exponent => IsFinitePair significand exponent
  | .infinite _ => True
  | .nan => False

/-- Zero is a double. -/
theorem Binary64.isDouble_zero (negative : Bool) : (zero negative).IsDouble :=
  ⟨by norm_num, le_rfl, by decide, fun h => absurd h (lt_irrefl _)⟩

/-- The significand that a ratio is rounded to has the right size, if the exponent fits. -/
theorem FitsAt.significand {n d : ℕ} {e : ℤ} (hd : d ≠ 0) (h : FitsAt (n / d) e) :
    roundHalfEven (n * 2 ^ (-e).toNat) (d * 2 ^ e.toNat) ≤ 2 ^ (53 : ℕ) ∧
      (minExponent < e →
        2 ^ (52 : ℕ) ≤ roundHalfEven (n * 2 ^ (-e).toNat) (d * 2 ^ e.toNat)) := by
  have hratio := ratio_scaled n d e
  have hscale : (0 : ℚ) < ((d * 2 ^ e.toNat : ℕ) : ℚ) := by positivity
  generalize n * 2 ^ (-e).toNat = n' at hratio ⊢
  generalize d * 2 ^ e.toNat = d' at hratio hscale ⊢
  obtain ⟨hfloor, hceil⟩ := div_le_roundHalfEven n' d'
  have hpos : 0 < d' := by exact_mod_cast hscale
  have hupper : n' / d' < 2 ^ (53 : ℕ) := by
    have hlt := h.lt
    rw [← div_lt_iff₀ (by positivity), ← hratio, div_lt_iff₀ hscale] at hlt
    rw [Nat.div_lt_iff_lt_mul hpos]
    exact_mod_cast hlt
  refine ⟨by omega, fun hmin => le_trans ?_ hfloor⟩
  have hge := h.normal hmin
  rw [← le_div_iff₀ (by positivity), ← hratio, le_div_iff₀ hscale] at hge
  rw [Nat.le_div_iff_mul_le hpos]
  exact_mod_cast hge

/-- A ratio is rounded to a double. -/
theorem Binary64.ofRatio_isDouble (negative : Bool) (n : ℕ) {d : ℕ} (hd : d ≠ 0) :
    (ofRatio negative n d).IsDouble := by
  unfold ofRatio
  split
  · exact isDouble_zero negative
  rename_i hn
  have hfits := fitsAt_exponentOf hn hd
  obtain ⟨hle, hge⟩ := hfits.significand hd
  dsimp only
  generalize exponentOf n d = e at hfits hle hge ⊢
  generalize roundHalfEven (n * 2 ^ (-e).toNat) (d * 2 ^ e.toNat) = significand at hle hge ⊢
  have hmin := hfits.ge_min
  split
  · split
    · trivial
    · exact ⟨by norm_num, by omega, by omega, fun _ => le_rfl⟩
  · split
    · trivial
    · exact ⟨by omega, hmin, by omega, hge⟩

/-- A decimal number is rounded to a double. -/
theorem Binary64.ofDecimal_isDouble (negative : Bool) (digits : ℕ) (exponent : ℤ) :
    (ofDecimal negative digits exponent).IsDouble := by
  unfold ofDecimal
  dsimp only
  split
  · exact isDouble_zero negative
  · split
    · trivial
    · exact ofRatio_isDouble _ _ (by positivity)

/-- A point lies in the interval. -/
def RoundingInterval.Contains (interval : RoundingInterval) (x : ℚ) : Prop :=
  (interval.lower : ℚ) < x ∧ x < interval.upper ∨
    interval.closed = true ∧ (interval.lower : ℚ) ≤ x ∧ x ≤ interval.upper

/-- The lower end of a rounding interval, in units of the significand. -/
theorem RoundingInterval.cast_lower {significand : ℕ} (exponent : ℤ) (hpos : 0 < significand) :
    ((RoundingInterval.of significand exponent).lower : ℚ) = 4 * significand -
      if significand = 2 ^ (52 : ℕ) ∧ minExponent < exponent then 1 else 2 := by
  unfold RoundingInterval.of
  dsimp only
  split
  · rw [Nat.cast_sub (by omega)]
    push_cast
    rfl
  · rw [Nat.cast_sub (by omega)]
    push_cast
    rfl

/-- A point of a rounding interval is at most half a unit of the significand away from it, and less
if the significand is odd. Below a power of two it is at most a quarter away. -/
theorem RoundingInterval.Contains.bounds {significand : ℕ} {exponent : ℤ} {x : ℚ}
    (hpos : 0 < significand) (h : (RoundingInterval.of significand exponent).Contains (4 * x)) :
    ((significand : ℚ) - 1 / 2 ≤ x ∧ x ≤ significand + 1 / 2) ∧
      (significand % 2 = 1 → (significand : ℚ) - 1 / 2 < x ∧ x < significand + 1 / 2) ∧
      (significand = 2 ^ (52 : ℕ) → minExponent < exponent → (significand : ℚ) - 1 / 4 ≤ x) := by
  have hlower := cast_lower exponent hpos
  have hupper : ((RoundingInterval.of significand exponent).upper : ℚ) = 4 * significand + 2 := by
    simp [RoundingInterval.of]
  have hclosed :
      (RoundingInterval.of significand exponent).closed = true ↔ significand % 2 = 0 := by
    simp [RoundingInterval.of]
  unfold Contains at h
  rw [hlower, hupper, hclosed] at h
  -- The lower end is at most one unit of the interval above half a unit of the significand.
  have hends : (4 * significand - 2 : ℚ) ≤
      4 * significand - if significand = 2 ^ (52 : ℕ) ∧ minExponent < exponent then 1 else 2 := by
    split <;> linarith
  refine ⟨?_, fun hodd => ?_, fun hpower hmin => ?_⟩
  · rcases h with ⟨hl, hu⟩ | ⟨-, hl, hu⟩ <;> constructor <;> linarith
  · rcases h with ⟨hl, hu⟩ | ⟨heven, -, -⟩
    · constructor <;> linarith
    · omega
  · rw [if_pos ⟨hpower, hmin⟩] at h
    rcases h with ⟨hl, hu⟩ | ⟨-, hl, hu⟩ <;> linarith

/-- A ratio at whose exponent the significand is the nearest integer is rounded to it. -/
theorem Binary64.ofRatio_of_fitsAt (negative : Bool) (significand : ℕ) {exponent : ℤ} {n d : ℕ}
    (hn : n ≠ 0) (hd : d ≠ 0) (hfits : FitsAt (n / d) exponent)
    (hlower : (significand : ℚ) - 1 / 2 ≤ n / d / 2 ^ exponent)
    (hupper : (n : ℚ) / d / 2 ^ exponent ≤ significand + 1 / 2)
    (hodd : significand % 2 = 1 → (significand : ℚ) - 1 / 2 < n / d / 2 ^ exponent ∧
      (n : ℚ) / d / 2 ^ exponent < significand + 1 / 2) :
    ofRatio negative n d =
      let carried := if significand = 2 ^ (53 : ℕ) then (2 ^ (52 : ℕ), exponent + 1)
        else (significand, exponent)
      if maxExponent < carried.2 then .infinite negative
      else .finite negative carried.1 carried.2 := by
  have hexponent : exponentOf n d = exponent := (fitsAt_exponentOf hn hd).unique hfits
  rw [← ratio_scaled] at hlower hupper hodd
  have hsignificand := roundHalfEven_eq (by positivity) hlower hupper hodd
  rw [ofRatio, if_neg hn]
  simp only [hexponent, hsignificand]

/-- A ratio is rounded to the double in whose rounding interval it lies. -/
theorem Binary64.ofRatio_of_contains {significand : ℕ} {exponent : ℤ} {n d : ℕ} (negative : Bool)
    (h : IsFinitePair significand exponent) (hpos : 0 < significand) (hd : d ≠ 0)
    (hn : (RoundingInterval.of significand exponent).Contains (4 * (n / d / 2 ^ exponent))) :
    ofRatio negative n d = .finite negative significand exponent := by
  obtain ⟨⟨hlower, hupper⟩, hodd, hpower⟩ := hn.bounds hpos
  have hscale : (n : ℚ) / d = n / d / 2 ^ exponent * 2 ^ exponent := by field_simp
  have hle : (significand : ℚ) + 1 ≤ 2 ^ (53 : ℕ) := by exact_mod_cast h.lt
  have hone : (1 : ℚ) ≤ significand := by exact_mod_cast hpos
  have hne : n ≠ 0 := by
    rintro rfl
    norm_num at hlower
    linarith
  have hzpow : (0 : ℚ) < 2 ^ exponent := by positivity
  have hlt : (n : ℚ) / d < 2 ^ (53 : ℕ) * 2 ^ exponent := by
    rw [← div_lt_iff₀ hzpow]
    linarith
  by_cases hnormal : minExponent < exponent → (2 : ℚ) ^ (52 : ℕ) ≤ n / d / 2 ^ exponent
  · have hfits : FitsAt (n / d) exponent :=
      ⟨h.ge_min, hlt, fun hmin => (le_div_iff₀ hzpow).mp (hnormal hmin)⟩
    have hsmall : significand ≠ 2 ^ (53 : ℕ) := h.lt.ne
    rw [ofRatio_of_fitsAt negative significand hne hd hfits hlower hupper hodd]
    simp only [hsmall, if_false, not_lt.mpr h.le_max]
  · -- Just below a power of two, the ratio is rounded up to it from the exponent below.
    rw [Classical.not_imp, not_le] at hnormal
    obtain ⟨hmin, hbelow⟩ := hnormal
    have hge : (2 : ℚ) ^ (52 : ℕ) ≤ significand := by exact_mod_cast h.normal hmin
    obtain rfl : significand = 2 ^ (52 : ℕ) := by
      have hlt : (significand : ℚ) < 2 ^ (52 : ℕ) + 1 := by linarith
      have : significand < 2 ^ (52 : ℕ) + 1 := by exact_mod_cast hlt
      have := h.normal hmin
      omega
    have hquarter := hpower rfl hmin
    have hdouble : (n : ℚ) / d / 2 ^ (exponent - 1) = 2 * (n / d / 2 ^ exponent) := by
      rw [zpow_sub_one₀ two_ne_zero]
      field_simp
    have hzpow' : (0 : ℚ) < 2 ^ (exponent - 1) := by positivity
    have hfits : FitsAt (n / d) (exponent - 1) := by
      refine ⟨by omega, ?_, fun _ => ?_⟩
      · rw [← div_lt_iff₀ hzpow', hdouble]
        norm_num at hbelow ⊢
        linarith
      · rw [← le_div_iff₀ hzpow', hdouble]
        norm_num at hquarter ⊢
        linarith
    have hround := ofRatio_of_fitsAt negative (2 ^ (53 : ℕ)) hne hd hfits
    rw [hdouble] at hround
    rw [hround]
    · simp [not_lt.mpr h.le_max]
    · norm_num at hquarter ⊢
      linarith
    · norm_num at hbelow ⊢
      linarith
    · intro hparity
      norm_num at hparity

/-- What is rounded to a finite positive double lies between two powers of ten. -/
theorem RoundingInterval.Contains.magnitude {significand : ℕ} {exponent : ℤ} {q : ℚ}
    (h : IsFinitePair significand exponent) (hpos : 0 < significand)
    (hq : (RoundingInterval.of significand exponent).Contains (4 * (q / 2 ^ exponent))) :
    (10 : ℚ) ^ (-324 : ℤ) < q ∧ q < 10 ^ (309 : ℤ) := by
  obtain ⟨⟨hlower, hupper⟩, -, -⟩ := hq.bounds hpos
  have hone : (1 : ℚ) ≤ significand := by exact_mod_cast hpos
  have hle : (significand : ℚ) + 1 ≤ 2 ^ (53 : ℕ) := by exact_mod_cast h.lt
  have hzpow : (0 : ℚ) < 2 ^ exponent := by positivity
  constructor
  · have hmin : (2 : ℚ) ^ (-1074 : ℤ) ≤ 2 ^ exponent :=
      zpow_le_zpow_right₀ (by norm_num) h.ge_min
    have hhalf : (1 : ℚ) / 2 ≤ q / 2 ^ exponent := by linarith
    rw [le_div_iff₀ hzpow] at hhalf
    have hpower : (2 : ℚ) ^ (1075 : ℕ) < 10 ^ (324 : ℕ) := by
      exact_mod_cast (by decide +kernel : 2 ^ 1075 < 10 ^ 324)
    calc (10 : ℚ) ^ (-324 : ℤ) < 2 ^ (-1075 : ℤ) := by
          rw [zpow_neg, zpow_neg, zpow_ofNat, zpow_ofNat]
          exact inv_strictAnti₀ (by positivity) hpower
      _ = 1 / 2 * 2 ^ (-1074 : ℤ) := by
          rw [show (-1075 : ℤ) = -1074 - 1 by rfl, zpow_sub_one₀ two_ne_zero, mul_comm, one_div]
      _ ≤ 1 / 2 * 2 ^ exponent := by gcongr
      _ ≤ q := hhalf
  · have hmax : (2 : ℚ) ^ exponent ≤ 2 ^ (971 : ℤ) := zpow_le_zpow_right₀ (by norm_num) h.le_max
    have hless : q / 2 ^ exponent < 2 ^ (53 : ℕ) := by linarith
    rw [div_lt_iff₀ hzpow] at hless
    have hpower : (2 : ℚ) ^ (53 : ℕ) * 2 ^ (971 : ℕ) < 10 ^ (309 : ℕ) := by
      exact_mod_cast (by decide +kernel : 2 ^ 53 * 2 ^ 971 < 10 ^ 309)
    calc q < 2 ^ (53 : ℕ) * 2 ^ exponent := hless
      _ ≤ 2 ^ (53 : ℕ) * 2 ^ (971 : ℤ) := by gcongr
      _ < 10 ^ (309 : ℤ) := by rwa [zpow_ofNat, zpow_ofNat]

/-- The number of decimal digits bounds a number between two powers of ten. -/
theorem decimalLength_bounds {n : ℕ} (hn : n ≠ 0) :
    10 ^ (decimalLength n - 1) ≤ n ∧ n < 10 ^ decimalLength n ∧ 0 < decimalLength n := by
  have hpos : 0 < decimalLength n := List.length_pos_of_ne_nil Nat.toDigits_ne_nil
  refine ⟨?_, ?_, hpos⟩
  · by_contra hlt
    by_cases hone : decimalLength n = 1
    · simp [hone] at hlt
      exact hn hlt
    · have := (Nat.length_toDigits_le_iff (b := 10) (n := n) (k := decimalLength n - 1)
        (by decide) (by omega)).mpr (by omega)
      rw [← decimalLength] at this
      omega
  · exact (Nat.length_toDigits_le_iff (by decide) hpos).mp le_rfl

/-- A decimal is rounded to the double in whose rounding interval it lies. -/
theorem Binary64.ofDecimal_of_contains {significand : ℕ} {exponent : ℤ} {digits : ℕ} {place : ℤ}
    (negative : Bool) (h : IsFinitePair significand exponent) (hpos : 0 < significand)
    (hq : (RoundingInterval.of significand exponent).Contains
      (4 * (digits * 10 ^ place / 2 ^ exponent))) :
    ofDecimal negative digits place = .finite negative significand exponent := by
  obtain ⟨hlower, hupper⟩ := hq.magnitude h hpos
  have hne : digits ≠ 0 := by
    rintro rfl
    rw [Nat.cast_zero, zero_mul] at hlower
    exact absurd hlower (not_lt.mpr (by positivity))
  obtain ⟨hge, hlt, hlength⟩ := decimalLength_bounds hne
  have hgeQ : (10 : ℚ) ^ ((decimalLength digits : ℤ) - 1) ≤ digits := by
    rw [show ((decimalLength digits : ℤ) - 1) = ((decimalLength digits - 1 : ℕ) : ℤ) by omega,
      zpow_natCast]
    exact_mod_cast hge
  have hltQ : (digits : ℚ) < 10 ^ (decimalLength digits : ℤ) := by
    rw [zpow_natCast]
    exact_mod_cast hlt
  have hplace : (0 : ℚ) < 10 ^ place := by positivity
  have hbelow : ¬ ((decimalLength digits : ℤ) + place ≤ -324) := by
    intro hle
    have hpower : (10 : ℚ) ^ ((decimalLength digits : ℤ) + place) ≤ 10 ^ (-324 : ℤ) :=
      zpow_le_zpow_right₀ (by norm_num) hle
    rw [zpow_add₀ (by norm_num)] at hpower
    have := mul_lt_mul_of_pos_right hltQ hplace
    linarith
  have habove : ¬ (309 < (decimalLength digits : ℤ) + place) := by
    intro hgt
    have hpower : (10 : ℚ) ^ (309 : ℤ) ≤ 10 ^ ((decimalLength digits : ℤ) - 1 + place) :=
      zpow_le_zpow_right₀ (by norm_num) (by omega)
    rw [zpow_add₀ (by norm_num)] at hpower
    have := mul_le_mul_of_nonneg_right hgeQ hplace.le
    linarith
  rw [ofDecimal]
  simp only [hne, hbelow, habove, or_self, if_false]
  refine ofRatio_of_contains negative h hpos (by positivity) ?_
  have hratio : ((digits * 10 ^ place.toNat : ℕ) : ℚ) / ((10 ^ (-place).toNat : ℕ) : ℚ) =
      digits * 10 ^ place := by
    rw [zpow_eq_div 10 place]
    push_cast
    rw [mul_div_assoc]
  rwa [hratio]

end Css.Number
