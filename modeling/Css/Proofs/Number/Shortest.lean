import Css.Proofs.Number.Rounding

/-!
# The shortest digits lie in the rounding interval

A grid point that is found lies in the rounding interval, and the grid of seventeen digits has a
point in it, because its steps are narrower than the interval. So the digits that a double is
printed with are rounded back to it: `ofDecimal_shortest`.
-/

namespace Css.Number

open Binary64

/-- The exact value of a decimal. -/
def Decimal.value (x : Decimal) : ℚ := x.digits * 10 ^ x.exponent

/-- A ratio of two products lies in an interval if the products compare like it. -/
theorem RoundingInterval.contains_div {interval : RoundingInterval} {k step unit : ℕ}
    (hunit : 0 < unit)
    (h : interval.lower * unit < k * step ∧ k * step < interval.upper * unit ∨
      interval.closed = true ∧ interval.lower * unit ≤ k * step ∧
        k * step ≤ interval.upper * unit) :
    interval.Contains ((k * step : ℕ) / (unit : ℕ)) := by
  have hpos : (0 : ℚ) < unit := by exact_mod_cast hunit
  unfold Contains
  rw [lt_div_iff₀ hpos, div_lt_iff₀ hpos, le_div_iff₀ hpos, div_le_iff₀ hpos]
  exact_mod_cast h

/-- A grid point that is found lies on the grid and in the interval. -/
theorem contains_of_gridPoint? {interval : RoundingInterval} {n d : ℕ} {place : ℤ}
    {point : Decimal} (hlower : interval.lower < interval.center)
    (hupper : interval.center < interval.upper) (hn : 0 < n) (hd : 0 < d)
    (h : gridPoint? interval n d place = some point) :
    interval.Contains (point.value * d / n) := by
  have hratio (k : ℕ) : (k : ℚ) * 10 ^ place * d / n =
      ((k * (d * 10 ^ place.toNat) : ℕ) : ℚ) / ((n * 10 ^ (-place).toNat : ℕ) : ℚ) := by
    rw [zpow_eq_div 10 place]
    push_cast
    field_simp
  unfold gridPoint? at h
  dsimp only at h
  have hunit : 0 < n * 10 ^ (-place).toNat := by positivity
  have hstep : 0 < d * 10 ^ place.toNat := by positivity
  generalize n * 10 ^ (-place).toNat = unit at h hratio hunit
  generalize d * 10 ^ place.toNat = step at h hratio hstep
  have hbelow := Nat.div_mul_le_self (interval.center * unit) step
  have habove : interval.center * unit < (interval.center * unit / step + 1) * step := by
    have hnext := Nat.lt_mul_div_succ (interval.center * unit) hstep
    rwa [Nat.mul_comm step] at hnext
  have hlower' : interval.lower * unit < interval.center * unit :=
    Nat.mul_lt_mul_of_pos_right hlower hunit
  have hupper' : interval.center * unit < interval.upper * unit :=
    Nat.mul_lt_mul_of_pos_right hupper hunit
  generalize interval.center * unit / step = below at h hbelow habove
  split at h
  · rename_i hfound
    simp only [Bool.and_eq_true, Bool.or_eq_true, decide_eq_true_eq, beq_iff_eq] at hfound
    cases h
    show interval.Contains ((below : ℚ) * 10 ^ place * d / n)
    rw [hratio]
    refine RoundingInterval.contains_div hunit ?_
    rcases hfound.1 with hlt | ⟨hclosed, heq⟩
    · exact .inl ⟨hlt, by omega⟩
    · exact .inr ⟨hclosed, by omega, by omega⟩
  · split at h
    · rename_i hfound
      simp only [Bool.and_eq_true, Bool.or_eq_true, decide_eq_true_eq, beq_iff_eq] at hfound
      cases h
      show interval.Contains (((below + 1 : ℕ) : ℚ) * 10 ^ place * d / n)
      rw [hratio]
      refine RoundingInterval.contains_div hunit ?_
      rcases hfound with hlt | ⟨hclosed, heq⟩
      · exact .inl ⟨by omega, hlt⟩
      · exact .inr ⟨hclosed, by omega, by omega⟩
    · cases h

/-- A grid point is found if one of the neighbours of the value lies inside the interval. -/
theorem isSome_gridPoint?_of_inside {interval : RoundingInterval} {n d : ℕ} {place : ℤ}
    {unit step below : ℕ} (hunit : n * 10 ^ (-place).toNat = unit)
    (hstep : d * 10 ^ place.toNat = step) (hbelow : interval.center * unit / step = below)
    (h : interval.lower * unit < below * step ∨ (below + 1) * step < interval.upper * unit) :
    (gridPoint? interval n d place).isSome := by
  unfold gridPoint?
  dsimp only
  rw [hunit, hstep, hbelow]
  split
  · rfl
  · rename_i hnone
    rw [if_pos]
    · rfl
    · rcases h with h | h
      · simp only [h, decide_true, Bool.true_or, Bool.true_and, Bool.or_eq_true, Bool.not_eq_true',
          not_or, Bool.not_eq_false] at hnone
        exact Bool.or_eq_true _ _ ▸ hnone.1
      · simp [h]

/-- A grid point is found if the rounding interval is wider than the steps of the grid. -/
theorem isSome_gridPoint? {significand : ℕ} {exponent : ℤ} {n d : ℕ} {place : ℤ}
    (h : IsFinitePair significand exponent) (hn : 0 < n) (hd : 0 < d)
    (hplace : (10 : ℚ) ^ (16 : ℕ) * 10 ^ place ≤ 4 * significand * n / d) :
    (gridPoint? (.of significand exponent) n d place).isSome := by
  have hunit : 0 < n * 10 ^ (-place).toNat := by positivity
  have hstep : 0 < d * 10 ^ place.toNat := by positivity
  have hgrid :
      10 ^ 16 * (d * 10 ^ place.toNat) ≤ 4 * (significand * (n * 10 ^ (-place).toNat)) := by
    rw [zpow_eq_div 10 place, mul_div_assoc',
      div_le_div_iff₀ (by positivity) (by positivity)] at hplace
    have hplace' : (10 : ℚ) ^ (16 : ℕ) * (d * 10 ^ place.toNat) ≤
        4 * (significand * (n * 10 ^ (-place).toNat)) := by linarith
    exact_mod_cast hplace'
  refine isSome_gridPoint?_of_inside rfl rfl rfl ?_
  generalize n * 10 ^ (-place).toNat = unit at hgrid hunit ⊢
  generalize d * 10 ^ place.toNat = step at hgrid hstep ⊢
  have hmod := Nat.div_add_mod ((RoundingInterval.of significand exponent).center * unit) step
  generalize (RoundingInterval.of significand exponent).center * unit / step = below at hmod ⊢
  generalize (RoundingInterval.of significand exponent).center * unit % step = rest at hmod
  unfold RoundingInterval.of at hmod ⊢
  dsimp only at hmod ⊢
  rw [Nat.mul_comm step, Nat.mul_assoc] at hmod
  rw [Nat.sub_mul, Nat.add_mul, Nat.add_mul, Nat.mul_assoc]
  have hlt := Nat.mul_le_mul_right unit h.lt
  rw [Nat.succ_mul] at hlt
  split
  · rename_i hpower
    rw [hpower.1] at hmod hgrid ⊢
    omega
  · omega

/-- A number is at least the power of ten at its leading place. -/
theorem le_of_leadingPlace {n d : ℕ} (hn : 0 < n) (hd : 0 < d) :
    (10 : ℚ) ^ (leadingPlace n d - 1) ≤ n / d := by
  have hdQ : (0 : ℚ) < d := by exact_mod_cast hd
  unfold leadingPlace
  split
  · rename_i hle
    have hfloor : n / d ≠ 0 := (Nat.div_pos hle hd).ne'
    obtain ⟨hge, -, hpos⟩ := decimalLength_bounds hfloor
    rw [le_div_iff₀ hdQ,
      show (decimalLength (n / d) : ℤ) - 1 = ((decimalLength (n / d) - 1 : ℕ) : ℤ) by omega,
      zpow_natCast]
    have hscaled := (Nat.mul_le_mul_right d hge).trans (Nat.div_mul_le_self n d)
    exact_mod_cast hscaled
  · rename_i hlt
    have hle : d ≤ n * 10 ^ decimalLength ((d - 1) / n) := by
      have hceil : (d - 1) / n < 10 ^ decimalLength ((d - 1) / n) := by
        rcases Nat.eq_zero_or_pos ((d - 1) / n) with hzero | hpos
        · rw [hzero]
          decide
        · exact (decimalLength_bounds hpos.ne').2.1
      rw [Nat.div_lt_iff_lt_mul hn, Nat.mul_comm] at hceil
      omega
    have hleQ : (d : ℚ) ≤ n * 10 ^ decimalLength ((d - 1) / n) := by exact_mod_cast hle
    rw [show (1 : ℤ) - decimalLength ((d - 1) / n) - 1 = -decimalLength ((d - 1) / n) by omega,
      zpow_neg, zpow_natCast, le_div_iff₀ hdQ, inv_mul_le_iff₀ (by positivity), mul_comm]
    exact hleQ

/-- Trailing zeros of a number stand for a power of ten that divides it. -/
theorem pow_dvd_of_trailing (n : ℕ) :
    10 ^ ((Nat.toDigits 10 n).reverse.takeWhile (· = '0')).length ∣ n := by
  set zeros := (Nat.toDigits 10 n).reverse.takeWhile (· = '0') with hzeros
  have hall : zeros = List.replicate zeros.length '0' :=
    List.eq_replicate_of_mem fun c hc => by simpa using List.all_eq_true.mp List.all_takeWhile c hc
  have hsplit : Nat.toDigits 10 n =
      ((Nat.toDigits 10 n).reverse.dropWhile (· = '0')).reverse ++ zeros.reverse := by
    rw [← List.reverse_append, hzeros, List.takeWhile_append_dropWhile, List.reverse_reverse]
  have hvalue := Nat.ofDigitChars_ten_toDigits (n := n)
  rw [hsplit, hall, List.reverse_replicate, Nat.ofDigitChars_append,
    Nat.ofDigitChars_replicate_zero] at hvalue
  exact ⟨_, hvalue.symm⟩

/-- Removing trailing zeros keeps the value of a decimal. -/
theorem Decimal.value_normalize (x : Decimal) : x.normalize.value = x.value := by
  unfold normalize value
  dsimp only
  have hdvd := pow_dvd_of_trailing x.digits
  generalize ((Nat.toDigits 10 x.digits).reverse.takeWhile (· = '0')).length = zeros at hdvd ⊢
  rw [Nat.cast_div hdvd (by positivity), zpow_add₀ (by norm_num), zpow_natCast]
  push_cast
  field_simp

/-- The shortest digits of a positive double lie in its rounding interval. -/
theorem contains_shortest {significand : ℕ} {exponent : ℤ} (h : IsFinitePair significand exponent)
    (hpos : 0 < significand) :
    (RoundingInterval.of significand exponent).Contains
      (4 * ((shortest significand exponent).value / 2 ^ exponent)) := by
  unfold shortest
  dsimp only
  rw [Decimal.value_normalize]
  have hn : 0 < 2 ^ (exponent - 2).toNat := by positivity
  have hd : 0 < 2 ^ (2 - exponent).toNat := by positivity
  have hratio : ((2 ^ (exponent - 2).toNat : ℕ) : ℚ) / ((2 ^ (2 - exponent).toNat : ℕ) : ℚ) =
      2 ^ exponent / 4 := by
    have hsplit := zpow_eq_div 2 (exponent - 2)
    rw [zpow_sub₀ two_ne_zero, show -(exponent - 2) = 2 - exponent by omega] at hsplit
    push_cast
    rw [← hsplit]
    norm_num
  generalize 2 ^ (exponent - 2).toNat = n at hn hratio ⊢
  generalize 2 ^ (2 - exponent).toNat = d at hd hratio ⊢
  set interval := RoundingInterval.of significand exponent with hinterval
  have hcenter : interval.center = 4 * significand := rfl
  have hlower : interval.lower < interval.center := by
    rw [hcenter, hinterval]
    unfold RoundingInterval.of
    dsimp only
    split <;> omega
  have hupper : interval.center < interval.upper := Nat.lt_add_of_pos_right (by decide)
  have hleading := le_of_leadingPlace (n := interval.center * n) (d := d)
    (Nat.mul_pos (Nat.zero_lt_of_lt hlower) hn) hd
  generalize leadingPlace (interval.center * n) d = place at hleading ⊢
  -- The grid of seventeen digits has a point in the interval.
  have hlast : (gridPoint? interval n d (place - (16 + 1 : ℕ))).isSome := by
    refine isSome_gridPoint? h hn hd ?_
    rw [← zpow_natCast, ← zpow_add₀ (by norm_num)]
    rw [hcenter] at hleading
    push_cast at hleading ⊢
    rwa [show (16 : ℤ) + (place - 17) = place - 1 by omega]
  have hfound : ((List.range 17).findSome? fun (i : ℕ) =>
      gridPoint? interval n d (place - (i + 1 : ℕ))).isSome := by
    rw [List.findSome?_isSome_iff]
    exact ⟨16, by decide, hlast⟩
  obtain ⟨point, hpoint⟩ := Option.isSome_iff_exists.mp hfound
  rw [hpoint, Option.getD_some]
  obtain ⟨i, -, hgrid⟩ := List.exists_of_findSome?_eq_some hpoint
  have hcontains := contains_of_gridPoint? hlower hupper hn hd hgrid
  have hscale : point.value * d / n = 4 * (point.value / 2 ^ exponent) := by
    have hnQ : (n : ℚ) ≠ 0 := by positivity
    have hdQ : (d : ℚ) ≠ 0 := by positivity
    have hzpow : (2 : ℚ) ^ exponent ≠ 0 := by positivity
    field_simp at hratio ⊢
    rw [hratio]
  rwa [hscale] at hcontains

/-- The shortest digits of a positive double are rounded to it. -/
theorem ofDecimal_shortest {significand : ℕ} {exponent : ℤ} (negative : Bool)
    (h : IsFinitePair significand exponent) (hpos : 0 < significand) :
    ofDecimal negative (shortest significand exponent).digits
      (shortest significand exponent).exponent = .finite negative significand exponent :=
  ofDecimal_of_contains negative h hpos (contains_shortest h hpos)

end Css.Number
