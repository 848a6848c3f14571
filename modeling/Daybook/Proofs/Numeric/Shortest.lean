import Daybook.Proofs.Numeric.Rounding

/-!
# Numbers that are written and read

The shortest decimal form of a number of a format lies in the interval of the number, and so
is read as it. A number that two formats hold is taken from one to the other unchanged.
-/

namespace Daybook.Numeric.BinaryFormat

variable {f : BinaryFormat} {mantissa value : ℕ} {exponent power : ℤ} {negative : Bool}
  {decimal : Decimal} {tie : Tie}

/-- The test with integers tells exactly whether a decimal is near to a number. -/
theorem holds_iff : f.holds mantissa exponent decimal = true ↔
    f.IsNear mantissa exponent decimal.toRat := by
  unfold holds IsNear
  dsimp only
  obtain ⟨hd, hratio⟩ := scaled_ratio decimal.value (show 10 ≠ 0 by decide) one_ne_zero
    (-decimal.exponent)
  rw [Nat.cast_one, div_one, neg_neg, Nat.cast_ofNat, ← Decimal.toRat] at hratio
  generalize scaled 10 decimal.value 1 (-decimal.exponent) = first at *
  obtain ⟨hd', hratio'⟩ := scaled_ratio first.1 two_ne_zero hd (exponent - 2)
  rw [hratio, Nat.cast_ofNat, zpow_neg, ← div_eq_mul_inv] at hratio'
  generalize scaled 2 first.1 first.2 (exponent - 2) = second at *
  have hpos : (0 : ℚ) < second.2 := Nat.cast_pos.mpr (Nat.pos_of_ne_zero hd')
  have hpow := two_zpow_pos (exponent - 2)
  have hle : ∀ k : ℕ, k * second.2 ≤ second.1 ↔
      (k : ℚ) * 2 ^ (exponent - 2) ≤ decimal.toRat := fun k => by
    rw [← le_div_iff₀ hpow, ← hratio', le_div_iff₀ hpos]
    exact_mod_cast Iff.rfl
  have hge : ∀ k : ℕ, second.1 ≤ k * second.2 ↔
      decimal.toRat ≤ (k : ℚ) * 2 ^ (exponent - 2) := fun k => by
    rw [← div_le_iff₀ hpow, ← hratio', div_le_iff₀ hpos]
    exact_mod_cast Iff.rfl
  split
  · rw [Bool.and_eq_true, decide_eq_true_eq, decide_eq_true_eq, hle, hge]
  · rw [Bool.and_eq_true, decide_eq_true_eq, decide_eq_true_eq, ← not_le, ← not_le, hle, hge,
      not_le, not_le]

/-- All digits of a number are near enough to it, so that the search for fewer ends. -/
theorem isNear_exact (h : 0 < mantissa) :
    f.IsNear mantissa exponent (exact mantissa exponent).toRat := by
  have hvalue : (exact mantissa exponent).toRat = mantissa * 2 ^ exponent := by
    unfold exact Decimal.toRat
    split
    · rename_i hexponent
      obtain ⟨k, rfl⟩ := Int.eq_ofNat_of_zero_le hexponent
      simp
    · rename_i hexponent
      obtain ⟨k, hk⟩ := Int.eq_ofNat_of_zero_le (show 0 ≤ -exponent by omega)
      obtain rfl : exponent = -k := by omega
      simp only [neg_neg, Int.toNat_natCast, zpow_neg, zpow_natCast]
      change (((mantissa * 5 ^ k : ℕ) : ℚ)) * _ = _
      push_cast
      rw [show (10 : ℚ) = 5 * 2 by norm_num, mul_pow]
      field_simp
  rw [hvalue]
  exact isNear_self h

/-- The shortest form of a positive number lies in its interval. -/
theorem isNear_shortest (h : 0 < mantissa) :
    f.IsNear mantissa exponent (f.shortest tie mantissa exponent).toRat := by
  unfold shortest
  dsimp only
  rw [if_neg h.ne', Decimal.toRat_reduce]
  generalize hfound : (List.range 17).findSome? _ = found
  cases found with
  | none => exact isNear_exact h
  | some decimal =>
    obtain ⟨i, -, hgrid⟩ := List.exists_of_findSome?_eq_some hfound
    exact holds_iff.mp (List.find?_some hgrid)

/-- What is near to a number is positive, and below the power of two above the number. -/
theorem IsNear.bounds (hpos : 0 < mantissa) (hlt : mantissa < 2 ^ f.precision) {x : ℚ}
    (h : f.IsNear mantissa exponent x) :
    2 ^ (exponent - 1) ≤ x ∧ x ≤ 2 ^ (f.precision + exponent) := by
  obtain ⟨hlow, hhigh⟩ := h.le
  have hpow := two_zpow_pos exponent
  rw [interval_low hpos, two_zpow_sub_two] at hlow
  rw [interval_high, two_zpow_sub_two] at hhigh
  have hone : (1 : ℚ) ≤ mantissa := by exact_mod_cast hpos
  have htop : (mantissa : ℚ) + 1 ≤ 2 ^ f.precision := by exact_mod_cast hlt
  constructor
  · rw [zpow_sub_one₀ (by norm_num)]
    split at hlow <;> nlinarith
  · rw [zpow_add₀ (by norm_num), zpow_natCast]
    nlinarith

/-- A scaled quotient that stands for a number near to one of a format is rounded to it. -/
theorem round_scaled (h : f.IsNormal mantissa exponent) {base : ℕ} (hbase : base ≠ 0)
    (hnear : f.IsNear mantissa exponent (value * (base : ℚ) ^ power)) :
    f.round negative (scaled base value 1 (-power)).1 (scaled base value 1 (-power)).2 =
      .finite negative mantissa exponent := by
  obtain ⟨hd, hratio⟩ := scaled_ratio value hbase one_ne_zero (-power)
  rw [Nat.cast_one, div_one, neg_neg] at hratio
  refine round_eq h (fun hn => ?_) hd (hratio ▸ hnear)
  rw [hn, Nat.cast_zero, zero_div] at hratio
  have hpos := (hnear.bounds h.pos h.lt).1
  rw [← hratio] at hpos
  exact absurd hpos (not_le.mpr (two_zpow_pos _))

/-- The digits of a decimal before its point bound it. -/
theorem size_bounds (h : decimal.value ≠ 0) :
    (10 : ℚ) ^ ((digits decimal.value).length + decimal.exponent - 1) ≤ decimal.toRat ∧
      decimal.toRat < 10 ^ ((digits decimal.value).length + decimal.exponent) := by
  have hpow : (0 : ℚ) < 10 ^ decimal.exponent := zpow_pos (by norm_num) _
  have hlength : 0 < (digits decimal.value).length := Nat.length_toDigits_pos
  unfold Decimal.toRat
  constructor
  · rw [show ((digits decimal.value).length : ℤ) + decimal.exponent - 1 =
      ((digits decimal.value).length - 1 : ℕ) + decimal.exponent by omega,
      zpow_add₀ (by norm_num), zpow_natCast]
    gcongr
    exact_mod_cast pow_length_digits_le h
  · rw [zpow_add₀ (by norm_num), zpow_natCast]
    gcongr
    exact_mod_cast lt_pow_length_digits decimal.value

/-- A decimal near to a number of 64 bits is read as that number. -/
theorem ofDecimal_eq (h : double.IsNormal mantissa exponent)
    (hnear : double.IsNear mantissa exponent decimal.toRat) :
    double.ofDecimal negative decimal.value decimal.exponent =
      .finite negative mantissa exponent := by
  obtain ⟨hlow, hhigh⟩ := hnear.bounds h.pos h.lt
  have hvalue : decimal.value ≠ 0 := fun hzero => by
    rw [Decimal.toRat, hzero, Nat.cast_zero, zero_mul] at hlow
    exact absurd hlow (not_le.mpr (two_zpow_pos _))
  obtain ⟨hsize, hsize'⟩ := size_bounds hvalue
  have hfirst : -400 ≤ (digits decimal.value).length + decimal.exponent := by
    by_contra hsmall
    have hten : (10 : ℚ) ^ ((digits decimal.value).length + decimal.exponent) ≤ 10 ^ (-401 : ℤ) :=
      zpow_le_zpow_right₀ (by norm_num) (by omega)
    have htwo : (2 : ℚ) ^ (-1075 : ℤ) ≤ 2 ^ (exponent - 1) :=
      zpow_le_zpow_right₀ (by norm_num) (by have := h.least_le; simp only [double] at this; omega)
    have hgap : (2 : ℕ) ^ 1075 < 10 ^ 401 := by decide +kernel
    have hgap : (2 : ℚ) ^ (1075 : ℤ) < 10 ^ (401 : ℤ) := by exact_mod_cast hgap
    have hgap : (10 : ℚ) ^ (-401 : ℤ) < 2 ^ (-1075 : ℤ) := by
      rw [zpow_neg, zpow_neg]
      exact inv_strictAnti₀ (two_zpow_pos 1075) hgap
    exact absurd hsize' (not_lt.mpr (hten.trans (hgap.le.trans (htwo.trans hlow))))
  have hlast : (digits decimal.value).length + decimal.exponent ≤ 400 := by
    by_contra hlarge
    have hten :
        (10 : ℚ) ^ (400 : ℤ) ≤ 10 ^ ((digits decimal.value).length + decimal.exponent - 1) :=
      zpow_le_zpow_right₀ (by norm_num) (by omega)
    have htwo : (2 : ℚ) ^ (double.precision + exponent) ≤ 2 ^ (1024 : ℤ) :=
      zpow_le_zpow_right₀ (by norm_num) (by have := h.le_greatest; simp only [double] at *; omega)
    have hgap : (2 : ℕ) ^ 1024 < 10 ^ 400 := by decide +kernel
    have hgap : (2 : ℚ) ^ (1024 : ℤ) < 10 ^ (400 : ℤ) := by exact_mod_cast hgap
    exact absurd (hten.trans hsize) (not_le.mpr (lt_of_le_of_lt (hhigh.trans htwo) hgap))
  unfold digits at hfirst hlast
  unfold ofDecimal
  dsimp only
  rw [if_neg (by omega), if_neg (by omega)]
  exact round_scaled h (by decide) hnear

/-- A number that another format holds too is the same there. -/
theorem convert_eq {m : ℕ} {e : ℤ} (h : f.IsNormal mantissa exponent)
    (heq : (m : ℚ) * 2 ^ e = mantissa * 2 ^ exponent) :
    f.convert (.finite negative m e) = .finite negative mantissa exponent := by
  have hpos : (0 : ℚ) < m * 2 ^ e := by
    rw [heq]
    exact mul_pos (Nat.cast_pos.mpr h.pos) (two_zpow_pos exponent)
  have hm : m ≠ 0 := by
    rintro rfl
    simp at hpos
  unfold convert
  dsimp only
  rw [if_neg hm]
  exact round_scaled h (by decide) (heq ▸ isNear_self h.pos)

end Daybook.Numeric.BinaryFormat
