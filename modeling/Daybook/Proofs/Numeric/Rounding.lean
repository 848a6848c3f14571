import Daybook.Proofs.Numeric.Decimals
import Mathlib.Data.Int.Log
import Mathlib.Data.Rat.Floor

/-!
# Rounding to a binary format

A quotient that lies in the interval of a number of a format is rounded to that number. So a
number of one format that another one holds too is the same there, and a decimal that lies in
the interval of a number reads back as it.
-/

namespace Daybook.Numeric

/-- Powers of two are positive, with negative exponents as well. -/
theorem two_zpow_pos (exponent : ℤ) : (0 : ℚ) < 2 ^ exponent := zpow_pos (by norm_num) exponent

/-- The ends of intervals are given in quarters of the last bit. -/
theorem two_zpow_sub_two (exponent : ℤ) : (2 : ℚ) ^ (exponent - 2) = 1 / 4 * 2 ^ exponent := by
  rw [zpow_sub₀ (by norm_num)]
  norm_num
  ring

/-- A quotient is rounded to an integer that is not more than a half away, and is even where it
is a half away. -/
theorem roundQuotient_eq {n d m : ℕ} (hd : 0 < d) (hlow : 2 * m * d ≤ 2 * n + d)
    (hhigh : 2 * n ≤ 2 * m * d + d)
    (heven : m % 2 = 1 → 2 * m * d ≠ 2 * n + d ∧ 2 * n ≠ 2 * m * d + d) :
    roundQuotient n d = m := by
  have hsplit := Nat.div_add_mod n d
  have hrest := Nat.mod_lt n hd
  unfold roundQuotient
  dsimp only
  generalize n / d = quotient at *
  generalize n % d = rest at *
  have hfirst : quotient ≤ m := by
    by_contra hlt
    have := Nat.mul_le_mul_left d (show m + 1 ≤ quotient by omega)
    nlinarith
  have hlast : m ≤ quotient + 1 := by
    by_contra hlt
    have := Nat.mul_le_mul_left d (show quotient + 2 ≤ m by omega)
    nlinarith
  obtain rfl | rfl : m = quotient ∨ m = quotient + 1 := by omega
  · have hproduct : 2 * m * d = 2 * (d * m) := by ring
    rw [hproduct] at hlow hhigh heven
    rw [if_neg]
    omega
  · have hproduct : 2 * (quotient + 1) * d = 2 * (d * quotient) + 2 * d := by ring
    rw [hproduct] at hlow hhigh heven
    rw [if_pos]
    omega

/-- A quotient is rounded to an integer that it is at most a half away from, if the integer is even
wherever it is a half. -/
theorem roundQuotient_eq_of_ratio {n d m : ℕ} (hd : d ≠ 0) (hlow : (m : ℚ) - 1 / 2 ≤ n / d)
    (hhigh : (n / d : ℚ) ≤ m + 1 / 2)
    (heven : m % 2 = 1 → (m : ℚ) - 1 / 2 < n / d ∧ (n / d : ℚ) < m + 1 / 2) :
    roundQuotient n d = m := by
  have hd' : (0 : ℚ) < d := Nat.cast_pos.mpr (Nat.pos_of_ne_zero hd)
  rw [le_div_iff₀ hd'] at hlow
  rw [div_le_iff₀ hd'] at hhigh
  rw [lt_div_iff₀ hd', div_lt_iff₀ hd'] at heven
  refine roundQuotient_eq (Nat.pos_of_ne_zero hd) ?_ ?_ fun hodd => ⟨fun heq => ?_, fun heq => ?_⟩
  · have : (2 * m * d : ℚ) ≤ 2 * n + d := by linarith
    exact_mod_cast this
  · have : (2 * n : ℚ) ≤ 2 * m * d + d := by linarith
    exact_mod_cast this
  · have hlt := (heven hodd).1
    have heq : (2 * m * d : ℚ) = 2 * n + d := by exact_mod_cast heq
    linarith
  · have hlt := (heven hodd).2
    have heq : (2 * n : ℚ) = 2 * m * d + d := by exact_mod_cast heq
    linarith

/-- A quotient that is scaled is divided by a power of the base. -/
theorem scaled_ratio (numerator : ℕ) {base denominator : ℕ} (hbase : base ≠ 0)
    (hd : denominator ≠ 0) (exponent : ℤ) : (scaled base numerator denominator exponent).2 ≠ 0 ∧
      ((scaled base numerator denominator exponent).1 : ℚ) /
        (scaled base numerator denominator exponent).2 =
          numerator / denominator * (base : ℚ) ^ (-exponent) := by
  have hpow : ∀ k : ℕ, base ^ k ≠ 0 := fun k => pow_ne_zero k hbase
  have hbase' : (base : ℚ) ≠ 0 := Nat.cast_ne_zero.mpr hbase
  have hd' : (denominator : ℚ) ≠ 0 := Nat.cast_ne_zero.mpr hd
  unfold scaled
  split
  · rename_i hexponent
    obtain ⟨k, rfl⟩ := Int.eq_ofNat_of_zero_le hexponent
    refine ⟨Nat.mul_ne_zero hd (hpow _), ?_⟩
    change (numerator : ℚ) / ((denominator * base ^ k : ℕ) : ℚ) = _
    rw [zpow_neg, zpow_natCast]
    push_cast
    rw [div_mul_eq_div_div, div_eq_mul_inv _ ((base : ℚ) ^ k)]
  · rename_i hexponent
    obtain ⟨k, hk⟩ := Int.eq_ofNat_of_zero_le (show 0 ≤ -exponent by omega)
    refine ⟨hd, ?_⟩
    rw [hk]
    change (((numerator * base ^ k : ℕ) : ℚ)) / _ = _
    rw [zpow_natCast]
    push_cast
    ring

namespace BinaryFormat

variable {f : BinaryFormat} {mantissa n d : ℕ} {exponent : ℤ} {value : ℚ} {negative : Bool}

/-- The way in which a format holds a positive number: with all its bits, or with the least
exponent. -/
structure IsNormal (f : BinaryFormat) (mantissa : ℕ) (exponent : ℤ) : Prop where
  pos : 0 < mantissa
  lt : mantissa < 2 ^ f.precision
  full : 2 ^ (f.precision - 1) ≤ mantissa ∨ exponent = f.least
  least_le : f.least ≤ exponent
  le_greatest : exponent ≤ f.greatest

/-- A number lies in the interval of `mantissa` · 2^`exponent`, whose ends belong to it if the
mantissa is even. -/
def IsNear (f : BinaryFormat) (mantissa : ℕ) (exponent : ℤ) (value : ℚ) : Prop :=
  if mantissa % 2 = 0 then
    (f.interval mantissa exponent).1 * 2 ^ (exponent - 2) ≤ value ∧
      value ≤ (f.interval mantissa exponent).2 * 2 ^ (exponent - 2)
  else
    (f.interval mantissa exponent).1 * 2 ^ (exponent - 2) < value ∧
      value < (f.interval mantissa exponent).2 * 2 ^ (exponent - 2)

/-- What is near to a number lies between the ends of its interval, whether these belong to it or
not. -/
theorem IsNear.le (h : f.IsNear mantissa exponent value) :
    (f.interval mantissa exponent).1 * 2 ^ (exponent - 2) ≤ value ∧
      value ≤ (f.interval mantissa exponent).2 * 2 ^ (exponent - 2) := by
  unfold IsNear at h
  split at h
  · exact h
  · exact ⟨h.1.le, h.2.le⟩

/-- The exponent with which a positive quotient has all its bits before the point. -/
def topExponent (f : BinaryFormat) (n d : ℕ) : ℤ :=
  let guess : ℤ := (Nat.log2 n : ℤ) - Nat.log2 d - f.precision
  if 2 ^ f.precision ≤ (scaled 2 n d guess).1 / (scaled 2 n d guess).2 then guess + 1 else guess

/-- The logarithms of a numerator and a denominator bound that of the quotient. -/
theorem log2_bounds (hn : n ≠ 0) (hd : d ≠ 0) :
    (2 : ℚ) ^ ((n.log2 : ℤ) - d.log2 - 1) ≤ n / d ∧
      (n / d : ℚ) < 2 ^ ((n.log2 : ℤ) - d.log2 + 1) := by
  have hd' : (0 : ℚ) < d := Nat.cast_pos.mpr (Nat.pos_of_ne_zero hd)
  have hlow : (2 : ℚ) ^ n.log2 ≤ n := by exact_mod_cast Nat.log2_self_le hn
  have hhigh : (n : ℚ) < 2 ^ (n.log2 + 1) := by exact_mod_cast Nat.lt_log2_self
  have hlow' : (2 : ℚ) ^ d.log2 ≤ d := by exact_mod_cast Nat.log2_self_le hd
  have hhigh' : (d : ℚ) < 2 ^ (d.log2 + 1) := by exact_mod_cast Nat.lt_log2_self
  have hsub : ∀ a b : ℕ, (2 : ℚ) ^ ((a : ℤ) - b) = 2 ^ a / 2 ^ b := fun a b => by
    rw [zpow_sub₀ (by norm_num), zpow_natCast, zpow_natCast]
  constructor
  · rw [show (n.log2 : ℤ) - d.log2 - 1 = (n.log2 : ℤ) - (d.log2 + 1 : ℕ) by push_cast; ring, hsub]
    exact div_le_div₀ (by positivity) hlow hd' hhigh'.le
  · rw [show (n.log2 : ℤ) - d.log2 + 1 = ((n.log2 + 1 : ℕ) : ℤ) - d.log2 by push_cast; ring, hsub]
    exact div_lt_div₀ hhigh hlow' (by positivity) (by positivity)

/-- The exponent that is found from the numbers of bits is the one that the logarithm of the
quotient tells: it has one bit more than is guessed, or not. -/
theorem topExponent_eq (hn : n ≠ 0) (hd : d ≠ 0) :
    f.topExponent n d = Int.log 2 (n / d : ℚ) + 1 - f.precision := by
  have hpos : (0 : ℚ) < n / d := by positivity
  obtain ⟨hlow, hhigh⟩ := log2_bounds hn hd
  rw [← Nat.cast_ofNat (R := ℚ), Int.zpow_le_iff_le_log (by decide) hpos] at hlow
  rw [← Nat.cast_ofNat (R := ℚ), Int.lt_zpow_iff_log_lt (by decide) hpos] at hhigh
  unfold topExponent
  dsimp only
  generalize hguess : (n.log2 : ℤ) - d.log2 - f.precision = guess
  obtain ⟨hd', hratio⟩ := scaled_ratio n two_ne_zero hd guess
  rw [Nat.cast_ofNat] at hratio
  have hcompare : 2 ^ f.precision ≤ (scaled 2 n d guess).1 / (scaled 2 n d guess).2 ↔
      f.precision + guess ≤ Int.log 2 (n / d : ℚ) := by
    rw [Nat.le_div_iff_mul_le (Nat.pos_of_ne_zero hd'), ← Int.zpow_le_iff_le_log (by decide) hpos,
      zpow_add₀ (by norm_num), zpow_natCast, Nat.cast_ofNat, ← le_div_iff₀ (two_zpow_pos guess),
      div_eq_mul_inv _ ((2 : ℚ) ^ guess), ← zpow_neg, ← hratio,
      le_div_iff₀ (Nat.cast_pos.mpr (Nat.pos_of_ne_zero hd'))]
    exact_mod_cast Iff.rfl
  by_cases h : f.precision + guess ≤ Int.log 2 (n / d : ℚ)
  · rw [if_pos (hcompare.mpr h)]
    omega
  · rw [if_neg (mt hcompare.mp h)]
    omega

/-- The lower end of the interval of a number is a half of the last bit below it, or a quarter
where the numbers below lie closer together. -/
theorem interval_low (hpos : 0 < mantissa) : ((f.interval mantissa exponent).1 : ℚ) =
    4 * mantissa - if mantissa = 2 ^ (f.precision - 1) ∧ f.least < exponent then 1 else 2 := by
  unfold interval
  dsimp only
  rw [Nat.cast_sub (by split <;> omega)]
  push_cast
  rfl

/-- The upper end of the interval of a number is a half of the last bit above it. -/
theorem interval_high : ((f.interval mantissa exponent).2 : ℚ) = 4 * mantissa + 2 := by
  simp [interval]

/-- A number is near to itself. -/
theorem isNear_self (h : 0 < mantissa) : f.IsNear mantissa exponent (mantissa * 2 ^ exponent) := by
  have hpow := two_zpow_pos exponent
  have hends : (f.interval mantissa exponent).1 * (2 : ℚ) ^ (exponent - 2) <
      mantissa * 2 ^ exponent ∧ (mantissa : ℚ) * 2 ^ exponent <
        (f.interval mantissa exponent).2 * 2 ^ (exponent - 2) := by
    rw [interval_low h, interval_high, two_zpow_sub_two]
    constructor
    · split <;> nlinarith
    · nlinarith
  unfold IsNear
  split
  · exact ⟨hends.1.le, hends.2.le⟩
  · exact hends

/-- What is near to a number, in units of its last bit. -/
theorem IsNear.ratio (hpos : 0 < mantissa) (h : f.IsNear mantissa exponent value) :
    ((mantissa : ℚ) - 1 / 2 ≤ value * 2 ^ (-exponent) ∧
      value * 2 ^ (-exponent) ≤ mantissa + 1 / 2) ∧
    (mantissa % 2 = 1 → (mantissa : ℚ) - 1 / 2 < value * 2 ^ (-exponent) ∧
      value * 2 ^ (-exponent) < mantissa + 1 / 2) ∧
    (mantissa = 2 ^ (f.precision - 1) → f.least < exponent →
      (mantissa : ℚ) - 1 / 4 ≤ value * 2 ^ (-exponent)) := by
  obtain ⟨ratio, rfl⟩ : ∃ ratio, value = ratio * 2 ^ exponent :=
    ⟨value / 2 ^ exponent, (div_mul_cancel₀ _ (two_zpow_pos exponent).ne').symm⟩
  have hcancel : ratio * 2 ^ exponent * 2 ^ (-exponent) = ratio := by
    rw [zpow_neg, mul_assoc, mul_inv_cancel₀ (two_zpow_pos exponent).ne', mul_one]
  have hscale : ∀ x : ℚ, x * 2 ^ (exponent - 2) = x / 4 * 2 ^ exponent := fun x => by
    rw [two_zpow_sub_two]
    ring
  have hle := h.le
  unfold IsNear at h
  rw [hcancel]
  rw [hscale, hscale, interval_low hpos, interval_high] at h hle
  simp only [mul_le_mul_iff_left₀ (two_zpow_pos exponent),
    mul_lt_mul_iff_left₀ (two_zpow_pos exponent)] at h hle
  refine ⟨⟨?_, by linarith⟩, fun hodd => ?_, fun hleast hexponent => ?_⟩
  · split at hle <;> linarith
  · rw [if_neg (by omega)] at h
    refine ⟨?_, by linarith⟩
    split at h <;> linarith
  · rw [if_pos ⟨hleast, hexponent⟩] at hle
    linarith

/-- An exponent with which a quotient has all its bits before the point. -/
theorem le_topExponent_iff {bits : ℕ} (hbits : f.precision = bits + 1) (exponent : ℤ) (hn : n ≠ 0)
    (hd : d ≠ 0) {least : ℤ} : least ≤ f.topExponent n d ↔
      (2 : ℚ) ^ (bits + least - exponent) ≤ (n / d : ℚ) * 2 ^ (-exponent) := by
  have hpos : (0 : ℚ) < n / d := by positivity
  rw [zpow_sub₀ (by norm_num), zpow_neg, ← div_eq_mul_inv,
    div_le_div_iff_of_pos_right (two_zpow_pos exponent), topExponent_eq hn hd, hbits,
    ← Nat.cast_ofNat (R := ℚ), Int.zpow_le_iff_le_log (by decide) hpos]
  push_cast
  omega

/-- A mantissa that has got a bit too many by rounding, with the next exponent. -/
def carry (f : BinaryFormat) (rounded : ℕ) (exponent : ℤ) : ℕ × ℤ :=
  if rounded = 2 ^ f.precision then (2 ^ (f.precision - 1), exponent + 1) else (rounded, exponent)

/-- A quotient whose exponent is known is rounded as an integer, with a bit carried over. -/
theorem round_eq_carry (h : max f.least (f.topExponent n d) = exponent) :
    f.round negative n d =
      let carried := f.carry
        (roundQuotient (scaled 2 n d exponent).1 (scaled 2 n d exponent).2) exponent
      if f.greatest < carried.2 then .infinite negative
      else .finite negative carried.1 carried.2 := by
  subst h
  rfl

section Ratio

variable {bits : ℕ} (hbits : f.precision = bits + 1) (hn : n ≠ 0) (hd : d ≠ 0)

include hbits hn hd

/-- A quotient with all its bits before the point, or with the least exponent, is rounded with
its own exponent. -/
theorem round_eq_of_ratio (hlt : mantissa < 2 ^ (bits + 1)) (hleast : f.least ≤ exponent)
    (hgreatest : exponent ≤ f.greatest)
    (hreach : (2 : ℚ) ^ bits ≤ n / d * 2 ^ (-exponent) ∨ exponent = f.least)
    (hlow : (mantissa : ℚ) - 1 / 2 ≤ n / d * 2 ^ (-exponent))
    (hhigh : (n / d : ℚ) * 2 ^ (-exponent) ≤ mantissa + 1 / 2)
    (hodd : mantissa % 2 = 1 → (mantissa : ℚ) - 1 / 2 < n / d * 2 ^ (-exponent) ∧
      (n / d : ℚ) * 2 ^ (-exponent) < mantissa + 1 / 2) :
    f.round negative n d = .finite negative mantissa exponent := by
  have hexponent : max f.least (f.topExponent n d) = exponent := by
    have hbound : ¬exponent + 1 ≤ f.topExponent n d := by
      rw [le_topExponent_iff hbits exponent hn hd,
        show (bits : ℤ) + (exponent + 1) - exponent = (bits + 1 : ℕ) by push_cast; ring,
        zpow_natCast, not_le]
      have hle : (mantissa : ℚ) + 1 ≤ 2 ^ (bits + 1) := by exact_mod_cast hlt
      linarith
    rcases hreach with hreach | hreach
    · have : exponent ≤ f.topExponent n d := by
        rw [le_topExponent_iff hbits exponent hn hd, add_sub_cancel_right, zpow_natCast]
        exact hreach
      omega
    · omega
  obtain ⟨hd', hquotient⟩ := scaled_ratio n two_ne_zero hd exponent
  rw [Nat.cast_ofNat] at hquotient
  have hrounded :
      roundQuotient (scaled 2 n d exponent).1 (scaled 2 n d exponent).2 = mantissa := by
    refine roundQuotient_eq_of_ratio hd' ?_ ?_ ?_ <;> rw [hquotient] <;> assumption
  rw [round_eq_carry hexponent, hrounded, carry, hbits, if_neg (Nat.ne_of_lt hlt)]
  exact if_neg (Int.not_lt.mpr hgreatest)

/-- A quotient just below a power of two is rounded with the exponent before, and carries a bit
over to the power. -/
theorem round_eq_of_ratio_below (hleast : f.least < exponent) (hgreatest : exponent ≤ f.greatest)
    (hlow : (2 : ℚ) ^ bits - 1 / 4 ≤ n / d * 2 ^ (-exponent))
    (hhigh : (n / d : ℚ) * 2 ^ (-exponent) < 2 ^ bits) :
    f.round negative n d = .finite negative (2 ^ bits) exponent := by
  have hone : (1 : ℚ) ≤ 2 ^ bits := one_le_pow₀ (by norm_num)
  have hexponent : max f.least (f.topExponent n d) = exponent - 1 := by
    have hbound : ¬exponent ≤ f.topExponent n d := by
      rw [le_topExponent_iff hbits exponent hn hd, add_sub_cancel_right, zpow_natCast, not_le]
      exact hhigh
    have hreached : exponent - 1 ≤ f.topExponent n d := by
      rw [le_topExponent_iff hbits exponent hn hd,
        show (bits : ℤ) + (exponent - 1) - exponent = bits - 1 by ring,
        zpow_sub_one₀ (by norm_num), zpow_natCast]
      linarith
    omega
  obtain ⟨hd', hquotient⟩ := scaled_ratio n two_ne_zero hd (exponent - 1)
  have hdouble : (2 : ℚ) ^ (-(exponent - 1)) = 2 ^ (-exponent) * 2 := by
    rw [neg_sub, sub_eq_add_neg, add_comm, zpow_add_one₀ (by norm_num)]
  rw [Nat.cast_ofNat, hdouble, ← mul_assoc] at hquotient
  have hrounded : roundQuotient (scaled 2 n d (exponent - 1)).1
      (scaled 2 n d (exponent - 1)).2 = 2 ^ (bits + 1) := by
    refine roundQuotient_eq_of_ratio hd' ?_ ?_ fun hodd => ?_
    · rw [hquotient, pow_succ]
      push_cast
      linarith
    · rw [hquotient, pow_succ]
      push_cast
      linarith
    · rw [pow_succ] at hodd
      omega
  rw [round_eq_carry hexponent, hrounded, carry, hbits, if_pos rfl, sub_add_cancel,
    Nat.add_sub_cancel]
  exact if_neg (Int.not_lt.mpr hgreatest)

end Ratio

/-- What is near to a number of a format is rounded to it. If it lies below the numbers of that
size, the number is a power of two. -/
theorem round_eq (h : f.IsNormal mantissa exponent) (hn : n ≠ 0) (hd : d ≠ 0)
    (hnear : f.IsNear mantissa exponent (n / d)) :
    f.round negative n d = .finite negative mantissa exponent := by
  obtain ⟨⟨hlow, hhigh⟩, hodd, hcloser⟩ := hnear.ratio h.pos
  obtain ⟨hpos, hlt, hfull, hleast, hgreatest⟩ := h
  obtain ⟨bits, hbits⟩ : ∃ bits, f.precision = bits + 1 := by
    refine Nat.exists_eq_succ_of_ne_zero fun hzero => ?_
    rw [hzero] at hlt
    omega
  rw [hbits] at hlt hfull hcloser
  rw [Nat.add_sub_cancel] at hfull hcloser
  by_cases hreach : (2 : ℚ) ^ bits ≤ n / d * 2 ^ (-exponent) ∨ exponent = f.least
  · exact round_eq_of_ratio hbits hn hd hlt hleast hgreatest hreach hlow hhigh hodd
  · obtain ⟨hbelow, hnotLeast⟩ := not_or.mp hreach
    rw [not_le] at hbelow
    obtain rfl : mantissa = 2 ^ bits := by
      have hle : (mantissa : ℚ) < (2 ^ bits : ℕ) + 1 := by
        push_cast
        linarith
      have hle : mantissa < 2 ^ bits + 1 := by exact_mod_cast hle
      have hge := hfull.resolve_right hnotLeast
      omega
    have hquarter := hcloser rfl (by omega)
    rw [Nat.cast_pow, Nat.cast_ofNat] at hquarter
    exact round_eq_of_ratio_below hbits hn hd (by omega) hgreatest hquarter hbelow

end BinaryFormat

end Daybook.Numeric
