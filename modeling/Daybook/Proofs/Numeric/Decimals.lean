import Daybook.Numeric.Shortest
import Daybook.Proofs.Numeric.Digits
import Mathlib.Algebra.Order.Field.Power
import Mathlib.Algebra.Order.Field.Rat
import Mathlib.Tactic.Linarith
import Mathlib.Tactic.Positivity
import Mathlib.Tactic.Ring

/-!
# Decimals that are written and read

A decimal in positional notation is a row of digits with a point in it, whose digits and
places stand for the decimal.
-/

namespace Daybook.Numeric

/-- The number that a decimal stands for. -/
def Decimal.toRat (d : Decimal) : ℚ := d.value * 10 ^ d.exponent

namespace Decimal

variable {d : Decimal}

/-- A decimal without the zeros at its end stands for the same number. -/
theorem toRat_reduce (d : Decimal) : d.reduce.toRat = d.toRat := by
  unfold reduce
  dsimp only
  generalize hzeros : ((digits d.value).reverse.takeWhile (· == '0')).length = zeros
  split
  · rename_i hvalue
    simp [toRat, hvalue]
  · obtain ⟨rest, hrest⟩ := hzeros ▸ pow_trailing_zeros_dvd d.value
    have hdiv : d.value / Nat.pow 10 zeros = rest := by
      rw [hrest]
      exact Nat.mul_div_cancel_left rest (Nat.pow_pos (by decide))
    simp only [toRat, hdiv]
    rw [zpow_add₀ (by norm_num), zpow_natCast]
    conv => rhs; rw [hrest]
    push_cast
    ring

/-- Only zero is reduced to zero. -/
theorem reduce_eq_zero_iff : d.reduce.value = 0 ↔ d.value = 0 := by
  have hrat := toRat_reduce d
  have hpow : ∀ exponent : ℤ, (10 : ℚ) ^ exponent ≠ 0 := fun exponent =>
    zpow_ne_zero exponent (by norm_num)
  constructor
  · intro h
    simpa [toRat, h, hpow] using hrat.symm
  · intro h
    simpa [toRat, h, hpow] using hrat

/-- The zero that remains of a decimal has no exponent. -/
theorem reduce_exponent (h : d.reduce.value = 0) : d.reduce.exponent = 0 := by
  rw [reduce_eq_zero_iff] at h
  unfold reduce
  simp [h]

/-- Digits with a point between them stand for a decimal. -/
structure IsPointed (d : Decimal) (whole places : List Char) : Prop where
  isDigit : ∀ c ∈ whole ++ places, c.isDigit = true
  whole_ne : whole ≠ []
  places_ne : places ≠ []
  /-- Only a zero before the point begins with a zero. -/
  leading : whole.head? = some '0' → whole.length = 1
  value : (ofDigits (whole ++ places) : ℚ) * 10 ^ (-places.length : ℤ) = d.toRat

/-- A decimal without places is written with the zeros that its exponent stands for, and a place of
its own behind the point. -/
theorem isPointed_whole (hzero : d.value = 0 → d.exponent = 0) (h : 0 ≤ d.exponent) :
    d.IsPointed (digits d.value ++ List.replicate d.exponent.toNat '0') ['0'] := by
  refine ⟨?_, by simp [digits_ne_nil], by simp, ?_, ?_⟩
  · simp only [List.mem_append, List.mem_singleton]
    rintro c ((hc | hc) | rfl)
    · exact isDigit_of_mem_digits hc
    · exact isDigit_of_mem_zeros hc
    · rfl
  · intro hhead
    rw [List.head?_append_of_ne_nil _ (digits_ne_nil _)] at hhead
    have hvalue : d.value = 0 := by
      by_contra hne
      exact head?_digits_ne_zero hne hhead
    rw [hvalue, hzero hvalue]
    rfl
  · have hexponent : (10 : ℚ) ^ d.exponent = 10 ^ d.exponent.toNat := by
      rw [← zpow_natCast, Int.toNat_of_nonneg h]
    rw [ofDigits_append, ofDigits_append, ofDigits_zeros, ofDigits_digits, List.length_replicate,
      toRat, hexponent]
    simp [ofDigits, digitValue]

/-- A decimal with fewer places than digits has its point between two digits. -/
theorem isPointed_split {places : ℕ} (hexponent : d.exponent = -places) (hpos : 0 < places)
    (hplaces : places < (digits d.value).length) :
    d.IsPointed ((digits d.value).take ((digits d.value).length - places))
      ((digits d.value).drop ((digits d.value).length - places)) := by
  have hlength : ((digits d.value).drop ((digits d.value).length - places)).length = places := by
    rw [List.length_drop]
    omega
  refine ⟨?_, ?_, ?_, ?_, ?_⟩
  · rw [List.take_append_drop]
    exact fun c => isDigit_of_mem_digits
  · rw [← List.length_pos_iff, List.length_take]
    omega
  · rw [← List.length_pos_iff, hlength]
    exact hpos
  · intro hhead
    rw [List.head?_take, if_neg (by omega)] at hhead
    have hvalue : d.value = 0 := by
      by_contra hne
      exact head?_digits_ne_zero hne hhead
    have hone : (digits 0).length = 1 := rfl
    rw [hvalue] at hplaces
    omega
  · rw [List.take_append_drop, ofDigits_digits, hlength, toRat, hexponent]

/-- A decimal with at least as many places as digits is written behind a zero and the point, with
the zeros that are missing. -/
theorem isPointed_small {places : ℕ} (hexponent : d.exponent = -places)
    (hplaces : (digits d.value).length ≤ places) :
    d.IsPointed ['0']
      (List.replicate (places - (digits d.value).length) '0' ++ digits d.value) := by
  refine ⟨?_, by simp, by simp [digits_ne_nil], fun _ => rfl, ?_⟩
  · simp only [List.mem_append, List.mem_singleton]
    rintro c (rfl | hc | hc)
    · rfl
    · exact isDigit_of_mem_zeros hc
    · exact isDigit_of_mem_digits hc
  · have hlength : (List.replicate (places - (digits d.value).length) '0' ++
        digits d.value).length = places := by
      rw [List.length_append, List.length_replicate]
      omega
    rw [hlength, ofDigits_append, ofDigits_append, ofDigits_zeros, ofDigits_digits, toRat,
      hexponent]
    simp [ofDigits, digitValue]

/-- A decimal is written with a point, which a whole number gets with a zero behind it. -/
theorem exists_isPointed (hzero : d.value = 0 → d.exponent = 0) :
    ∃ whole places, d.IsPointed whole places ∧
      d.positional ++ (if 0 ≤ d.exponent then ['.', '0'] else []) = whole ++ '.' :: places := by
  unfold positional
  by_cases hwhole : 0 ≤ d.exponent
  · exact ⟨_, _, isPointed_whole hzero hwhole, by simp [hwhole]⟩
  · have hexponent : d.exponent = -(-d.exponent).toNat := by omega
    simp only [if_neg hwhole, List.append_nil]
    split
    · rename_i hplaces
      exact ⟨_, _, isPointed_split hexponent (by omega) hplaces, rfl⟩
    · rename_i hplaces
      exact ⟨_, _, isPointed_small hexponent (Nat.not_lt.mp hplaces), rfl⟩

end Decimal

end Daybook.Numeric
