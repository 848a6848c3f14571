import Daybook.Numeric.Score
import Daybook.Proofs.Numeric.Shortest
import Daybook.Proofs.Records.Ranking
import Mathlib

/-!
# Scores as numbers

A score between zero and one is a number of 32 bits, which the format of 64 bits holds too.
Taken there and back, it is the same score.
-/

namespace Daybook

open Numeric

namespace Numeric.BinaryFormat

variable {mantissa : ℕ} {exponent : ℤ}

/-- Every number of 32 bits is one of 64 bits, with more bits after its last one. -/
theorem exists_double (h : single.IsNormal mantissa exponent) : ∃ m e,
    double.IsNormal m e ∧ (m : ℚ) * 2 ^ e = mantissa * 2 ^ exponent := by
  obtain ⟨hpos, hlt, -, hleast, hgreatest⟩ := h
  simp only [single] at hlt hleast hgreatest
  have hlog : mantissa.log2 < 24 := (Nat.log2_lt hpos.ne').mpr hlt
  have hlow := Nat.log2_self_le hpos.ne'
  have hhigh := Nat.lt_log2_self (n := mantissa)
  have hshift : ∀ k, 2 ^ k * 2 ^ (52 - mantissa.log2) = 2 ^ (k + (52 - mantissa.log2)) :=
    fun k => (pow_add 2 k _).symm
  refine ⟨mantissa * 2 ^ (52 - mantissa.log2), exponent - (52 - mantissa.log2 : ℕ),
    ⟨by positivity, ?_, .inl ?_, ?_, ?_⟩, ?_⟩
  · calc mantissa * 2 ^ (52 - mantissa.log2)
        < 2 ^ (mantissa.log2 + 1) * 2 ^ (52 - mantissa.log2) := by gcongr
      _ = 2 ^ 53 := by rw [hshift]; congr 1; omega
  · calc 2 ^ 52 = 2 ^ mantissa.log2 * 2 ^ (52 - mantissa.log2) := by rw [hshift]; congr 1; omega
      _ ≤ mantissa * 2 ^ (52 - mantissa.log2) := by gcongr
  · simp only [double]
    omega
  · simp only [double]
    omega
  · rw [zpow_sub₀ (by norm_num), zpow_natCast]
    push_cast
    field_simp

end Numeric.BinaryFormat

namespace Score

variable {s : Score} {negative : Bool} {mantissa : ℕ} {exponent : ℤ} {x : Number}

/-- A score is a number, and not infinite. -/
def IsFinite (s : Score) : Prop := s.toBits.toNat / hiddenBit % 256 ≠ 255

/-- The bits of the score that stands for a number of 32 bits. -/
def bitsOf (negative : Bool) (mantissa : ℕ) (exponent : ℤ) : ℕ :=
  (if negative then signBit else 0) +
    if mantissa < hiddenBit then mantissa else (exponent + 149).toNat * hiddenBit + mantissa

/-- A finite score is zero or a number of 32 bits, and its bits are those of that number. -/
theorem toNumber_cases (h : s.IsFinite) : ∃ negative mantissa exponent,
    s.toNumber = .finite negative mantissa exponent ∧
      s.toBits.toNat = bitsOf negative mantissa exponent ∧
      (mantissa = 0 ∨ BinaryFormat.single.IsNormal mantissa exponent) := by
  have hbits : s.toBits.toNat < 2 ^ 32 := s.toBits.toNat_lt
  have hconstants : hiddenBit = 2 ^ 23 ∧ signBit = 2 ^ 31 := ⟨rfl, rfl⟩
  unfold IsFinite at h
  unfold toNumber
  dsimp only
  rw [if_neg h]
  generalize s.toBits.toNat = bits at *
  split
  · rename_i hfield
    refine ⟨_, _, _, rfl, ?_, ?_⟩
    · simp only [bitsOf, hconstants, decide_eq_true_eq] at *
      split <;> split <;> omega
    · by_cases hzero : bits % hiddenBit = 0
      · exact .inl hzero
      · refine .inr ⟨Nat.pos_of_ne_zero hzero, ?_, .inr rfl, by decide, by decide⟩
        simp only [BinaryFormat.single, hconstants]
        omega
  · refine ⟨_, _, _, rfl, ?_, .inr ⟨?_, ?_, .inl ?_, ?_, ?_⟩⟩
    · simp only [bitsOf, hconstants, decide_eq_true_eq] at *
      split <;> split <;> omega
    all_goals
      simp only [BinaryFormat.single, hconstants] at *
      omega

/-- The score nearest to a number that stands for a score. -/
theorem ofNumber_eq (hx : BinaryFormat.single.convert x = .finite negative mantissa exponent)
    (hbits : s.toBits.toNat = bitsOf negative mantissa exponent) : ofNumber x = s := by
  unfold ofNumber
  rw [hx]
  change Float32.ofBits (UInt32.ofNat (bitsOf negative mantissa exponent)) = s
  rw [← hbits, UInt32.ofNat_toNat]
  exact Float32.ofBits_toBits s

/-- A finite score is a number of 64 bits, from which the score is got back. -/
theorem exists_widened (h : s.IsFinite) : ∃ negative mantissa exponent,
    BinaryFormat.double.convert s.toNumber = .finite negative mantissa exponent ∧
      ofNumber (.finite negative mantissa exponent) = s ∧
      ((mantissa = 0 ∧ exponent = 0) ∨ BinaryFormat.double.IsNormal mantissa exponent) := by
  obtain ⟨negative, mantissa, exponent, hnumber, hbits, hzero | hnormal⟩ := toNumber_cases h
  · subst hzero
    refine ⟨negative, 0, 0, by rw [hnumber]; rfl, ?_, .inl ⟨rfl, rfl⟩⟩
    have hzero : BinaryFormat.single.convert (.finite negative 0 0) = .finite negative 0 0 := rfl
    refine ofNumber_eq hzero ?_
    rw [hbits]
    simp [bitsOf, hiddenBit]
  · obtain ⟨m, e, hdouble, hvalue⟩ := BinaryFormat.exists_double hnormal
    refine ⟨negative, m, e, ?_, ?_, .inr hdouble⟩
    · rw [hnumber]
      exact BinaryFormat.convert_eq hdouble hvalue.symm
    · exact ofNumber_eq (BinaryFormat.convert_eq hnormal hvalue) hbits

open Float.Model in
/-- A score whose exponent has all bits is infinite, or no number. -/
theorem unpack_of_not_isFinite (h : ¬s.IsFinite) :
    (∃ sign, s.toModel.unpack = .infinity sign) ∨ s.toModel.unpack = .notANumber := by
  have hexponent : @UnpackedFloat.unpackExponent .binary32 s.toModel.toBits.toBitVec =
      -BitVec.ofNat Format.binary32.exponentBits 1 := by
    have hfield : s.toBits.toNat / hiddenBit % 256 = 255 := not_not.mp h
    rw [UnpackedFloat.unpackExponent_def]
    refine BitVec.eq_of_toNat_eq ?_
    rw [BitVec.extractLsb'_toNat, Nat.shiftRight_eq_div_pow]
    exact hfield
  unfold Float32.Model.unpack UnpackedFloat.unpack
  dsimp only
  rw [if_pos hexponent]
  split
  · exact .inl ⟨_, rfl⟩
  · exact .inr rfl

open Float.Model in
/-- A score between zero and one is neither infinite nor without a number. -/
theorem isFinite_of_unit (hlow : 0 ≤ s) (hhigh : s ≤ 1) : s.IsFinite := by
  have hends : (0 : Score).toModel.unpack.le (.infinity .negative) = false ∧
      UnpackedFloat.le (.infinity .positive) (1 : Score).toModel.unpack = false := by
    decide +kernel
  rw [le_iff_unpacked] at hlow hhigh
  by_contra h
  rcases unpack_of_not_isFinite h with ⟨sign, hsign⟩ | hnone
  · cases sign with
    | negative =>
      rw [hsign, hends.1] at hlow
      cases hlow
    | positive =>
      rw [hsign, hends.2] at hhigh
      cases hhigh
  · exact (ne_notANumber_of_le hlow).2 hnone

end Score

end Daybook
