import Daybook.Numeric.Decimal
import Daybook.Text.Reading
import Mathlib.Data.List.Basic
import Mathlib.Data.List.Induction
import Mathlib.Data.List.TakeWhile
import Mathlib.Tactic.Ring

/-!
# Digits

A row of digits stands for a number less than its power of ten, and the digits of a number
stand for that number. What is read off the front of a text is a front part of it.
-/

namespace Daybook

namespace Numeric

variable {n k : ℕ} {c : Char}

/-- A digit stands for a number below ten. -/
theorem digitValue_lt {c : Char} (h : c.isDigit = true) : digitValue c < 10 := by
  simp only [Char.isDigit, Bool.and_eq_true, decide_eq_true_eq, ge_iff_le,
    UInt32.le_iff_toNat_le] at h
  change c.toNat - 48 < 10
  have hlast : c.toNat ≤ 57 := h.2
  omega

/-- One more digit at the end multiplies the number by ten and adds the digit. -/
theorem ofDigits_concat (ds : List Char) (d : Char) :
    ofDigits (ds ++ [d]) = 10 * ofDigits ds + digitValue d := by
  simp [ofDigits]

/-- A number has no more digits than are written. -/
theorem ofDigits_lt {ds : List Char} (h : ∀ d ∈ ds, d.isDigit = true) :
    ofDigits ds < 10 ^ ds.length := by
  induction ds using List.reverseRecOn with
  | nil => simp [ofDigits]
  | append_singleton ds d ih =>
    have hrest := ih fun e he => h e (List.mem_append_left _ he)
    have hlast := digitValue_lt (h d (by simp))
    rw [ofDigits_concat, List.length_append, List.length_singleton, Nat.pow_succ]
    omega

/-- The digits behind others count for as much as if they stood alone, and lift the others by a
power of ten. -/
theorem ofDigits_append (cs ds : List Char) :
    ofDigits (cs ++ ds) = ofDigits cs * 10 ^ ds.length + ofDigits ds := by
  induction ds using List.reverseRecOn with
  | nil => simp [ofDigits]
  | append_singleton ds d ih =>
    rw [← List.append_assoc, ofDigits_concat, ih, ofDigits_concat, List.length_append,
      List.length_singleton, pow_succ]
    ring

/-- A row of zeros stands for zero. -/
theorem ofDigits_zeros (k : ℕ) : ofDigits (List.replicate k '0') = 0 := by
  induction k with
  | zero => rfl
  | succ k ih =>
    rw [List.replicate_succ', ofDigits_append, ih]
    rfl

/-- The characters of a row of zeros are digits. -/
theorem isDigit_of_mem_zeros (h : c ∈ List.replicate k '0') : c.isDigit = true := by
  rw [List.eq_of_mem_replicate h]
  rfl

/-- The digits of a number are read as that number. -/
@[simp] theorem ofDigits_digits (n : ℕ) : ofDigits (digits n) = n := Nat.ofDigitChars_ten_toDigits

/-- Every number has a digit, also zero. -/
theorem digits_ne_nil (n : ℕ) : digits n ≠ [] := Nat.toDigits_ne_nil

/-- A number is written with digits only. -/
theorem isDigit_of_mem_digits (h : c ∈ digits n) : c.isDigit = true :=
  Nat.isDigit_of_mem_toDigits (by decide) (by decide) h

/-- The digits of a number begin with a zero only for the number zero. -/
theorem head?_digits_ne_zero (h : n ≠ 0) : (digits n).head? ≠ some '0' := by
  induction n using Nat.strong_induction_on with
  | h n ih =>
    unfold digits at ih ⊢
    rw [Nat.toDigits_eq_if (by decide)]
    split
    · rename_i hsmall
      have hdigit : ∀ n : Fin 10, (n : ℕ) ≠ 0 → Nat.digitChar n ≠ '0' := by decide
      simpa using hdigit ⟨n, hsmall⟩ h
    · rename_i hlarge
      rw [List.head?_append_of_ne_nil _ Nat.toDigits_ne_nil]
      exact ih (n / 10) (by omega) (by omega)

/-- A number with some digits is below the power of ten with as many zeros. -/
theorem lt_pow_length_digits (n : ℕ) : n < 10 ^ (digits n).length :=
  (Nat.length_toDigits_le_iff (by decide) Nat.length_toDigits_pos).mp (Nat.le_refl _)

/-- A number that is not zero has no more digits than it needs. -/
theorem pow_length_digits_le (h : n ≠ 0) : 10 ^ ((digits n).length - 1) ≤ n := by
  by_cases hone : (digits n).length = 1
  · rw [hone]
    exact Nat.one_le_iff_ne_zero.mpr h
  · have hpos : 0 < (digits n).length := Nat.length_toDigits_pos
    by_contra hlt
    have := (Nat.length_toDigits_le_iff (b := 10) (by decide) (by omega)).mpr (Nat.not_le.mp hlt)
    unfold digits at *
    omega

/-- The zeros at the end of a row of characters are a row of zeros. -/
theorem append_trailing_zeros (cs : List Char) :
    (cs.reverse.dropWhile (· == '0')).reverse ++
      List.replicate (cs.reverse.takeWhile (· == '0')).length '0' = cs := by
  have hzeros : cs.reverse.takeWhile (· == '0') =
      List.replicate (cs.reverse.takeWhile (· == '0')).length '0' :=
    List.eq_replicate_iff.mpr ⟨rfl, fun c hc =>
      eq_of_beq (List.mem_takeWhile_imp (p := (· == '0')) hc)⟩
  calc (cs.reverse.dropWhile (· == '0')).reverse ++
        List.replicate (cs.reverse.takeWhile (· == '0')).length '0'
      = (cs.reverse.dropWhile (· == '0')).reverse ++ (cs.reverse.takeWhile (· == '0')).reverse := by
        rw [← List.reverse_replicate, ← hzeros]
    _ = (cs.reverse.takeWhile (· == '0') ++ cs.reverse.dropWhile (· == '0')).reverse := by
        rw [List.reverse_append]
    _ = cs := by rw [List.takeWhile_append_dropWhile, List.reverse_reverse]

/-- The zeros at the end of the digits of a number are factors of ten. -/
theorem pow_trailing_zeros_dvd (n : ℕ) :
    10 ^ ((digits n).reverse.takeWhile (· == '0')).length ∣ n := by
  have hvalue := congrArg ofDigits (append_trailing_zeros (digits n))
  rw [ofDigits_append, ofDigits_zeros, ofDigits_digits, List.length_replicate,
    Nat.add_zero] at hvalue
  exact ⟨_, by rw [Nat.mul_comm]; exact hvalue.symm⟩

end Numeric

section NoDigit

variable {front back cs : List Char} {c : Char}

/-- A text has no digit. -/
def HasNoDigit (cs : List Char) : Prop := ∀ c ∈ cs, c.isDigit = false

/-- The characters of the text are tried, where other instances would try every character there
is. -/
instance (cs : List Char) : Decidable (HasNoDigit cs) :=
  List.decidableBAll (fun c : Char => c.isDigit = false) cs

/-- A text has no digit if its two parts have none. -/
theorem hasNoDigit_append : HasNoDigit (front ++ back) ↔ HasNoDigit front ∧ HasNoDigit back :=
  List.forall_mem_append

/-- A text has no digit if its first character is none and the rest has none. -/
theorem hasNoDigit_cons : HasNoDigit (c :: cs) ↔ c.isDigit = false ∧ HasNoDigit cs :=
  List.forall_mem_cons

/-- Without digits there are none to count. -/
theorem HasNoDigit.countP (h : HasNoDigit cs) : cs.countP Char.isDigit = 0 :=
  List.countP_eq_zero.mpr fun c hc => by rw [h c hc]; decide

end NoDigit

namespace Numeric

/-- Digits are read off the front of a text. -/
theorem of_readDigits? {count n : Nat} {cs rest : List Char}
    (h : readDigits? count cs = some (n, rest)) :
    ∃ ds, cs = ds ++ rest ∧ ds.length = count ∧ (∀ d ∈ ds, d.isDigit = true) ∧
      n = ofDigits ds := by
  unfold readDigits? at h
  dsimp only at h
  split at h
  · rename_i hdigits
    cases h
    rw [Bool.and_eq_true, beq_iff_eq, List.all_eq_true] at hdigits
    exact ⟨cs.take count, (List.take_append_drop count cs).symm, hdigits.1, hdigits.2, rfl⟩
  · cases h

/-- A row of digits is read as a whole. -/
theorem readDigits?_append {ds : List Char} (hds : ∀ d ∈ ds, d.isDigit = true)
    (rest : List Char) : readDigits? ds.length (ds ++ rest) = some (ofDigits ds, rest) := by
  have hall : ds.all Char.isDigit = true := List.all_eq_true.mpr hds
  simp [readDigits?, hall]

end Numeric

namespace Text

/-- A mark that has been read was the first character of the text. -/
theorem of_readMark? {mark : Char} {cs rest : List Char} (h : readMark? mark cs = some rest) :
    cs = mark :: rest := by
  unfold readMark? readChar? at h
  split at h
  · cases h
  · split at h
    · rename_i hmark
      cases h
      rw [beq_iff_eq.mp hmark]
    · cases h

/-- A mark is read off a text that begins with it. -/
theorem readMark?_cons (mark : Char) (cs : List Char) : readMark? mark (mark :: cs) = some cs := by
  simp [readMark?, readChar?]

end Text

end Daybook
