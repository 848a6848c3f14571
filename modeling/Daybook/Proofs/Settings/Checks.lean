import Daybook.Proofs.Numeric.Scores
import Daybook.Settings.Error

/-!
# What valid settings satisfy

A check finds no violation exactly when its condition on the value holds. Settings are valid
if each section has no violation.
-/

namespace Daybook.Settings

variable {s : Settings} {path message : String} {low high n : ℕ} {score : Score}

/-- A check finds nothing exactly if its condition does not hold. -/
theorem violationIf_eq_nil_iff {condition : Bool} :
    violationIf condition path message = [] ↔ condition = false := by
  cases condition with
  | false => simp [violationIf]
  | true => simp [violationIf]

/-- A size passes its check if it lies between the two limits. -/
theorem checkBetween_eq_nil_iff : checkBetween low high path n = [] ↔ low ≤ n ∧ n ≤ high := by
  unfold checkBetween
  rw [violationIf_eq_nil_iff, Bool.or_eq_false_iff, decide_eq_false_iff_not,
    decide_eq_false_iff_not, Nat.not_lt, Nat.not_lt]

/-- A score passes its check if it lies between zero and one, so that it is a number. -/
theorem checkUnit_eq_nil_iff : checkUnit path score = [] ↔ 0 ≤ score ∧ score ≤ 1 := by
  unfold checkUnit
  rw [violationIf_eq_nil_iff]
  simp

/-- A score between zero and one is finite. -/
theorem isFinite_of_checkUnit (h : checkUnit path score = []) : score.IsFinite := by
  obtain ⟨hlow, hhigh⟩ := checkUnit_eq_nil_iff.mp h
  exact Score.isFinite_of_unit hlow hhigh

/-- Settings are valid if no section has a violation. -/
theorem isValid_iff : s.isValid = true ↔
    checkMeta s.about = [] ∧ checkTimeLimits s.timeRange = [] ∧
      checkQueryLimits s.queryLimits = [] ∧ checkRetrieval s.retrieval = [] ∧
      checkScoring s.scoring = [] ∧ checkLexicon s.lexicon = [] := by
  simp only [isValid, List.isEmpty_iff, violations, List.append_eq_nil_iff, and_assoc]

end Daybook.Settings
