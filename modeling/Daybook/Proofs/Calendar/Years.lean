import Daybook.Calendar.Instant
import Mathlib.Tactic.IntervalCases

/-!
# Years and months

The year, month and day that are read off a date lead back to it, and bound it: a date
lies between the first day of its year and that of the next.
-/

namespace Daybook

/-- The rule for leap years, with the remainders of the year in place of a test. -/
theorem isLeapYear_iff {year : Int} :
    isLeapYear year = true ↔ year % 4 = 0 ∧ (year % 100 ≠ 0 ∨ year % 400 = 0) := by
  simp [isLeapYear]

/-- The days before the years of the calendar add up year by year. -/
theorem daysBeforeYear_succ (year : Int) :
    daysBeforeYear (year + 1) = daysBeforeYear year + if isLeapYear year then 366 else 365 := by
  have hleap : isLeapYear year = true ↔ _ := isLeapYear_iff
  simp only [daysBeforeYear]
  by_cases h : isLeapYear year = true
  · rw [if_pos h]
    have := hleap.mp h
    omega
  · rw [if_neg h]
    rw [hleap] at h
    omega

/-- A later year has no fewer days before it. -/
theorem daysBeforeYear_mono {a b : Int} (h : a ≤ b) : daysBeforeYear a ≤ daysBeforeYear b := by
  simp only [daysBeforeYear]
  omega

/-- The first day of a year in the cycle of 400 years, and that of the year after it. -/
theorem daysBeforeYear_cycle (era : Int) {century four past : Int}
    (hcentury : 0 ≤ century ∧ century ≤ 3) (hfour : 0 ≤ four ∧ four ≤ 24)
    (hpast : 0 ≤ past ∧ past ≤ 3) :
    let year := 400 * era + 100 * century + 4 * four + past + 1
    let first := 146097 * era + 36524 * century + 1461 * four + 365 * past
    daysBeforeYear year = first ∧ daysBeforeYear (year + 1) =
      first + if past = 3 ∧ (four ≠ 24 ∨ century = 3) then 366 else 365 := by
  intro year first
  simp only [daysBeforeYear, year, first]
  split <;> omega

/-- A day lies in the year that is read off it, as many days after the first of that year as are
read off. The last year of four, of a century and of the cycle may be a day longer. -/
theorem yearAndDay_spec (count : Int) :
    let (year, day) := Date.yearAndDay count
    daysBeforeYear year + day = count ∧ 0 ≤ day ∧ count < daysBeforeYear (year + 1) := by
  unfold Date.yearAndDay
  dsimp only
  generalize hera : count / 146097 = era
  generalize hinEra : count % 146097 = inEra
  generalize hcentury : min 3 (inEra / 36524) = century
  generalize hinCentury : inEra - 36524 * century = inCentury
  generalize hfour : inCentury / 1461 = four
  generalize hinFour : inCentury - 1461 * four = inFour
  generalize hpast : min 3 (inFour / 365) = past
  have hcount : 0 ≤ inEra ∧ inEra < 146097 ∧ count = 146097 * era + inEra := by omega
  have hcenturies : (0 ≤ century ∧ century ≤ 3) ∧ 0 ≤ inCentury ∧
      inCentury < 36524 + if century = 3 then 1 else 0 := by split <;> omega
  have hfours : (0 ≤ four ∧ four ≤ 24) ∧ 0 ≤ inFour ∧ inFour < 1461 := by
    split at hcenturies <;> omega
  have hyears : (0 ≤ past ∧ past ≤ 3) ∧ 0 ≤ inFour - 365 * past := by omega
  obtain ⟨hfirst, hnext⟩ := daysBeforeYear_cycle era hcenturies.1 hfours.1 hyears.1
  rw [hfirst, hnext]
  refine ⟨by omega, by omega, ?_⟩
  split at hcenturies <;> split <;> omega

/-- At most 335 days of a year come before a month, at most 60 before one up to March, and at
least 273 before one from October on. -/
theorem daysBeforeMonth_bounds (leap : Bool) {month : Nat} (h : month ≤ 12) :
    daysBeforeMonth leap month ≤ 335 ∧ (month ≤ 3 → daysBeforeMonth leap month ≤ 60) ∧
      (10 ≤ month → 273 ≤ daysBeforeMonth leap month) := by
  interval_cases month <;> cases leap <;> decide

/-- A month ends in its year, and only December at its end. -/
theorem daysBeforeMonth_add_le {leap : Bool} {month day : Nat} (hmonth : 1 ≤ month ∧ month ≤ 12)
    (hday : day ≤ daysInMonth leap month) :
    daysBeforeMonth leap month + day ≤ (if leap then 366 else 365) ∧
      (daysBeforeMonth leap month + day = (if leap then 366 else 365) → month = 12 ∧ day = 31) := by
  obtain ⟨hfirst, hlast⟩ := hmonth
  interval_cases month <;> cases leap <;>
    simp only [daysInMonth, daysBeforeMonth, Bool.false_and, Bool.true_and] at hday ⊢ <;>
    simp at hday ⊢ <;> omega

/-- A day of the year lies in the month that is read off it. -/
theorem monthOf_spec (leap : Bool) {day : Nat} (h : day < 366) :
    (1 ≤ Date.monthOf leap day ∧ Date.monthOf leap day ≤ 12) ∧
      daysBeforeMonth leap (Date.monthOf leap day) ≤ day := by
  have hall : ∀ leap : Bool, ∀ day : Fin 366,
      (1 ≤ Date.monthOf leap day ∧ Date.monthOf leap day ≤ 12) ∧
        daysBeforeMonth leap (Date.monthOf leap day) ≤ day := by decide +kernel
  exact hall leap ⟨day, h⟩

namespace Date

variable {date moved : Date}

/-- A date of the calendar is determined by the number of its day. -/
theorem eq_of_day_eq (h : date.day = moved.day) : date = moved := by
  cases date
  cases moved
  cases h
  rfl

/-- The calendar has a date for a day exactly if the date has that day as its number. -/
theorem ofDay?_eq_some_iff {day : Int} : ofDay? day = some date ↔ date.day = day := by
  unfold ofDay?
  split
  · rename_i hbounds
    constructor
    · rintro ⟨⟩
      rfl
    · rintro rfl
      rfl
  · rename_i hbounds
    simp only [reduceCtorEq, false_iff]
    rintro rfl
    exact hbounds ⟨date.first_le, date.le_last⟩

/-- Moving a date by some days gives the date with that many more days before it. -/
theorem addDays?_eq_some_iff {days : Int} :
    date.addDays? days = some moved ↔ moved.day = date.day + days :=
  ofDay?_eq_some_iff

/-- A date is moved without a fault as long as it stays in the calendar. -/
theorem exists_shift {days : Int} (hfirst : first.day ≤ date.day + days)
    (hlast : date.day + days ≤ last.day) :
    ∃ moved, date.shift days = .ok moved ∧ moved.day = date.day + days := by
  have hmoved : date.addDays? days = some ⟨date.day + days, hfirst, hlast⟩ :=
    addDays?_eq_some_iff.mpr rfl
  exact ⟨⟨date.day + days, hfirst, hlast⟩, by simp only [shift, hmoved], rfl⟩

/-- The calendar has a date if its year, month and day are in order and it lies between
the first and the last one. -/
theorem ofCivil?_eq_some_iff {year : Int} {month day : Nat} :
    ofCivil? year month day = some date ↔
      ((1 ≤ month ∧ month ≤ 12) ∧ 1 ≤ day ∧ day ≤ daysInMonth (isLeapYear year) month) ∧
      date.day + epochOffset + 1 =
        daysBeforeYear year + daysBeforeMonth (isLeapYear year) month + day := by
  unfold ofCivil?
  split
  · rename_i h
    simp only [Bool.and_eq_true, decide_eq_true_eq] at h
    rw [ofDay?_eq_some_iff]
    constructor <;> intro hday <;> [refine ⟨⟨h.1.1, h.1.2, h.2⟩, ?_⟩; skip] <;> omega
  · rename_i h
    simp only [Bool.and_eq_true, decide_eq_true_eq] at h
    simp only [reduceCtorEq, false_iff]
    rintro ⟨⟨hmonth, hday⟩, -⟩
    exact h ⟨⟨hmonth, hday.1⟩, hday.2⟩

/-- Year, month and day of the month lead back to the date. -/
theorem civil_spec (date : Date) :
    (1 ≤ date.month ∧ date.month ≤ 12) ∧ 1 ≤ date.civil.day ∧
      date.day + epochOffset + 1 = daysBeforeYear date.year +
        daysBeforeMonth (isLeapYear date.year) date.month + date.civil.day ∧
      date.day + epochOffset < daysBeforeYear (date.year + 1) := by
  have hyear := yearAndDay_spec (date.day + epochOffset)
  unfold Date.year Date.month civil
  revert hyear
  generalize yearAndDay (date.day + epochOffset) = found
  obtain ⟨year, day⟩ := found
  dsimp only
  rintro ⟨hcount, hday, hnext⟩
  have hlength := daysBeforeYear_succ year
  have hlt : day.toNat < 366 := by split at hlength <;> omega
  obtain ⟨hmonth, hbefore⟩ := monthOf_spec (isLeapYear year) hlt
  refine ⟨hmonth, by omega, by omega, hnext⟩

/-- Dates of all years but the first and the last of the calendar keep clear of its ends. -/
theorem day_bounds_of_year (hfirst : -262142 ≤ date.year) (hlast : date.year ≤ 262141) :
    first.day + 365 ≤ date.day ∧ date.day + 365 ≤ last.day := by
  obtain ⟨-, hday, hspec, hnext⟩ := civil_spec date
  have hlow := daysBeforeYear_mono hfirst
  have hhigh := daysBeforeYear_mono (Int.add_le_add_right hlast 1)
  have hedges : daysBeforeYear (-262142) = first.day + 365 + epochOffset ∧
      daysBeforeYear (262141 + 1) = last.day - 364 + epochOffset := by decide
  omega

/-- The Monday of the week of a date is there, unless that is the first week of the calendar. -/
theorem exists_monday (h : first.day + 365 ≤ date.day) :
    ∃ monday, date.monday = .ok monday ∧ monday.weekday = 0 ∧
      monday.day ≤ date.day ∧ date.day < monday.day + 7 := by
  have hlast := date.le_last
  have hedges : first.day = -96465292 ∧ last.day = 95026236 := ⟨rfl, rfl⟩
  have hweekday : (date.weekday : Int) = (date.day + 3) % 7 := by
    unfold weekday
    omega
  obtain ⟨monday, hshift, hmonday⟩ : ∃ monday, date.shift (-(date.weekday : Int)) = .ok monday ∧
      monday.day = date.day + -(date.weekday : Int) := exists_shift (by omega) (by omega)
  refine ⟨monday, hshift, ?_, by omega, by omega⟩
  unfold weekday
  omega

/-- A date of a given year, where the calendar has it, lies in that year. -/
theorem day_bounds_of_ofCivil? {year : Int} {month day : Nat}
    (h : ofCivil? year month day = some date) :
    daysBeforeYear year ≤ date.day + epochOffset ∧
      date.day + epochOffset < daysBeforeYear (year + 1) := by
  obtain ⟨⟨hmonth, hday⟩, hspec⟩ := ofCivil?_eq_some_iff.mp h
  have hend := (daysBeforeMonth_add_le hmonth hday.2).1
  rw [daysBeforeYear_succ]
  split at hend <;> rename_i hleap <;> simp only [hleap, if_true] <;> omega

/-- The first day of one of the next three months is not more than a year away. -/
theorem day_of_firstOfMonth? {offset : Int} (hoffset : 0 ≤ offset ∧ offset ≤ 3)
    (h : date.firstOfMonth? offset = some moved) : moved.day ≤ date.day + 366 := by
  obtain ⟨hmonth, hday, hspec, -⟩ := civil_spec date
  obtain ⟨⟨hmonth', -⟩, hspec'⟩ := ofCivil?_eq_some_iff.mp h
  have hbefore := daysBeforeMonth_bounds (isLeapYear date.year) hmonth.2
  have hyear := daysBeforeYear_succ date.year
  by_cases hsame : date.month + offset ≤ 12
  · have hindex : (date.year * 12 + (date.month - 1 : Nat) + offset) / 12 = date.year := by omega
    rw [hindex] at hspec'
    have hbefore' := daysBeforeMonth_bounds (isLeapYear date.year) hmonth'.2
    omega
  · have hindex : (date.year * 12 + (date.month - 1 : Nat) + offset) / 12 = date.year + 1 := by
      omega
    rw [hindex] at hspec'
    have hbefore' := daysBeforeMonth_bounds (isLeapYear (date.year + 1)) hmonth'.2
    have hmonths : 10 ≤ date.month ∧
        ((date.year * 12 + (date.month - 1 : Nat) + offset) % 12).toNat + 1 ≤ 3 := by omega
    split at hyear <;> omega

/-- The last day of a year is there, if any day of that year is. -/
theorem ofCivil?_lastDay (h : date.year ≤ 262141) :
    ∃ lastDay, ofCivil? date.year 12 31 = some lastDay ∧ date.day ≤ lastDay.day := by
  obtain ⟨-, -, -, hnext⟩ := civil_spec date
  have hbefore := daysBeforeYear_mono (Int.add_le_add_right h 1)
  have hedge : daysBeforeYear (262141 + 1) = last.day - 364 + epochOffset := by decide
  have hfirst := date.first_le
  have hlast : last.day = 95026236 := rfl
  refine ⟨⟨daysBeforeYear (date.year + 1) - epochOffset - 1, by omega, by omega⟩, ?_, ?_⟩
  · have hsucc := daysBeforeYear_succ date.year
    rw [ofCivil?_eq_some_iff]
    dsimp only
    generalize isLeapYear date.year = leap at *
    cases leap <;> simp [daysInMonth, daysBeforeMonth] at hsucc ⊢ <;> omega
  · dsimp only
    omega

/-- The next date with a given month and day lies before the last day of the calendar. -/
theorem day_of_upcoming? {today : Date} {month day : Nat} (hyear : today.year ≤ 262141)
    (h : today.upcoming? month day = some date) : date.day < last.day := by
  have hedges : daysBeforeYear (262141 + 1) = last.day - 364 + epochOffset ∧
      daysBeforeYear (262142 + 1) = last.day + 1 + epochOffset := by decide
  by_cases hend : month = 12 ∧ day = 31
  · obtain ⟨rfl, rfl⟩ := hend
    obtain ⟨lastDay, hlastDay, hle⟩ := ofCivil?_lastDay hyear
    have hfound : today.upcoming? 12 31 = some lastDay := by
      simp [upcoming?, hlastDay, hle]
    rw [hfound] at h
    cases h
    have hbounds := day_bounds_of_ofCivil? hlastDay
    have hmono := daysBeforeYear_mono (Int.add_le_add_right hyear 1)
    omega
  · obtain ⟨ahead, -, hdate⟩ := List.mem_filterMap.mp (List.mem_of_find?_eq_some h)
    have hbounds := day_bounds_of_ofCivil? hdate
    obtain ⟨⟨hmonth, hday⟩, hspec⟩ := ofCivil?_eq_some_iff.mp hdate
    by_cases hlate : today.year + ahead ≤ 262142
    · obtain ⟨hle, hlast⟩ := daysBeforeMonth_add_le hmonth hday.2
      have hinner := mt hlast hend
      have hsucc := daysBeforeYear_succ (today.year + ahead)
      have hmono := daysBeforeYear_mono (Int.add_le_add_right hlate 1)
      generalize isLeapYear (today.year + ahead) = leap at *
      cases leap <;> simp only [if_true, Bool.false_eq_true, if_false] at hle hinner hsucc <;> omega
    · have hmono := daysBeforeYear_mono (Int.not_le.mp hlate)
      have hlast := date.le_last
      have hlast' : last.day = 95026236 := rfl
      omega

end Date

end Daybook
