import Daybook.Proofs.Calendar.Years

/-!
# Dates by year, month and day

A date is there for a year, a month and a day exactly if these are read off it. So the
dates of the calendar are ordered as their years are, and within a year as their months
and days are.
-/

namespace Daybook

/-- The year that is read off a day is the only one whose days include it. -/
theorem yearAndDay_eq {count year : Int} (hfirst : daysBeforeYear year ≤ count)
    (hnext : count < daysBeforeYear (year + 1)) :
    Date.yearAndDay count = (year, count - daysBeforeYear year) := by
  have hspec := yearAndDay_spec count
  generalize Date.yearAndDay count = found at hspec
  obtain ⟨year', day⟩ := found
  dsimp only at hspec
  obtain ⟨hcount, hday, hnext'⟩ := hspec
  obtain rfl : year' = year := by
    rcases Int.lt_trichotomy year' year with hlt | heq | hgt
    · have := daysBeforeYear_mono hlt
      omega
    · exact heq
    · have := daysBeforeYear_mono hgt
      omega
  obtain rfl : day = count - daysBeforeYear year' := by omega
  rfl

/-- A later month of a year has no fewer days before it, up to the month that would follow
December. -/
theorem daysBeforeMonth_mono (leap : Bool) {m n : Nat} (h : m ≤ n) (hn : n ≤ 13) :
    daysBeforeMonth leap m ≤ daysBeforeMonth leap n := by
  have hall : ∀ leap : Bool, ∀ n : Fin 14, ∀ m : Fin 14, m ≤ n →
      daysBeforeMonth leap m ≤ daysBeforeMonth leap n := by decide +kernel
  exact hall leap ⟨n, by omega⟩ ⟨m, by omega⟩ h

/-- The next month begins after a day of the month that is read off it. -/
theorem lt_daysBeforeMonth_succ (leap : Bool) {day : Nat} (h : day < if leap then 366 else 365) :
    day < daysBeforeMonth leap (Date.monthOf leap day + 1) := by
  have hall : ∀ leap : Bool, ∀ day : Fin 366, (day : Nat) < (if leap then 366 else 365) →
      (day : Nat) < daysBeforeMonth leap (Date.monthOf leap day + 1) := by decide +kernel
  refine hall leap ⟨day, ?_⟩ h
  split at h <;> omega

/-- The month that is read off a day of the year is the only one whose days include it. -/
theorem monthOf_eq {leap : Bool} {month day : Nat} (hmonth : 1 ≤ month ∧ month ≤ 12)
    (hday : 1 ≤ day ∧ day ≤ daysInMonth leap month) :
    Date.monthOf leap (daysBeforeMonth leap month + (day - 1)) = month := by
  have hend := (daysBeforeMonth_add_le hmonth hday.2).1
  have hyear : daysBeforeMonth leap month + (day - 1) < if leap then 366 else 365 := by omega
  have hnext := lt_daysBeforeMonth_succ leap hyear
  obtain ⟨hfound, hbefore⟩ := monthOf_spec leap
    (show daysBeforeMonth leap month + (day - 1) < 366 by split at hyear <;> omega)
  have hlast : daysInMonth leap month =
      daysBeforeMonth leap (month + 1) - daysBeforeMonth leap month := rfl
  generalize Date.monthOf leap (daysBeforeMonth leap month + (day - 1)) = found at *
  rcases Nat.lt_trichotomy found month with hlt | heq | hgt
  · have := daysBeforeMonth_mono leap (show found + 1 ≤ month from hlt) (by omega)
    omega
  · exact heq
  · have := daysBeforeMonth_mono leap (show month + 1 ≤ found from hgt) (by omega)
    omega

namespace Date

variable {date other : Date} {year : Int} {month day : Nat}

/-- A date has the year, month and day that it was made from. -/
theorem civil_of_ofCivil? (h : ofCivil? year month day = some date) :
    date.civil = ⟨year, month, day⟩ := by
  obtain ⟨hfirst, hnext⟩ := day_bounds_of_ofCivil? h
  obtain ⟨⟨hmonth, hday⟩, hspec⟩ := ofCivil?_eq_some_iff.mp h
  have hcount : (date.day + epochOffset - daysBeforeYear year).toNat =
      daysBeforeMonth (isLeapYear year) month + (day - 1) := by omega
  unfold civil
  rw [yearAndDay_eq hfirst hnext]
  dsimp only
  rw [hcount, monthOf_eq hmonth hday]
  congr 1
  omega

/-- The day of the month that is read off a date is one of that month. -/
theorem civil_day_le (date : Date) :
    date.civil.day ≤ daysInMonth (isLeapYear date.year) date.month := by
  have hyear := yearAndDay_spec (date.day + epochOffset)
  unfold Date.year Date.month civil
  revert hyear
  generalize yearAndDay (date.day + epochOffset) = found
  obtain ⟨year, day⟩ := found
  dsimp only
  rintro ⟨hcount, hday, hnext⟩
  have hlength := daysBeforeYear_succ year
  have hlt : day.toNat < if isLeapYear year then 366 else 365 := by
    split at hlength <;> rename_i hleap <;> [rw [if_pos hleap]; rw [if_neg hleap]] <;> omega
  have hsucc := lt_daysBeforeMonth_succ _ hlt
  obtain ⟨-, hbefore⟩ := monthOf_spec (isLeapYear year)
    (show day.toNat < 366 by split at hlt <;> omega)
  unfold daysInMonth
  omega

/-- The calendar has a date with a year, a month and a day if these are read off it, and
only then. -/
theorem ofCivil?_eq_some_iff_civil :
    ofCivil? year month day = some date ↔ date.civil = ⟨year, month, day⟩ := by
  refine ⟨civil_of_ofCivil?, fun h => ?_⟩
  obtain ⟨hmonth, hday, hspec, -⟩ := civil_spec date
  have hlast := civil_day_le date
  unfold Date.year Date.month at hspec hlast
  unfold Date.month at hmonth
  rw [h] at hmonth hday hspec hlast
  exact ofCivil?_eq_some_iff.mpr ⟨⟨hmonth, hday, hlast⟩, hspec⟩

/-- Every year of the calendar has dates for all its months and days. -/
theorem exists_civil (hfirst : -262143 ≤ year) (hlast : year ≤ 262142)
    (hmonth : 1 ≤ month ∧ month ≤ 12)
    (hday : 1 ≤ day ∧ day ≤ daysInMonth (isLeapYear year) month) :
    ∃ date : Date, date.civil = ⟨year, month, day⟩ := by
  have hend := (daysBeforeMonth_add_le hmonth hday.2).1
  have hlength := daysBeforeYear_succ year
  have hlow := daysBeforeYear_mono hfirst
  have hhigh := daysBeforeYear_mono (Int.add_le_add_right hlast 1)
  have hedges : daysBeforeYear (-262143) = -96465292 + epochOffset ∧
      daysBeforeYear (262142 + 1) = 95026236 + 1 + epochOffset := by decide
  have hyear : (daysBeforeMonth (isLeapYear year) month + day : Int) ≤
      daysBeforeYear (year + 1) - daysBeforeYear year := by
    split at hend <;> rename_i hleap <;> simp only [hleap] at hlength <;> simp at hlength <;> omega
  refine ⟨⟨daysBeforeYear year - epochOffset + daysBeforeMonth (isLeapYear year) month +
    (day - 1 : Nat), by omega, by omega⟩, civil_of_ofCivil? ?_⟩
  rw [ofCivil?_eq_some_iff]
  exact ⟨⟨hmonth, hday⟩, by dsimp only; omega⟩

/-- The calendar has the years from -262143 to 262142. -/
theorem year_bounds (date : Date) : -262143 ≤ date.year ∧ date.year ≤ 262142 := by
  obtain ⟨-, hday, hspec, hnext⟩ := civil_spec date
  have hfirst := date.first_le
  have hlast := date.le_last
  have hedges : daysBeforeYear (-262143) = -96465292 + epochOffset ∧
      daysBeforeYear 262143 = 95026236 + 1 + epochOffset := by decide
  constructor <;> by_contra hout
  · have := daysBeforeYear_mono (show date.year + 1 ≤ -262143 by omega)
    omega
  · have := daysBeforeYear_mono (show 262143 ≤ date.year by omega)
    omega

/-- A date in an earlier year is an earlier date. -/
theorem day_lt_of_year_lt (h : date.year < other.year) : date.day < other.day := by
  obtain ⟨-, -, -, hnext⟩ := civil_spec date
  obtain ⟨-, hday, hspec, -⟩ := civil_spec other
  have := daysBeforeYear_mono h
  omega

/-- An earlier date does not lie in a later year. -/
theorem year_le_of_day_le (h : date.day ≤ other.day) : date.year ≤ other.year := by
  by_contra hlt
  have := day_lt_of_year_lt (Int.not_le.mp hlt)
  omega

/-- The dates of one year are ordered as their months and days are. -/
theorem day_le_iff_of_year_eq (h : date.year = other.year) : date.day ≤ other.day ↔
    date.month < other.month ∨ (date.month = other.month ∧ date.civil.day ≤ other.civil.day) := by
  obtain ⟨hmonth, hday, hspec, -⟩ := civil_spec date
  obtain ⟨hmonth', hday', hspec', -⟩ := civil_spec other
  have hlast := civil_day_le date
  have hlast' := civil_day_le other
  rw [h] at hspec hlast
  have hlength : ∀ month, daysInMonth (isLeapYear other.year) month =
      daysBeforeMonth (isLeapYear other.year) (month + 1) -
        daysBeforeMonth (isLeapYear other.year) month := fun _ => rfl
  rw [hlength] at hlast hlast'
  rcases Nat.lt_trichotomy date.month other.month with hlt | heq | hgt
  · have := daysBeforeMonth_mono (isLeapYear other.year) (show date.month + 1 ≤ _ from hlt)
      (by omega)
    omega
  · rw [heq] at hspec
    omega
  · have := daysBeforeMonth_mono (isLeapYear other.year) (show other.month + 1 ≤ _ from hgt)
      (by omega)
    omega

end Date

end Daybook
