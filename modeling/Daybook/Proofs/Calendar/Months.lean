import Daybook.Proofs.Calendar.Civil

/-!
# Months in a row

Counted through all years, the months are numbered one after the other. The first day of a
month is there for each number within the calendar, and months come in the order of their
numbers.
-/

namespace Daybook.Date

variable {date other first next : Date} {index offset year : Int} {month : Nat}

/-- The number of the month of a date, counted through all years from January of the year 0. -/
def monthIndex (date : Date) : Int := date.year * 12 + (date.month - 1 : Nat)

/-- A date is the first day of the month with a number. -/
def IsFirstOfMonth (date : Date) (index : Int) : Prop :=
  date.civil.day = 1 ∧ date.monthIndex = index

/-- The first day of the month with a number is told by its year, month and day, which the quotient
and the remainder by twelve give. -/
theorem isFirstOfMonth_iff_civil :
    date.IsFirstOfMonth index ↔ date.civil = ⟨index / 12, (index % 12).toNat + 1, 1⟩ := by
  obtain ⟨hmonth, -, -, -⟩ := civil_spec date
  unfold IsFirstOfMonth monthIndex
  constructor
  · rintro ⟨hday, hindex⟩
    have hyear : date.year = index / 12 := by omega
    have hmonth' : date.month = (index % 12).toNat + 1 := by omega
    rw [← hyear, ← hmonth', ← hday]
    rfl
  · intro hcivil
    have hyear : date.year = index / 12 := congrArg Civil.year hcivil
    have hmonth' : date.month = (index % 12).toNat + 1 := congrArg Civil.month hcivil
    exact ⟨congrArg Civil.day hcivil, by omega⟩

/-- The number of the month of a date tells its year. -/
theorem monthIndex_div (date : Date) : date.monthIndex / 12 = date.year := by
  obtain ⟨hmonth, -⟩ := civil_spec date
  unfold monthIndex
  omega

/-- The first day of a month some months away is what the search by month number finds, in either
direction. -/
theorem firstOfMonth?_eq_some_iff :
    date.firstOfMonth? offset = some first ↔ first.IsFirstOfMonth (date.monthIndex + offset) := by
  rw [isFirstOfMonth_iff_civil, ← ofCivil?_eq_some_iff_civil]
  rfl

/-- The first day of a month of a year, by the month's number. -/
theorem ofCivil?_one_eq_some_iff (hmonth : 1 ≤ month ∧ month ≤ 12) :
    ofCivil? year month 1 = some first ↔ first.IsFirstOfMonth (year * 12 + (month - 1 : Nat)) := by
  have hyear : (year * 12 + (month - 1 : Nat)) / 12 = year := by omega
  have hindex : ((year * 12 + (month - 1 : Nat)) % 12).toNat + 1 = month := by omega
  rw [isFirstOfMonth_iff_civil, hyear, hindex, ofCivil?_eq_some_iff_civil]

/-- Every month of the calendar has a first day. -/
theorem exists_isFirstOfMonth (hfirst : -262143 * 12 ≤ index) (hlast : index < 262143 * 12) :
    ∃ first : Date, first.IsFirstOfMonth index := by
  have hlength : ∀ month : Fin 13, 1 ≤ (month : Nat) → ∀ leap, 1 ≤ daysInMonth leap month := by
    decide +kernel
  obtain ⟨first, hcivil⟩ : ∃ first : Date,
      first.civil = ⟨index / 12, (index % 12).toNat + 1, 1⟩ :=
    exists_civil (by omega) (by omega) (by omega)
      ⟨by omega, hlength ⟨(index % 12).toNat + 1, by omega⟩ (by dsimp only; omega) _⟩
  exact ⟨first, isFirstOfMonth_iff_civil.mpr hcivil⟩

/-- A month has one first day. -/
theorem IsFirstOfMonth.unique (h : first.IsFirstOfMonth index) (h' : next.IsFirstOfMonth index) :
    first = next := by
  rw [isFirstOfMonth_iff_civil, ← ofCivil?_eq_some_iff_civil] at h h'
  exact Option.some_inj.mp (h.symm.trans h')

/-- A date in an earlier month is an earlier date. -/
theorem day_lt_of_monthIndex_lt (h : date.monthIndex < other.monthIndex) :
    date.day < other.day := by
  obtain ⟨hmonth, -, -, -⟩ := civil_spec date
  obtain ⟨hmonth', -, -, -⟩ := civil_spec other
  unfold monthIndex at h
  by_cases hyear : date.year = other.year
  · by_contra hle
    rcases (day_le_iff_of_year_eq hyear.symm).mp (Int.not_lt.mp hle) with hlt | ⟨heq, -⟩ <;> omega
  · exact day_lt_of_year_lt (by omega)

/-- Months in a row begin on dates of the calendar, and the first of them begins before the one
behind them. -/
theorem exists_months {upTo : Int} (hlow : -262143 * 12 ≤ index) (hlt : index < upTo)
    (hhigh : upTo < 262143 * 12) : ∃ first next : Date, first.IsFirstOfMonth index ∧
      next.IsFirstOfMonth upTo ∧ first.day < next.day := by
  obtain ⟨first, hfirst⟩ := exists_isFirstOfMonth hlow (Int.lt_trans hlt hhigh)
  obtain ⟨next, hnext⟩ := exists_isFirstOfMonth (by omega) hhigh
  exact ⟨first, next, hfirst, hnext,
    day_lt_of_monthIndex_lt (by rw [hfirst.2, hnext.2]; exact hlt)⟩

/-- From the first day of a month up to that of another one, there are the dates of the months
between. -/
theorem day_bounds_of_monthIndex {upTo : Int} (hfirst : first.IsFirstOfMonth index)
    (hnext : next.IsFirstOfMonth upTo) (hindex : index ≤ date.monthIndex)
    (hupTo : date.monthIndex < upTo) : first.day ≤ date.day ∧ date.day < next.day := by
  refine ⟨?_, day_lt_of_monthIndex_lt (hnext.2.symm ▸ hupTo)⟩
  rcases Int.lt_or_eq_of_le hindex with hlt | rfl
  · exact Int.le_of_lt (day_lt_of_monthIndex_lt (hfirst.2.symm ▸ hlt))
  · obtain ⟨hmonth, hday, -, -⟩ := civil_spec date
    obtain ⟨hmonth', -, -, -⟩ := civil_spec first
    have hsame := hfirst.2
    unfold monthIndex at hsame
    rw [day_le_iff_of_year_eq (by omega), hfirst.1]
    exact .inr ⟨by omega, hday⟩

end Daybook.Date
