import Daybook.Proofs.Calendar.Civil

/-!
# The next date with a month and a day

Of the dates with a month and a day, the earliest one from today on is found if it lies in
this year or in one of the four that follow. There is such a date for every month and day
that the calendar has, except for 29 February before a century year that is no leap year:
then the next leap year is up to eight years away.
-/

namespace Daybook.Date

variable {today date other : Date} {month day : Nat}

/-- A date has a month and a day of the month. -/
def Falls (date : Date) (month day : Nat) : Prop := date.month = month ∧ date.civil.day = day

/-- Whether a date falls on a month and day can be evaluated. -/
instance : Decidable (date.Falls month day) := inferInstanceAs (Decidable (_ ∧ _))

/-- A date is the earliest one from `today` on with a month and a day. -/
structure IsNext (today : Date) (month day : Nat) (date : Date) : Prop where
  notPast : today.day ≤ date.day
  falls : date.Falls month day
  earliest : ∀ other : Date, today.day ≤ other.day → other.Falls month day → date.day ≤ other.day

/-- Whether the last 29 February is past, and the century year that comes within the next
four years is no leap year. -/
def IsBeforeCommonCentury (today : Date) : Prop :=
  ∃ century : Int, century % 100 = 0 ∧ century % 400 ≠ 0 ∧
    century - 4 ≤ today.year ∧ today.year < century ∧ (today.year = century - 4 → 3 ≤ today.month)

/-- The dates among which the next one is searched for. -/
def candidates (today : Date) (month day : Nat) : List Date :=
  [0, 1, 2, 3, 4].filterMap fun ahead => ofCivil? (today.year + ahead) month day

/-- A date falls on a month and day if the calendar has it under its own year with these. -/
theorem falls_iff_ofCivil? : date.Falls month day ↔ ofCivil? date.year month day = some date := by
  rw [ofCivil?_eq_some_iff_civil]
  constructor
  · rintro ⟨rfl, rfl⟩
    rfl
  · intro h
    exact ⟨congrArg Civil.month h, congrArg Civil.day h⟩

/-- The dates among which the next one is looked for are those that fall on the month and day in
this year and the four after it. -/
theorem mem_candidates : date ∈ today.candidates month day ↔
    date.Falls month day ∧ today.year ≤ date.year ∧ date.year ≤ today.year + 4 := by
  rw [falls_iff_ofCivil?]
  constructor
  · intro h
    obtain ⟨ahead, hahead, hdate⟩ := List.mem_filterMap.mp h
    have hyear : date.year = today.year + ahead :=
      congrArg Civil.year (civil_of_ofCivil? hdate)
    simp only [List.mem_cons, List.not_mem_nil, or_false] at hahead
    exact ⟨hyear ▸ hdate, by omega, by omega⟩
  · rintro ⟨hdate, hfirst, hlast⟩
    refine List.mem_filterMap.mpr ⟨date.year - today.year, ?_, ?_⟩
    · simp only [List.mem_cons, List.not_mem_nil, or_false]
      omega
    · rwa [show today.year + (date.year - today.year) = date.year by omega]

/-- The candidates are in the order of the calendar. -/
theorem pairwise_candidates (today : Date) (month day : Nat) :
    (today.candidates month day).Pairwise fun date other => date.day < other.day := by
  have hahead : [0, 1, 2, 3, 4].Pairwise fun a b : Int => a < b := by decide
  refine hahead.filterMap _ fun a b hlt date hdate other hother => day_lt_of_year_lt ?_
  have hyear : date.year = today.year + a := congrArg Civil.year (civil_of_ofCivil? hdate)
  have hyear' : other.year = today.year + b := congrArg Civil.year (civil_of_ofCivil? hother)
  omega

/-- The date that is found is the next one: any other that is not past is a candidate too, and does
not stand before it. -/
theorem isNext_of_upcoming? (h : today.upcoming? month day = some date) :
    today.IsNext month day date := by
  obtain ⟨hnotPast, before, after, hsplit, hbefore⟩ := List.find?_eq_some_iff_append.mp h
  change today.candidates month day = before ++ date :: after at hsplit
  have hmem : date ∈ today.candidates month day := by simp [hsplit]
  obtain ⟨hfalls, -, hlast⟩ := mem_candidates.mp hmem
  refine ⟨of_decide_eq_true hnotPast, hfalls, fun other hother hother' => ?_⟩
  by_cases hlate : other.year ≤ today.year + 4
  · have hcandidate := mem_candidates.mpr ⟨hother', year_le_of_day_le hother, hlate⟩
    have hordered := pairwise_candidates today month day
    rw [hsplit] at hcandidate hordered
    obtain ⟨-, hordered, -⟩ := List.pairwise_append.mp hordered
    rcases List.mem_append.mp hcandidate with hmem | hmem
    · have hpast : (!decide (today.day ≤ other.day)) = true := hbefore other hmem
      simp [hother] at hpast
    · rcases List.mem_cons.mp hmem with rfl | hlater
      · exact Int.le_refl _
      · exact Int.le_of_lt ((List.pairwise_cons.mp hordered).1 other hlater)
  · exact Int.le_of_lt (day_lt_of_year_lt (by omega))

/-- Nothing is found exactly if each date that is not past comes too late. -/
theorem upcoming?_eq_none_iff : today.upcoming? month day = none ↔
    ∀ date : Date, today.day ≤ date.day → date.Falls month day → today.year + 4 < date.year := by
  change (today.candidates month day).find? _ = none ↔ _
  rw [List.find?_eq_none]
  constructor
  · intro hnone date hnotPast hfalls
    by_contra hlate
    exact hnone date (mem_candidates.mpr ⟨hfalls, year_le_of_day_le hnotPast, by omega⟩)
      (decide_eq_true hnotPast)
  · intro hlate date hmem hnotPast
    obtain ⟨hfalls, -, hlast⟩ := mem_candidates.mp hmem
    have := hlate date (of_decide_eq_true hnotPast) hfalls
    omega

/-- A month and a day that any date has are those of 29 February, or every year has them. -/
theorem of_falls (h : date.Falls month day) :
    ((1 ≤ month ∧ month ≤ 12) ∧ 1 ≤ day ∧ day ≤ daysInMonth (isLeapYear date.year) month) ∧
      ((month = 2 ∧ day = 29) ∨ ∀ leap, day ≤ daysInMonth leap month) := by
  obtain ⟨rfl, rfl⟩ := h
  obtain ⟨hmonth, hday, -, -⟩ := civil_spec date
  have hle := civil_day_le date
  refine ⟨⟨hmonth, hday, hle⟩, ?_⟩
  have hall : ∀ month : Fin 13, 1 ≤ (month : Nat) → ∀ leap leap',
      daysInMonth leap month ≤ daysInMonth leap' month ∨
        ((month : Nat) = 2 ∧ daysInMonth leap month = 29 ∧ daysInMonth leap' month = 28) := by
    decide +kernel
  by_cases hevery : ∀ leap, date.civil.day ≤ daysInMonth leap date.month
  · exact .inr hevery
  · obtain ⟨leap, hleap⟩ := Classical.not_forall.mp hevery
    have := hall ⟨date.month, by omega⟩ hmonth.1 (isLeapYear date.year) leap
    dsimp only at this
    omega

/-- A 29 February is a day of the leap years. -/
theorem isLeapYear_of_falls (h : date.Falls 2 29) : isLeapYear date.year = true := by
  obtain ⟨⟨-, -, hday⟩, -⟩ := of_falls h
  by_contra hleap
  rw [Bool.not_eq_true] at hleap
  rw [hleap] at hday
  exact absurd hday (by decide)

/-- Before a century year without one, 29 February comes too late: of the years up to then only the
first one is a leap year, and its 29 February is past. -/
theorem upcoming?_of_isBeforeCommonCentury (h : today.IsBeforeCommonCentury) :
    today.upcoming? 2 29 = none := by
  obtain ⟨century, hcentury, hcommon, hfirst, hlast, hpast⟩ := h
  refine upcoming?_eq_none_iff.mpr fun date hnotPast hfalls => ?_
  have hleap := isLeapYear_iff.mp (isLeapYear_of_falls hfalls)
  have hyear := year_le_of_day_le hnotPast
  by_contra hlate
  have hsame : today.year = date.year := by omega
  rcases (day_le_iff_of_year_eq hsame).mp hnotPast with hmonth | ⟨hmonth, -⟩ <;>
    rw [hfalls.1] at hmonth <;> omega

/-- If no 29 February is found, the next leap year falls on a century without one. Each leap year
that is looked at has a 29 February, which must be past. -/
theorem isBeforeCommonCentury_of_upcoming?_eq_none (hyear : today.year ≤ 262100)
    (hnone : today.upcoming? 2 29 = none) : today.IsBeforeCommonCentury := by
  have hlate := upcoming?_eq_none_iff.mp hnone
  have hfirst := today.year_bounds.1
  have hpast : ∀ year, today.year ≤ year → year ≤ today.year + 4 → isLeapYear year = true →
      ∃ next : Date, next.Falls 2 29 ∧ next.year = year ∧ next.day < today.day := by
    intro year hle hlast hleap
    obtain ⟨next, hnext⟩ : ∃ next : Date, next.civil = ⟨year, 2, 29⟩ :=
      exists_civil (by omega) (by omega) (by decide) (by rw [hleap]; decide)
    have hnextYear : next.year = year := congrArg Civil.year hnext
    have hnext : next.Falls 2 29 := ⟨congrArg Civil.month hnext, congrArg Civil.day hnext⟩
    refine ⟨next, hnext, hnextYear, ?_⟩
    by_contra hnotPast
    have := hlate next (by omega) hnext
    omega
  have hcommon : isLeapYear (4 * ((today.year + 4) / 4)) = false := by
    by_contra hleap
    rw [Bool.not_eq_false] at hleap
    obtain ⟨next, -, hnext, hlt⟩ := hpast _ (by omega) (by omega) hleap
    have := year_le_of_day_le (Int.le_of_lt hlt)
    omega
  rw [Bool.eq_false_iff, Ne, isLeapYear_iff] at hcommon
  refine ⟨4 * ((today.year + 4) / 4), by omega, by omega, by omega, by omega, fun hsame => ?_⟩
  obtain ⟨next, hnext, hnextYear, hlt⟩ := hpast today.year (Int.le_refl _) (by omega)
    (isLeapYear_iff.mpr (by omega))
  have hnotLe := mt (day_le_iff_of_year_eq hnextYear.symm).mpr (Int.not_le.mpr hlt)
  rw [hnext.1, hnext.2] at hnotLe
  by_contra hearly
  have hday := civil_day_le today
  have hlength : ∀ leap, daysInMonth leap 2 ≤ 29 := by decide
  have := hlength (isLeapYear today.year)
  have hmonth : today.month = 2 := by omega
  rw [hmonth] at hday
  omega

/-- Unless it is too late, each month and day that a date has is found. -/
theorem exists_upcoming? (hyear : today.year ≤ 262100) (hfalls : date.Falls month day)
    (hsoon : ¬(month = 2 ∧ day = 29 ∧ today.IsBeforeCommonCentury)) :
    ∃ date, today.upcoming? month day = some date := by
  refine Option.ne_none_iff_exists'.mp fun hnone => ?_
  obtain ⟨⟨hmonth, hday, -⟩, ⟨rfl, rfl⟩ | hevery⟩ := of_falls hfalls
  · exact hsoon ⟨rfl, rfl, isBeforeCommonCentury_of_upcoming?_eq_none hyear hnone⟩
  · have hlate := upcoming?_eq_none_iff.mp hnone
    have hfirst := today.year_bounds.1
    obtain ⟨next, hnext⟩ := exists_civil (show -262143 ≤ today.year + 1 by omega) (by omega)
      hmonth ⟨hday, hevery _⟩
    have hnextYear : next.year = today.year + 1 := congrArg Civil.year hnext
    have := hlate next (Int.le_of_lt (day_lt_of_year_lt (by omega)))
      ⟨congrArg Civil.month hnext, congrArg Civil.day hnext⟩
    omega

/-- The date that is found for a month and a day is the earliest one from today on that has
them. None is found only where no date has them, or where a century year without a 29 February
makes that day come too late. -/
theorem upcoming?_finds_next (today : Date) (hyear : today.year ≤ 262100) (month day : Nat) :
    (∀ date, today.upcoming? month day = some date → today.IsNext month day date) ∧
    (today.upcoming? month day = none ↔ (∀ date : Date, ¬date.Falls month day) ∨
      (month = 2 ∧ day = 29 ∧ today.IsBeforeCommonCentury)) := by
  refine ⟨fun date => isNext_of_upcoming?, fun hnone => ?_, ?_⟩
  · refine or_iff_not_imp_left.mpr fun hsome => ?_
    obtain ⟨date, hfalls⟩ := not_forall_not.mp hsome
    by_contra hsoon
    obtain ⟨next, hnext⟩ := exists_upcoming? hyear hfalls hsoon
    rw [hnone] at hnext
    cases hnext
  · rintro (hnever | ⟨rfl, rfl, hcentury⟩)
    · exact upcoming?_eq_none_iff.mpr fun date _ hfalls => absurd hfalls (hnever date)
    · exact upcoming?_of_isBeforeCommonCentury hcentury

/-- On 1 March 2025 the next 29 February is that of 2028. -/
theorem upcoming?_finds_next_leap_day :
    let today : Date := ⟨20148, by decide, by decide⟩
    let leapDay : Date := ⟨21243, by decide, by decide⟩
    today.year ≤ 262100 ∧ (today.civil = ⟨2025, 3, 1⟩ ∧ leapDay.civil = ⟨2028, 2, 29⟩) ∧
    today.upcoming? 2 29 = some leapDay ∧
    (∀ date, today.upcoming? 2 29 = some date → today.IsNext 2 29 date) ∧
    (today.upcoming? 2 29 = none ↔ (∀ date : Date, ¬date.Falls 2 29) ∨
      (2 = 2 ∧ 29 = 29 ∧ today.IsBeforeCommonCentury)) := by
  intro today leapDay
  have hyear : today.year ≤ 262100 := by decide +kernel
  exact ⟨hyear, by decide +kernel, by decide +kernel, upcoming?_finds_next today hyear 2 29⟩

/-- On 1 January 2097 the next 29 February is that of 2104, the first leap year that is left, and
is not found. -/
theorem leap_day_missed_before_century :
    let today : Date := ⟨46387, by decide, by decide⟩
    let leapDay : Date := ⟨49001, by decide, by decide⟩
    (today.civil = ⟨2097, 1, 1⟩ ∧ leapDay.civil = ⟨2104, 2, 29⟩) ∧
    today.IsNext 2 29 leapDay ∧ today.upcoming? 2 29 = none := by
  intro today leapDay
  have hcivil : today.civil = ⟨2097, 1, 1⟩ ∧ leapDay.civil = ⟨2104, 2, 29⟩ := by decide +kernel
  have hyear : today.year = 2097 := congrArg Civil.year hcivil.1
  have hnone : today.upcoming? 2 29 = none :=
    upcoming?_of_isBeforeCommonCentury ⟨2100, by decide, by decide, by omega, by omega, by omega⟩
  refine ⟨hcivil, ⟨by decide, by decide +kernel, fun other hother hfalls => ?_⟩, hnone⟩
  have hlate := upcoming?_eq_none_iff.mp hnone other hother hfalls
  have hleap := isLeapYear_iff.mp (isLeapYear_of_falls hfalls)
  by_contra hlt
  have hle := year_le_of_day_le (Int.le_of_lt (Int.not_le.mp hlt))
  have hlast : leapDay.year = 2104 := congrArg Civil.year hcivil.2
  have hsame : other.year = 2104 := by omega
  have hfound := falls_iff_ofCivil?.mp hfalls
  rw [hsame, ofCivil?_eq_some_iff_civil.mpr hcivil.2] at hfound
  cases hfound
  exact hlt (Int.le_refl _)

end Daybook.Date
