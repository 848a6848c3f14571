import Daybook.Proofs.Time.Resolving

/-!
# Days and hours

A range of whole days begins and ends at midnights. The hours of a day that are found for a part
of it lie in the day, and a whole day lies in the days that it is one of.
-/

namespace Daybook

/-- A range covers the whole days from `first` up to, and without, `next`. -/
def Range.IsDays (r : Range) (first next : Date) : Prop :=
  r.start = Instant.midnight first ∧ r.stop = Instant.midnight next

/-- An instant is a full hour of a day, which may be the first one of the next day. -/
def Instant.IsHourOf (t : Instant) (date : Date) (hour : Nat) : Prop :=
  t.IsFullHour ∧ t.date.day * 24 + t.hour = date.day * 24 + hour

namespace Range

variable {r whole : Range} {date : Date} {hours hours' : Nat × Nat}

/-- A range lies in another one. -/
def Within (r whole : Range) : Prop := whole.start ≤ r.start ∧ r.stop ≤ whole.stop

/-- A range covers the hours of a day from the first one up to, and without, the second. -/
def IsHours (r : Range) (date : Date) (hours : Nat × Nat) : Prop :=
  r.start.IsHourOf date hours.1 ∧ r.stop.IsHourOf date hours.2

/-- A range covers a whole day. -/
def IsDay (r : Range) (date : Date) : Prop := r.IsHours date (0, 24)

end Range

namespace Instant

variable {t : Instant} {date next : Date} {hour : Nat}

/-- An hour of a day is as far from its start as it says. -/
theorem IsHourOf.rank (h : t.IsHourOf date hour) :
    t.rank = (midnight date).rank + hour * 7200000000000 := by
  obtain ⟨⟨hsecond, hnano⟩, hhour⟩ := h
  simp only [Instant.rank, midnight, Instant.hour] at *
  omega

/-- An hour of a day that is not the one after its last is of that day. -/
theorem IsHourOf.date_eq (h : t.IsHourOf date hour) (hhour : hour < 24) : t.date = date := by
  obtain ⟨-, hsame⟩ := h
  have hsecond := t.second_lt
  unfold Instant.hour at hsame
  exact Date.eq_of_day_eq (by omega)

end Instant

namespace Range

variable {r whole : Range} {date first next : Date} {hours hours' : Nat × Nat}

/-- Some hours of a day lie in more hours of it. -/
theorem IsHours.within (h : r.IsHours date hours) (hwhole : whole.IsHours date hours')
    (hfirst : hours'.1 ≤ hours.1) (hlast : hours.2 ≤ hours'.2) : r.Within whole := by
  obtain ⟨hstart, hstop⟩ := h
  obtain ⟨hstart', hstop'⟩ := hwhole
  have := hstart.rank
  have := hstop.rank
  have := hstart'.rank
  have := hstop'.rank
  constructor
  · rw [Instant.le_iff_rank]
    omega
  · rw [Instant.le_iff_rank]
    omega

/-- The days up to the next one are a single day. -/
theorem IsDays.isDay (h : r.IsDays date next) (hnext : next.day = date.day + 1) :
    r.IsDay date := by
  obtain ⟨hstart, hstop⟩ := h
  constructor
  · rw [hstart]
    refine ⟨Instant.isFullHour_midnight date, ?_⟩
    simp [Instant.hour, Instant.midnight]
  · rw [hstop]
    refine ⟨Instant.isFullHour_midnight next, ?_⟩
    simp only [Instant.hour, Instant.midnight]
    omega

/-- A day lies in the days that it is one of. -/
theorem IsDay.within (h : r.IsDay date) (hwhole : whole.IsDays first next)
    (hfirst : first.day ≤ date.day) (hlast : date.day < next.day) : r.Within whole := by
  obtain ⟨hstart, hstop⟩ := h
  obtain ⟨hstart', hstop'⟩ := hwhole
  have hrank := hstart.rank
  have hrank' := hstop.rank
  constructor
  · rw [Instant.le_iff_rank, hstart']
    simp only [Instant.rank, Instant.midnight] at *
    omega
  · rw [Instant.le_iff_rank, hstop']
    simp only [Instant.rank, Instant.midnight] at *
    omega

end Range

namespace Resolution

variable {date first next : Date} {label : String} {part : Option (DayPart × String)} {r : Range}

/-- The midnight of an earlier date is earlier. -/
theorem midnight_lt_midnight (h : first.day < next.day) :
    Instant.midnight first < Instant.midnight next := by
  rw [Instant.lt_iff_rank]
  simp only [Instant.rank, Instant.midnight]
  omega

/-- Days in their order make up a range. -/
theorem make?_midnight (h : first.day < next.day) :
    Range.make? (Instant.midnight first) (Instant.midnight next) label =
      some ⟨Instant.midnight first, Instant.midnight next, label⟩ :=
  if_pos (midnight_lt_midnight h)

/-- The hour of a day that is not the last one is there. -/
theorem exists_isHourOf (hdate : date.day < Date.last.day) {hour : Nat} (hhour : hour ≤ 24) :
    ∃ t, Instant.atHour date hour = .ok t ∧ t.IsHourOf date hour := by
  obtain ⟨t, ht, hfull, hrank⟩ := Instant.exists_atHour hdate hhour
  refine ⟨t, ht, hfull, ?_⟩
  obtain ⟨hsecond, hnano⟩ := hfull
  have hlt := t.second_lt
  simp only [Instant.rank, Instant.midnight] at hrank
  unfold Instant.hour
  omega

/-- A whole day goes up to the next one. -/
theorem exists_dayRange_whole (hdate : date.day < Date.last.day) (label : String) :
    ∃ next : Date, next.day = date.day + 1 ∧
      dayRange date label none =
        .ok (some ⟨Instant.midnight date, Instant.midnight next, label⟩) := by
  have hfirst := date.first_le
  obtain ⟨next, hshift, hnext⟩ : ∃ next, date.shift 1 = .ok next ∧ next.day = date.day + 1 :=
    Date.exists_shift (show -96465292 ≤ _ by omega) (by omega)
  have hstop : Instant.atHour date 24 = .ok (Instant.midnight next) := by
    unfold Instant.atHour
    change (date.shift 1 >>= _) = _
    rw [hshift]
    rfl
  refine ⟨next, hnext, ?_⟩
  unfold dayRange
  dsimp only
  rw [hstop]
  exact congrArg Except.ok (make?_midnight (by omega))

/-- The hours of a day that are narrowed down to, if it is narrowed at all. -/
def hoursOf (part : Option (DayPart × String)) : Nat × Nat :=
  part.elim (0, 24) fun found => found.1.hours

/-- The hours of a part of a day are some, and belong to the day. -/
theorem hoursOf_bounds (part : Option (DayPart × String)) :
    (hoursOf part).1 < (hoursOf part).2 ∧ (hoursOf part).2 ≤ 24 := by
  cases part with
  | none => decide
  | some found => exact found.1.hours_bounds

/-- A day that has a next one is narrowed to hours of it, under the labels of both. -/
theorem exists_dayRange_hours (hdate : date.day < Date.last.day) (label : String)
    (part : Option (DayPart × String)) :
    ∃ r, dayRange date label part = .ok (some r) ∧ r.IsHours date (hoursOf part) ∧
      r.label = part.elim label fun found => joinLabels label found.2 := by
  cases part with
  | none =>
    obtain ⟨next, hnext, hrange⟩ := exists_dayRange_whole hdate label
    exact ⟨_, hrange, Range.IsDays.isDay ⟨rfl, rfl⟩ hnext, rfl⟩
  | some found =>
    obtain ⟨part, partLabel⟩ := found
    have hhours := part.hours_bounds
    obtain ⟨start, hstart, hstarts⟩ :=
      exists_isHourOf hdate (show part.hours.1 ≤ 24 by omega)
    obtain ⟨stop, hstop, hstops⟩ := exists_isHourOf hdate hhours.2
    have hlt : start < stop := by
      have := hstarts.rank
      have := hstops.rank
      rw [Instant.lt_iff_rank]
      omega
    refine ⟨⟨start, stop, joinLabels label partLabel⟩, ?_, ⟨hstarts, hstops⟩, rfl⟩
    simp only [dayRange, hstart, hstop]
    exact congrArg Except.ok (if_pos hlt)

/-- A range that is found for a day covers hours of it. -/
theorem isHours_of_dayRange (hdate : date.day < Date.last.day)
    (h : dayRange date label part = .ok (some r)) : r.IsHours date (hoursOf part) := by
  obtain ⟨r', hr', hhours, -⟩ := exists_dayRange_hours hdate label part
  rw [h] at hr'
  cases hr'
  exact hhours

end Resolution

end Daybook
