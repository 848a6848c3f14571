import Daybook.Proofs.Calendar.Years
import Daybook.Settings.Check
import Daybook.Time.Range

/-!
# Ranges within their limits

A range is acceptable if it ends after it starts, starts no later than the latest start, and
lasts no longer than it may. The three checks are made in this order, and an error tells of the
first one that fails, with the figures of the range. The length of a range is told in whole days,
though: a range that is too long by less than a day is said to have as many days as it may.
-/

namespace Daybook

/-- The nanoseconds of a day. -/
def dayLength : Int := 86400000000000

namespace Instant

variable {t now later : Instant} {days : Nat}

/-- An instant comes a number of days after another one: on the date so many days later, at the
same time of day. On another date, a leap second is over. -/
structure IsDaysAfter (later : Instant) (days : Nat) (t : Instant) : Prop where
  day : later.date.day = t.date.day + days
  second : later.second = t.second
  nano : later.nano = if days = 0 then t.nano else t.nano % 1000000000

/-- There is one instant so many days later. -/
theorem IsDaysAfter.eq {other : Instant} (h : later.IsDaysAfter days t)
    (hother : other.IsDaysAfter days t) : later = other := by
  rw [← rank_inj, rank, rank, h.day, h.second, h.nano, hother.day, hother.second, hother.nano]

/-- Adding days gives the instant that comes so many days after, where the calendar has it. -/
theorem addDays_eq (h : later.IsDaysAfter days t) : t.addDays days = .ok later := by
  obtain ⟨moved, hshift, hmoved⟩ : ∃ moved, t.date.shift (days : Nat) = .ok moved ∧
      moved.day = t.date.day + (days : Nat) :=
    Date.exists_shift (h.day ▸ later.date.first_le) (h.day ▸ later.date.le_last)
  have hsum : ∃ sum, t.addDays days = .ok sum ∧ sum.IsDaysAfter days t := by
    unfold addDays
    rw [hshift]
    by_cases hzero : days = 0
    · exact ⟨t, by simp only [hzero]; rfl, by simp [hzero], rfl, by simp [hzero]⟩
    · refine ⟨⟨moved, t.second, t.nano % 1000000000, t.second_lt, by omega⟩, ?_, hmoved, rfl, ?_⟩
      · change (if days = 0 then _ else _) = _
        rw [if_neg hzero]
        rfl
      · rw [if_neg hzero]
  obtain ⟨sum, hok, hafter⟩ := hsum
  rw [hok, hafter.eq h]

/-- Outside of leap seconds, an instant is no later than another one that comes some days after
now if no more time than these days lies between now and it. -/
theorem le_iff_nanosSince_le (hlater : later.IsDaysAfter days now) (ht : t.nano < 1000000000)
    (hnow : now.nano < 1000000000) : t ≤ later ↔ t.nanosSince now ≤ days * dayLength := by
  have hnano : later.nano = now.nano := by
    rw [hlater.nano, Nat.mod_eq_of_lt hnow, ite_self]
  have hleap : ¬1000000000 ≤ t.nano ∧ ¬1000000000 ≤ now.nano := by omega
  have hsecond := t.second_lt
  have hsecond' := now.second_lt
  rw [le_iff_rank]
  simp only [rank, nanosSince, hlater.day, hlater.second, hnano, hleap, if_false, ite_self,
    dayLength]
  omega

end Instant

namespace Range

variable {r : Range} {now latest : Instant} {limits : Settings.TimeLimits}
  {answer : Option RangeError}

/-- What is the case if a range is answered for in a certain way. -/
inductive Verdict (r : Range) (latest : Instant) (limits : Settings.TimeLimits) :
    Option RangeError → Prop where
  | notAfterStart : r.stop ≤ r.start →
      Verdict r latest limits (some (.notAfterStart r.start r.stop))
  | tooFarAhead : r.start < r.stop → latest < r.start →
      Verdict r latest limits (some (.tooFarAhead r.start limits.maxFutureDays))
  | tooLong : r.start < r.stop → r.start ≤ latest →
      limits.maxRangeDays * dayLength < r.nanoseconds →
      Verdict r latest limits (some (.tooLong r.days limits.maxRangeDays))
  | acceptable : r.start < r.stop → r.start ≤ latest →
      r.nanoseconds ≤ limits.maxRangeDays * dayLength → Verdict r latest limits none

/-- If the calendar has the latest start, the three checks are made one after the other. -/
theorem error?_eq (hlatest : latest.IsDaysAfter limits.maxFutureDays now) :
    r.error? now limits = .ok (
      if ¬r.start < r.stop then some (.notAfterStart r.start r.stop)
      else if latest < r.start then some (.tooFarAhead r.start limits.maxFutureDays)
      else if limits.maxRangeDays * dayLength < r.nanoseconds then
        some (.tooLong r.days limits.maxRangeDays)
      else none) := by
  simp only [error?, isWellFormed, Instant.addDays_eq hlatest, dayLength, pure, bind, Except.pure,
    Except.bind, Bool.not_eq_true', decide_eq_false_iff_not]
  simp only [← apply_ite (Except.ok (ε := Fault))]
  congr

/-- The checks come to a verdict. -/
theorem exists_verdict (r : Range) (hlatest : latest.IsDaysAfter limits.maxFutureDays now) :
    ∃ answer, r.error? now limits = .ok answer ∧ Verdict r latest limits answer := by
  refine ⟨_, error?_eq hlatest, ?_⟩
  split
  · rename_i hformed
    exact .notAfterStart (Instant.not_lt.mp hformed)
  · rename_i hformed
    rw [not_not] at hformed
    split
    · rename_i hfar
      exact .tooFarAhead hformed hfar
    · rename_i hfar
      have hsoon := Instant.not_lt.mp hfar
      split
      · rename_i hlong
        exact .tooLong hformed hsoon hlong
      · rename_i hlong
        exact .acceptable hformed hsoon (Int.not_lt.mp hlong)

/-- A range is found acceptable if no check fails, and only then. -/
theorem Verdict.eq_none_iff (h : Verdict r latest limits answer) : answer = none ↔
    r.start < r.stop ∧ r.start ≤ latest ∧ r.nanoseconds ≤ limits.maxRangeDays * dayLength := by
  cases h with
  | notAfterStart hformed => simp [Instant.not_lt.mpr hformed]
  | tooFarAhead _ hfar => simp [Instant.not_le.mpr hfar]
  | tooLong _ _ hlong => simp [Int.not_le.mpr hlong]
  | acceptable hformed hsoon hshort => simp [hformed, hsoon, hshort]

/-- The days of a range are the whole ones. -/
theorem days_spec (h : 0 ≤ r.nanoseconds) :
    r.days * dayLength ≤ r.nanoseconds ∧ r.nanoseconds < (r.days + 1) * dayLength := by
  unfold days
  rw [Int.tdiv_eq_ediv_of_nonneg h, dayLength]
  omega

/-- Every range gets an answer, if the calendar has the latest start. It is found acceptable if
and only if it ends after it starts, starts no later than that, and is no longer than it may be.
An error tells of one of these that fails, with the figures of the range. The days in it are the
whole ones: they are more than the limit if and only if the range is longer by a day at least. -/
theorem error?_truthful (r : Range) {now latest : Instant} (limits : Settings.TimeLimits)
    (hlatest : latest.IsDaysAfter limits.maxFutureDays now) :
    ∃ answer, r.error? now limits = .ok answer ∧
      (answer = none ↔ r.start < r.stop ∧ r.start ≤ latest ∧
        r.nanoseconds ≤ limits.maxRangeDays * dayLength) ∧
      (r.start.nano < 1000000000 → now.nano < 1000000000 →
        (r.start ≤ latest ↔ r.start.nanosSince now ≤ limits.maxFutureDays * dayLength)) ∧
      (∀ start stop, answer = some (.notAfterStart start stop) →
        start = r.start ∧ stop = r.stop ∧ stop ≤ start) ∧
      (∀ start limit, answer = some (.tooFarAhead start limit) →
        start = r.start ∧ limit = limits.maxFutureDays ∧ latest < start) ∧
      ∀ days limit, answer = some (.tooLong days limit) →
        limit = limits.maxRangeDays ∧ limit * dayLength < r.nanoseconds ∧
        days * dayLength ≤ r.nanoseconds ∧ r.nanoseconds < (days + 1) * dayLength ∧
        limit ≤ days ∧ (limit < days ↔ (limit + 1) * dayLength ≤ r.nanoseconds) := by
  obtain ⟨answer, hanswer, hverdict⟩ := exists_verdict r hlatest
  refine ⟨answer, hanswer, hverdict.eq_none_iff, Instant.le_iff_nanosSince_le hlatest, ?_, ?_, ?_⟩
  · rintro start stop rfl
    cases hverdict with
    | notAfterStart hformed => exact ⟨rfl, rfl, hformed⟩
  · rintro start limit rfl
    cases hverdict with
    | tooFarAhead _ hfar => exact ⟨rfl, rfl, hfar⟩
  · rintro days limit rfl
    cases hverdict with
    | tooLong _ _ hlong =>
      obtain ⟨hwhole, hrest⟩ : _ ∧ _ := days_spec (r := r) (by rw [dayLength] at hlong; omega)
      refine ⟨rfl, hlong, hwhole, hrest, ?_⟩
      rw [dayLength] at *
      omega

/-- The first instant of the year 2025. -/
def newYear : Instant := .midnight { day := 20089 }

/-- The range of 92 days and a second from the first instant of the year 2025 on. -/
def overlong : Range where
  start := newYear
  stop := { Instant.midnight { day := 20181 } with second := 1, second_lt := by omega }
  label := "winter"

/-- A range is longer than the 92 days that it may have, and is said to have 92 of them: no more
than it may. -/
theorem figures_alike_of_overlong :
    Settings.checkTimeLimits {} = [] ∧
    (∃ latest, newYear.addDays ({} : Settings.TimeLimits).maxFutureDays = .ok latest) ∧
    92 * dayLength < overlong.nanoseconds ∧
    ∃ days limit, overlong.error? newYear {} = .ok (some (.tooLong days limit)) ∧
      (RangeError.tooLong days limit).message = "span of 92 days exceeds the limit of 92 days" ∧
      ¬(limit : Int) < days :=
  ⟨by decide +kernel, ⟨_, rfl⟩, by decide, 92, 92, rfl, by decide +kernel, by decide⟩

/-- The leap second at the end of the year 2016. -/
def leapSecond : Instant := { date := { day := 17166 }, second := 86399, nano := 1500000000 }

/-- The instant 31 days after it. -/
def leapSecondLater : Instant := { date := { day := 17197 }, second := 86399, nano := 500000000 }

/-- A range of 93 days that starts as late as it may, 31 days after a leap second, is too long,
and is said to be so. -/
theorem error?_truthful_after_leap_second :
    let r : Range := ⟨leapSecondLater, { leapSecondLater with date := { day := 17290 } }, "spring"⟩
    leapSecondLater.IsDaysAfter ({} : Settings.TimeLimits).maxFutureDays leapSecond ∧
    r.start < r.stop ∧ r.start ≤ leapSecondLater ∧
    r.error? leapSecond {} = .ok (some (.tooLong 93 92)) ∧ 92 * dayLength < r.nanoseconds ∧
    ¬(r.start < r.stop ∧ r.start ≤ leapSecondLater ∧ r.nanoseconds ≤ 92 * dayLength) := by
  intro r
  have hlater : leapSecondLater.IsDaysAfter ({} : Settings.TimeLimits).maxFutureDays leapSecond :=
    ⟨by decide, rfl, by decide⟩
  have hanswer : r.error? leapSecond {} = .ok (some (.tooLong 93 92)) := by decide +kernel
  obtain ⟨answer, htruth, hnone, -, -, -, hlong⟩ := error?_truthful r {} hlater
  obtain rfl : answer = some (.tooLong 93 92) := (Except.ok.inj (hanswer.symm.trans htruth)).symm
  obtain ⟨-, hover, -⟩ := hlong 93 92 rfl
  exact ⟨hlater, by decide, by decide, hanswer, hover, fun hshort => nomatch hnone.mpr hshort⟩

end Range

end Daybook
