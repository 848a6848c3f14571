import Daybook.Proofs.Time.Bands
import Daybook.Proofs.Time.Preference

/-!
# Phrases that narrow each other

A part of a day narrows the day that is named beside it, or today, and a day of the week narrows
the week that is named beside it. A day of the week without a week is the next such day.
-/

namespace Daybook

/-- A day is neither a week nor a part of a day. -/
theorem Anchor.of_isDay {a : Anchor} (h : a.isDay = true) :
    a.isWeek = false ∧ a.isDayPart = false := by
  cases a <;> simp_all [isDay, isDayPart, isWeek]

/-- A week is neither a day nor a part of one. -/
theorem Anchor.of_isWeek {a : Anchor} (h : a.isWeek = true) :
    a.isDay = false ∧ a.isDayPart = false := by
  cases a <;> simp_all [isDay, isDayPart, isWeek]

namespace Resolution

variable {phrases : List Phrase} {day week : Phrase} {now : Instant} {r : Range} {date : Date}
  {label : String} {part : Option (DayPart × String)}

/-- Without the parts of a day, the day and the week that are chosen stay the same. -/
theorem filter_without_dayParts (phrases : List Phrase) {wants : Anchor → Bool}
    (hwants : ∀ a : Anchor, wants a = true → a.isDayPart = false) :
    (phrases.filter (!·.anchor.isDayPart)).filter (wants ·.anchor) =
      phrases.filter (wants ·.anchor) := by
  rw [List.filter_filter]
  refine List.filter_congr fun p _ => ?_
  cases hp : wants p.anchor with
  | false => rfl
  | true => simp [hwants _ hp]

/-- The day that is chosen is there if a range is found, and the range is one of its hours. -/
theorem exists_dayOf (hday : day.IsPreferred (phrases.filter (·.anchor.isDay)))
    (h : ofPhrases phrases now = .ok (some r)) : ∃ date label,
      dayOf day (Phrase.bestWeek? phrases) now = .ok (some (date, label)) ∧
      dayRange date label (Phrase.bestDayPart? phrases) = .ok (some r) := by
  unfold ofPhrases at h
  simp only [Phrase.best?_eq_some_iff.mpr hday] at h
  obtain ⟨found, hdate, h⟩ := bind_eq_ok_iff.mp h
  cases found with
  | none => cases h
  | some found => exact ⟨found.1, found.2, hdate, h⟩

/-- The preferred phrase for a day decides the date, in the preferred week, and the preferred part
of a day decides the hours. -/
theorem ofPhrases_of_dayOf (hday : day.IsPreferred (phrases.filter (·.anchor.isDay)))
    (hdate : dayOf day (Phrase.bestWeek? phrases) now = .ok (some (date, label))) :
    ofPhrases phrases now = dayRange date label (Phrase.bestDayPart? phrases) := by
  unfold ofPhrases
  simp only [Phrase.best?_eq_some_iff.mpr hday, hdate]
  rfl

/-- Without a day, a part of a day is one of today. -/
theorem ofPhrases_of_dayPart (hday : ∀ p ∈ phrases, p.anchor.isDay = false)
    (hpart : Phrase.bestDayPart? phrases ≠ none) :
    ofPhrases phrases now = dayRange now.date "" (Phrase.bestDayPart? phrases) := by
  unfold ofPhrases
  simp only [Phrase.best?_filter_eq_none_iff.mpr hday]
  exact if_pos (Option.isSome_iff_ne_none.mpr hpart)

/-- The next such day of the week, where today counts until the hour after noon is reached. -/
structure IsNextWeekday (now : Instant) (index : Nat) (date : Date) : Prop where
  weekday : date.weekday = index
  soon : now.date.day ≤ date.day ∧ date.day ≤ now.date.day + 7
  today : date = now.date ↔ now.date.weekday = index ∧ now.hour ≤ 12
  first : date ≠ now.date → ∀ other : Date, now.date.day < other.day → other.weekday = index →
    date.day ≤ other.day

/-- A day of the week without a week is the next such day. -/
theorem isNextWeekday_of_dayOf {index : Nat} (hanchor : day.anchor = .weekday index)
    (hindex : index < 7) (h : dayOf day none now = .ok (some (date, label))) :
    IsNextWeekday now index date := by
  unfold dayOf at h
  simp only [hanchor] at h
  generalize hahead : (if ((index : Int) - now.date.weekday) % 7 = 0 ∧ 12 < now.hour then 7
    else ((index : Int) - now.date.weekday) % 7) = ahead at h
  obtain ⟨found, hfound, heq⟩ := Option.map_eq_some_iff.mp (Except.ok.inj h)
  cases heq
  have hday := Date.addDays?_eq_some_iff.mp hfound
  have hsame : date = now.date ↔ date.day = now.date.day :=
    ⟨fun heq => heq ▸ rfl, Date.eq_of_day_eq⟩
  have hweekday : ∀ other : Date, (other.weekday : Int) = (other.day + 3) % 7 := by
    intro other
    unfold Date.weekday
    omega
  have htoday := hweekday now.date
  have hdate := hweekday date
  constructor
  · split at hahead <;> omega
  · split at hahead <;> omega
  · rw [hsame]
    split at hahead <;> omega
  · intro hne other hafter hother
    rw [Ne, hsame] at hne
    have := hweekday other
    split at hahead <;> omega

/-- A day of the week with a week is a day of that week. -/
theorem of_dayOf_week {index : Nat} {offset : Int} {weekLabel : String} {first next : Date}
    (hanchor : day.anchor = .weekday index) (hindex : index < 7)
    (hnow : Date.first.day + 365 ≤ now.date.day)
    (hspans : (Anchor.week offset).Spans now first next)
    (h : dayOf day (some (offset, weekLabel)) now = .ok (some (date, label))) :
    date.weekday = index ∧ first.day ≤ date.day ∧ date.day < next.day := by
  unfold dayOf at h
  obtain ⟨monday, hmonday, hweekday, hle, hlt⟩ := Date.exists_monday hnow
  simp only [hanchor, hmonday] at h
  obtain ⟨found, hfound, heq⟩ := Option.map_eq_some_iff.mp (Except.ok.inj h)
  cases heq
  have hday := Date.addDays?_eq_some_iff.mp hfound
  obtain ⟨hfirst, hnext, hle', hlt'⟩ := hspans
  unfold Date.weekday at *
  omega

/-- What is known of a range that some phrases speak of together, seen from `now`. -/
structure IsComposed (phrases : List Phrase) (now : Instant) (r : Range) : Prop where
  /-- A part of a day narrows what the phrases for a day, and for its week, speak of alone. -/
  partOfDay : (∃ p ∈ phrases, p.anchor.isDayPart = true) →
    (∃ p ∈ phrases, p.anchor.isDay = true) → ∃ whole,
      ofPhrases (phrases.filter (!·.anchor.isDayPart)) now = .ok (some whole) ∧ r.Within whole
  /-- Without a day it narrows today. -/
  partOfToday : (∃ p ∈ phrases, p.anchor.isDayPart = true) →
    (∀ p ∈ phrases, p.anchor.isDay = false) → ∃ whole : Range,
      whole.IsDay now.date ∧ r.Within whole
  /-- A day of the week lies in what the preferred week refers to by itself. -/
  dayOfWeek : ∀ day week : Phrase, ∀ index, day.IsPreferred (phrases.filter (·.anchor.isDay)) →
    day.anchor = .weekday index → week.IsPreferred (phrases.filter (·.anchor.isWeek)) →
      ∃ (date : Date) (whole band : Range), whole.IsDay date ∧ r.Within whole ∧
        r.start.date = date ∧ date.weekday = index ∧
        resolve week.text now = .ok (some ⟨band, .relative⟩) ∧ whole.Within band
  /-- Without a week it is the next such day. -/
  nextWeekday : ∀ day : Phrase, ∀ index, day.IsPreferred (phrases.filter (·.anchor.isDay)) →
    day.anchor = .weekday index → (∀ p ∈ phrases, p.anchor.isWeek = false) →
      ∃ (date : Date) (whole : Range), whole.IsDay date ∧ r.Within whole ∧
        r.start.date = date ∧ IsNextWeekday now index date

section Composed

variable (hphrases : ∀ p ∈ phrases, p ∈ Phrase.table)
  (hnow : Date.first.day + 365 ≤ now.date.day ∧ now.date.day + 365 ≤ Date.last.day)
include hphrases hnow

/-- The day that is chosen has a next one. -/
theorem day_lt_last_of_dayOf (hday : day ∈ phrases)
    (hdate : dayOf day (Phrase.bestWeek? phrases) now = .ok (some (date, label))) :
    date.day < Date.last.day := by
  obtain ⟨found, hfound, hsound⟩ :=
    finds_dayOf (hphrases day hday) (fun _ => of_bestWeek? hphrases) hnow
  rw [hdate] at hfound
  cases hfound
  exact (hsound _ rfl).1

/-- A range that is found for a day covers hours of it, which lie in the whole day. -/
theorem exists_whole (hday : day.IsPreferred (phrases.filter (·.anchor.isDay)))
    (h : ofPhrases phrases now = .ok (some r)) : ∃ (date : Date) (label : String) (whole : Range),
      dayOf day (Phrase.bestWeek? phrases) now = .ok (some (date, label)) ∧
      dayRange date label none = .ok (some whole) ∧
      whole.IsDay date ∧ r.Within whole ∧ r.start.date = date := by
  obtain ⟨date, label, hdate, hrange⟩ := exists_dayOf hday h
  have hnext := day_lt_last_of_dayOf hphrases hnow (List.mem_filter.mp hday.mem).1 hdate
  have hhours := isHours_of_dayRange hnext hrange
  obtain ⟨whole, hwhole, hisDay, -⟩ := exists_dayRange_hours hnext label none
  have hbounds := hoursOf_bounds (Phrase.bestDayPart? phrases)
  exact ⟨date, label, whole, hdate, hwhole, hisDay,
    hhours.within hisDay (Nat.zero_le _) hbounds.2, hhours.1.date_eq (by omega)⟩

/-- The phrases for a part of a day narrow the day that the others speak of. -/
theorem exists_without_dayParts (hsome : ∃ p ∈ phrases, p.anchor.isDay = true)
    (h : ofPhrases phrases now = .ok (some r)) : ∃ whole,
      ofPhrases (phrases.filter (!·.anchor.isDayPart)) now = .ok (some whole) ∧
      r.Within whole := by
  obtain ⟨p, hp, hisDay⟩ := hsome
  obtain ⟨day, hday, -⟩ := Phrase.exists_isPreferred_filter hp hisDay
  obtain ⟨date, label, whole, hdate, hwhole, -, hwithin, -⟩ := exists_whole hphrases hnow hday h
  refine ⟨whole, ?_, hwithin⟩
  have hweek : Phrase.bestWeek? (phrases.filter (!·.anchor.isDayPart)) =
      Phrase.bestWeek? phrases := by
    unfold Phrase.bestWeek?
    rw [filter_without_dayParts phrases fun a ha => (Anchor.of_isWeek ha).2]
  have hpart : Phrase.bestDayPart? (phrases.filter (!·.anchor.isDayPart)) = none := by
    rw [Phrase.bestDayPart?_eq_none_iff]
    intro q hq
    simpa using (List.mem_filter.mp hq).2
  have hday' : day.IsPreferred
      ((phrases.filter (!·.anchor.isDayPart)).filter (·.anchor.isDay)) := by
    rw [filter_without_dayParts phrases fun a ha => (Anchor.of_isDay ha).2]
    exact hday
  rw [← hweek] at hdate
  rw [ofPhrases_of_dayOf hday' hdate, hpart]
  exact hwhole

omit hphrases in
/-- Without a day, a part of a day lies in today. -/
theorem exists_today (hsome : ∃ p ∈ phrases, p.anchor.isDayPart = true)
    (hday : ∀ p ∈ phrases, p.anchor.isDay = false) (h : ofPhrases phrases now = .ok (some r)) :
    ∃ whole : Range, whole.IsDay now.date ∧ r.Within whole := by
  obtain ⟨p, hp, hisPart⟩ := hsome
  have hpart : Phrase.bestDayPart? phrases ≠ none := by
    intro hnone
    have := Phrase.bestDayPart?_eq_none_iff.mp hnone p hp
    rw [hisPart] at this
    cases this
  rw [ofPhrases_of_dayPart hday hpart] at h
  have hnext : now.date.day < Date.last.day := by omega
  obtain ⟨whole, -, hisDay, -⟩ := exists_dayRange_hours hnext "" none
  have hbounds := hoursOf_bounds (Phrase.bestDayPart? phrases)
  exact ⟨whole, hisDay, (isHours_of_dayRange hnext h).within hisDay (Nat.zero_le _) hbounds.2⟩

/-- Phrases that speak of a range narrow each other. -/
theorem isComposed_of_ofPhrases (hyear : -262100 ≤ now.date.year ∧ now.date.year ≤ 262100)
    (h : ofPhrases phrases now = .ok (some r)) : IsComposed phrases now r := by
  have hindex : ∀ {day : Phrase} {index : Nat},
      day.IsPreferred (phrases.filter (·.anchor.isDay)) → day.anchor = .weekday index →
        index < 7 := by
    intro day index hday hanchor
    have hnear := Phrase.isNear_of_mem_table day (hphrases day (List.mem_filter.mp hday.mem).1)
    rw [hanchor] at hnear
    simpa [Anchor.isNear] using hnear
  constructor
  · intro _ hday
    exact exists_without_dayParts hphrases hnow hday h
  · intro hpart hday
    exact exists_today hnow hpart hday h
  · intro day week index hday hanchor hweek
    obtain ⟨hmem, hisWeek⟩ := List.mem_filter.mp hweek.mem
    obtain ⟨date, label, whole, hdate, -, hisDay, hwithin, hstart⟩ :=
      exists_whole hphrases hnow hday h
    obtain ⟨band, hband, -, hcovers⟩ := exists_range_alone hnow (hphrases week hmem) hyear
    obtain ⟨offset, hoffset⟩ : ∃ offset, week.anchor = .week offset := by
      cases hweekAnchor : week.anchor <;> simp_all [Anchor.isWeek]
    rw [Phrase.bestWeek?_eq_some_iff.mpr ⟨week, hweek, hoffset, rfl⟩] at hdate
    rw [hoffset] at hcovers
    obtain ⟨first, next, hdays, hspans⟩ := Anchor.exists_spans rfl hcovers
    obtain ⟨hweekday, hfirst, hlast⟩ :=
      of_dayOf_week hanchor (hindex hday hanchor) hnow.1 hspans hdate
    exact ⟨date, whole, band, hisDay, hwithin, hstart, hweekday, hband,
      hisDay.within hdays hfirst hlast⟩
  · intro day index hday hanchor hweek
    obtain ⟨date, label, whole, hdate, -, hisDay, hwithin, hstart⟩ :=
      exists_whole hphrases hnow hday h
    rw [Phrase.bestWeek?_eq_none_iff.mpr hweek] at hdate
    exact ⟨date, whole, hisDay, hwithin, hstart,
      isNextWeekday_of_dayOf hanchor (hindex hday hanchor) hdate⟩

end Composed

/-- Seen from a year that is not among the first or the last forty of the calendar, what a text
is resolved to by its phrases is narrowed down by them: a part of a day to hours of the day that
the other phrases speak of, or of today, and a day of the week to a day of the preferred week, or
else to the next such day. -/
theorem resolve_composed (text : String) (now : Instant) (hfirst : -262100 ≤ now.date.year)
    (hlast : now.date.year ≤ 262100) {r : Range}
    (h : resolve text now = .ok (some ⟨r, .relative⟩)) :
    IsComposed (Phrase.mentioned text.toList) now r := by
  have hnow := Date.day_bounds_of_year (show -262142 ≤ now.date.year by omega) (by omega)
  exact isComposed_of_ofPhrases (fun p hp => (List.mem_filter.mp hp).1) hnow ⟨hfirst, hlast⟩
    (resolve_eq_relative_iff.mp h).2.2

/-- The afternoon of a Friday next week, seen from a Wednesday. -/
theorem resolve_composed_next_week :
    let text := "下周五下午 friday"
    let now : Instant := ⟨⟨20103, by decide, by decide⟩, 37800, 0, by decide, by decide⟩
    let r : Range := ⟨⟨⟨20112, by decide, by decide⟩, 43200, 0, by decide, by decide⟩,
      ⟨⟨20112, by decide, by decide⟩, 64800, 0, by decide, by decide⟩, "下周friday下午"⟩
    (-262100 ≤ now.date.year ∧ now.date.year ≤ 262100) ∧
    resolve text now = .ok (some ⟨r, .relative⟩) ∧
    IsComposed (Phrase.mentioned text.toList) now r := by
  intro text now r
  have hyear : -262100 ≤ now.date.year ∧ now.date.year ≤ 262100 := by decide +kernel
  have hresolve : resolve text now = .ok (some ⟨r, .relative⟩) := by decide +kernel
  exact ⟨hyear, hresolve, resolve_composed text now hyear.1 hyear.2 hresolve⟩

end Resolution

end Daybook
