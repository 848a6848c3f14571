import Daybook.Proofs.Calendar.Years
import Daybook.Proofs.Text.Occurrences
import Daybook.Proofs.Time.WrittenDates
import Daybook.Time.Resolution

/-!
# What a text is resolved to

Seen from a day that is not in the first or the last year of the calendar, no text leads
out of the calendar. What is found is a range of full hours that ends after it starts and
is not longer than a year, with a label.
-/

namespace Daybook

namespace Instant

/-- An instant at the start of an hour. -/
def IsFullHour (t : Instant) : Prop := t.second % 3600 = 0 ∧ t.nano = 0

/-- Whether an hour is full can be evaluated. -/
instance (t : Instant) : Decidable t.IsFullHour := inferInstanceAs (Decidable (_ ∧ _))

/-- A day begins with a full hour. -/
theorem isFullHour_midnight (date : Date) : (midnight date).IsFullHour := ⟨rfl, rfl⟩

/-- Without leap seconds, instants are as far apart as their ranks. -/
theorem nanosSince_of_isFullHour {a b : Instant} (ha : a.IsFullHour) (hb : b.IsFullHour) :
    2 * a.nanosSince b = a.rank - b.rank := by
  obtain ⟨-, ha⟩ := ha
  obtain ⟨-, hb⟩ := hb
  simp only [nanosSince, rank, ha, hb]
  split <;> simp <;> omega

/-- The hours of a day are there, up to its end, if the day has a next one. -/
theorem exists_atHour {date : Date} (hdate : date.day < Date.last.day) {hours : Nat}
    (hhours : hours ≤ 24) :
    ∃ t, atHour date hours = .ok t ∧ t.IsFullHour ∧
      t.rank = (midnight date).rank + hours * 7200000000000 := by
  have hfirst : Date.first.day ≤ date.day + (hours / 24 : Nat) := by
    have hdate := date.first_le
    change -96465292 ≤ _
    omega
  obtain ⟨moved, hshift, hmoved⟩ := Date.exists_shift hfirst (by omega)
  refine ⟨⟨moved, hours % 24 * 3600, 0, by omega, by omega⟩, ?_, ⟨by dsimp only; omega, rfl⟩, ?_⟩
  · simp only [atHour, hshift]
    rfl
  · simp only [rank, midnight]
    omega

end Instant

/-- The hours of a part of a day lie in the day. -/
theorem DayPart.hours_bounds (part : DayPart) :
    part.hours.1 < part.hours.2 ∧ part.hours.2 ≤ 24 := by
  cases part <;> decide

/-- What is known of every range that a text speaks of. -/
structure Range.IsSound (r : Range) : Prop where
  ordered : r.start < r.stop
  fullStart : r.start.IsFullHour
  fullStop : r.stop.IsFullHour
  /-- The range is not longer than 366 days. -/
  short : r.nanoseconds ≤ 366 * 86400000000000
  labelled : r.label ≠ ""

/-- A range between full hours, not more than 366 days apart, is sound. -/
theorem Range.isSound_of_make? {start stop : Instant} {label : String} {r : Range}
    (hstart : start.IsFullHour) (hstop : stop.IsFullHour)
    (hshort : stop.rank ≤ start.rank + 2 * (366 * 86400000000000)) (hlabel : label ≠ "")
    (h : Range.make? start stop label = some r) : r.IsSound := by
  unfold make? at h
  split at h
  · rename_i hordered
    cases h
    have hnanos := Instant.nanosSince_of_isFullHour hstop hstart
    exact ⟨hordered, hstart, hstop, by unfold nanoseconds; dsimp only; omega, hlabel⟩
  · cases h

/-- A computation that goes on from a first step gives something if both do. -/
theorem bind_eq_ok_iff {α β : Type} {x : Except Fault α} {f : α → Except Fault β} {b : β} :
    (x >>= f) = .ok b ↔ ∃ a, x = .ok a ∧ f a = .ok b := by
  cases x with
  | error fault =>
    constructor
    · intro h
      cases h
    · rintro ⟨a, h, -⟩
      cases h
  | ok a =>
    constructor
    · exact fun h => ⟨a, rfl, h⟩
    · rintro ⟨a, ⟨⟩, h⟩
      exact h

/-- A computation meets no fault, and what it finds, if anything, satisfies `φ`. -/
def Finds {α : Type} (φ : α → Prop) (x : Except Fault (Option α)) : Prop :=
  ∃ found, x = .ok found ∧ ∀ a, found = some a → φ a

/-- To find nothing is no fault. -/
theorem finds_none {α : Type} {φ : α → Prop} : Finds φ (.ok none) :=
  ⟨none, rfl, fun a h => by cases h⟩

/-- What is found without a fault is as it should be, if all that can be found is. -/
theorem finds_ok {α : Type} {φ : α → Prop} {found : Option α} (h : ∀ a, found = some a → φ a) :
    Finds φ (.ok found) :=
  ⟨found, rfl, h⟩

namespace Phrase

variable {phrases : List Phrase} {p : Phrase}

/-- A choice that is kept or replaced at each phrase is a phrase, or the first choice. -/
theorem mem_of_foldl {choose : Option Phrase → Phrase → Option Phrase}
    (hchoose : ∀ chosen q, choose chosen q = chosen ∨ choose chosen q = some q)
    {chosen : Option Phrase} (h : phrases.foldl choose chosen = some p) :
    chosen = some p ∨ p ∈ phrases := by
  induction phrases generalizing chosen with
  | nil => exact .inl h
  | cons q phrases ih =>
    rcases ih h with hchosen | hmem
    · rcases hchoose chosen q with hkept | hreplaced
      · exact .inl (hkept.symm.trans hchosen)
      · rw [hreplaced, Option.some_inj] at hchosen
        exact .inr (hchosen ▸ List.mem_cons_self)
    · exact .inr (List.mem_cons_of_mem q hmem)

/-- The preferred phrase is one of those given. -/
theorem mem_of_best? (h : best? phrases = some p) : p ∈ phrases := by
  refine (mem_of_foldl (fun chosen q => ?_) h).resolve_left (by simp)
  cases chosen with
  | none => exact .inr rfl
  | some best =>
    dsimp only
    split
    · exact .inr rfl
    · exact .inl rfl

/-- The label of the preferred part of a day is that of a phrase. -/
theorem mem_of_bestDayPart? {part : DayPart × String} (h : bestDayPart? phrases = some part) :
    ∃ p ∈ phrases, p.label = part.2 := by
  unfold bestDayPart? at h
  split at h
  · rename_i hbest
    cases h
    exact ⟨_, (List.mem_filter.mp (mem_of_best? hbest)).1, rfl⟩
  · cases h

/-- The preferred week is that of a phrase, with its label. -/
theorem mem_of_bestWeek? {week : Int × String} (h : bestWeek? phrases = some week) :
    ∃ p ∈ phrases, p.label = week.2 ∧ p.anchor = .week week.1 := by
  unfold bestWeek? at h
  split at h
  · rename_i hbest
    cases h
    exact ⟨_, (List.mem_filter.mp (mem_of_best? hbest)).1, rfl, rfl⟩
  · cases h

end Phrase

/-- How many days after today, or after the Monday of this week, a day or a week begins. -/
def Anchor.ahead : Anchor → Int
  | .day offset => offset
  | .weekday index => index
  | .week offset => 7 * offset
  | _ => 0

/-- The phrases of the table have a label and speak of the near future at the latest. -/
theorem Phrase.of_mem_table :
    ∀ p ∈ Phrase.table, p.label ≠ "" ∧ p.anchor.ahead ≤ 7 := by decide +kernel

namespace Resolution

variable {phrases : List Phrase} {today : Date} {now : Instant}

/-- Two labels that are joined are not empty if the second one is not. -/
theorem joinLabels_ne_empty {first second : String} (h : second ≠ "") :
    joinLabels first second ≠ "" := by
  unfold joinLabels
  split
  · exact h
  · split <;> simp [h]

/-- The range of a day that has a next one, or of a part of it, begins and ends at full hours
of that day. -/
theorem exists_hours {date : Date} (hdate : date.day < Date.last.day) (label : String)
    (part : Option (DayPart × String)) : ∃ start stop : Instant,
      dayRange date label part = .ok (Range.make? start stop
        (part.elim label fun p => joinLabels label p.2)) ∧
      start.IsFullHour ∧ stop.IsFullHour ∧ start < stop ∧
      stop.rank ≤ start.rank + 2 * (366 * 86400000000000) := by
  unfold dayRange
  cases part with
  | none =>
    obtain ⟨stop, hstop, hfull, hrank⟩ := Instant.exists_atHour hdate (Nat.le_refl 24)
    dsimp only
    rw [hstop]
    exact ⟨_, _, rfl, Instant.isFullHour_midnight date, hfull,
      Instant.lt_iff_rank.mpr (by omega), by omega⟩
  | some found =>
    obtain ⟨part, partLabel⟩ := found
    have hhours := part.hours_bounds
    obtain ⟨start, hstart, hfullStart, hrank⟩ := Instant.exists_atHour hdate
      (Nat.le_trans (Nat.le_of_lt hhours.1) hhours.2)
    obtain ⟨stop, hstop, hfullStop, hrank'⟩ := Instant.exists_atHour hdate hhours.2
    dsimp only
    rw [hstart, hstop]
    exact ⟨_, _, rfl, hfullStart, hfullStop, Instant.lt_iff_rank.mpr (by omega), by omega⟩

/-- A day, or a part of it, that has a next day. -/
theorem finds_dayRange {date : Date} {label : String} {part : Option (DayPart × String)}
    (hdate : date.day < Date.last.day) (hlabel : part = none → label ≠ "")
    (hpart : ∀ p, part = some p → p.2 ≠ "") :
    Finds Range.IsSound (dayRange date label part) := by
  obtain ⟨start, stop, hrange, hstart, hstop, -, hshort⟩ := exists_hours hdate label part
  rw [hrange]
  refine finds_ok fun r hr => Range.isSound_of_make? hstart hstop hshort ?_ hr
  cases part with
  | none => exact hlabel rfl
  | some found => exact joinLabels_ne_empty (hpart _ rfl)

/-- What is known of a day that is found: it has a next day, and a label. -/
def IsSoundDay (found : Date × String) : Prop := found.1.day < Date.last.day ∧ found.2 ≠ ""

/-- A date that is moved within the calendar is a sound day, under any label that is not empty. -/
theorem isSoundDay_of_addDays? {date : Date} {days : Int} {label : String}
    (hdays : date.day + days < Date.last.day) (hlabel : label ≠ "") :
    ∀ found, (date.addDays? days).map (fun moved => (moved, label)) = some found →
      IsSoundDay found := by
  intro found h
  obtain ⟨moved, hmoved, rfl⟩ := Option.map_eq_some_iff.mp h
  exact ⟨by rw [Date.addDays?_eq_some_iff.mp hmoved]; exact hdays, hlabel⟩

/-- A phrase for a day meets no fault, and finds a sound day, at a time that is a year away from
both ends of the calendar. -/
theorem finds_dayOf {day : Phrase} {week : Option (Int × String)} (hday : day ∈ Phrase.table)
    (hweek : ∀ found, week = some found → 7 * found.1 ≤ 7 ∧ found.2 ≠ "")
    (hnow : Date.first.day + 365 ≤ now.date.day ∧ now.date.day + 365 ≤ Date.last.day) :
    Finds IsSoundDay (dayOf day week now) := by
  obtain ⟨hlabel, hahead⟩ := Phrase.of_mem_table day hday
  unfold dayOf
  dsimp only
  split
  · rename_i offset hanchor
    rw [hanchor] at hahead
    simp only [Anchor.ahead] at hahead
    exact finds_ok (isSoundDay_of_addDays? (by omega) hlabel)
  · rename_i index hanchor
    rw [hanchor] at hahead
    simp only [Anchor.ahead] at hahead
    split
    · rename_i offset weekLabel
      obtain ⟨hoffset, hweekLabel⟩ := hweek _ rfl
      obtain ⟨monday, hmonday, -, hle, -⟩ := Date.exists_monday hnow.1
      rw [hmonday]
      refine finds_ok (isSoundDay_of_addDays? (by dsimp only at hoffset; omega) ?_)
      split <;> simp_all
    · refine finds_ok (isSoundDay_of_addDays? ?_ hlabel)
      split <;> omega
  · exact finds_none

/-- What is known of the first day of a band of days, and the first one after: they are not
more than 366 days apart. -/
def IsSoundBand (band : Date × Date) : Prop := band.2.day ≤ band.1.day + 366

/-- A band is sound if what ends it is not more than 366 days behind what begins it. -/
theorem finds_band {start? : Option Date} {stop? : Date → Option Date}
    (h : ∀ start stop, start? = some start → stop? start = some stop →
      stop.day ≤ start.day + 366) :
    Finds IsSoundBand (.ok do
      let start ← start?
      return (start, ← stop? start)) := by
  refine finds_ok fun band hband => ?_
  obtain ⟨start, hstart, hband⟩ := Option.bind_eq_some_iff.mp hband
  obtain ⟨stop, hstop, hband⟩ := Option.bind_eq_some_iff.mp hband
  cases hband
  exact h start stop hstart hstop

/-- A phrase for a band of days meets no fault, and finds a sound band, from a year after the
beginning of the calendar on. -/
theorem finds_bandOf (anchor : Anchor) (htoday : Date.first.day + 365 ≤ today.day) :
    Finds IsSoundBand (bandOf anchor today) := by
  unfold bandOf
  cases anchor with
  | week offset =>
    obtain ⟨monday, hmonday, -⟩ := Date.exists_monday htoday
    dsimp only
    rw [hmonday]
    refine finds_band fun start stop _ hstop => ?_
    have hstop := Date.addDays?_eq_some_iff.mp hstop
    omega
  | month offset =>
    refine finds_band fun start stop _ hstop => ?_
    exact Date.day_of_firstOfMonth? (by decide) hstop
  | quarter index =>
    refine finds_band fun start stop _ hstop => ?_
    exact Date.day_of_firstOfMonth? (by decide) hstop
  | year offset =>
    refine finds_band fun start stop hstart hstop => ?_
    have hstart := (Date.ofCivil?_eq_some_iff.mp hstart).2
    have hstop := (Date.ofCivil?_eq_some_iff.mp hstop).2
    have hyear := daysBeforeYear_succ (today.year + offset)
    simp only [daysBeforeMonth, Nat.reduceLeDiff, decide_false, Bool.and_false] at hstart hstop
    split at hyear <;> simp at hstart hstop <;> omega
  | recent =>
    refine finds_band fun start stop hstart hstop => ?_
    have hstart := Date.addDays?_eq_some_iff.mp hstart
    have hstop := Date.addDays?_eq_some_iff.mp hstop
    omega
  | day _ | weekday _ | dayPart _ => exact finds_none

/-- A date is never labelled with the empty text. -/
theorem dateLabel_ne_empty (style : DateStyle) (date : Date) (month day : Nat) :
    dateLabel style date month day ≠ "" := by
  cases style <;> simp [dateLabel]

/-- The numbers of a written date are those of a match of some pattern. -/
theorem exists_of_writtenDate? {cs : List Char} {style : DateStyle} {written : WrittenDate}
    (h : writtenDate? cs = some (style, written)) :
    ∃ p found, DatePattern.Stands p cs found ∧ found.date = written := by
  obtain ⟨p, -, hp⟩ := List.exists_of_findSome?_eq_some h
  obtain ⟨found, hfound, heq⟩ := Option.map_eq_some_iff.mp hp
  cases heq
  exact ⟨p, found, DatePattern.stands_of_mem_findAll (List.mem_of_mem_head? hfound), rfl⟩

/-- The date that decides is the first one that the first matching pattern finds. -/
theorem writtenDate?_eq_some {cs : List Char} {before after : List DatePattern} {p : DatePattern}
    {found : DateMatch} (hall : DatePattern.all = before ++ p :: after)
    (hbefore : ∀ q ∈ before, q.findAll cs = []) (hfound : (p.findAll cs).head? = some found) :
    writtenDate? cs = some (p.style, found.date) := by
  have hnone : before.findSome? (fun q => (q.findAll cs).head?.map fun found =>
      (q.style, found.date)) = none := by
    refine List.findSome?_eq_none_iff.mpr fun q hq => ?_
    rw [hbefore q hq]
    rfl
  rw [writtenDate?, hall, List.findSome?_append, hnone, Option.none_or, List.findSome?_cons,
    hfound, Option.map_some]

/-- A written date is a sound day, at any time before the last year of the calendar. -/
theorem isSoundDay_of_absoluteDate? {cs : List Char} (hyear : today.year ≤ 262141)
    {found : Date × String} (h : absoluteDate? cs today = some found) : IsSoundDay found := by
  simp only [absoluteDate?, Option.bind_eq_bind, Option.bind_eq_some_iff, Option.pure_def,
    Option.some.injEq, Prod.exists] at h
  obtain ⟨style, written, hwritten, date, hdate, rfl⟩ := h
  refine ⟨?_, dateLabel_ne_empty _ _ _ _⟩
  obtain ⟨p, found, ⟨front, part, back, rest, -, -, hread⟩, rfl⟩ := exists_of_writtenDate? hwritten
  unfold dateOf? at hdate
  split at hdate
  · rename_i year hwrittenYear
    have hlimit := (DatePattern.of_read? hread).2 year hwrittenYear
    have hbounds := (Date.day_bounds_of_ofCivil? hdate).2
    have hmono := daysBeforeYear_mono (show (year : Int) + 1 ≤ 10000 by omega)
    have hedge : daysBeforeYear 10000 ≤ Date.last.day + epochOffset := by decide
    dsimp only
    omega
  · exact Date.day_of_upcoming? hyear hdate

/-- The preferred part of a day has a label. -/
theorem label_of_bestDayPart? {part : DayPart × String}
    (hphrases : ∀ p ∈ phrases, p ∈ Phrase.table)
    (h : Phrase.bestDayPart? phrases = some part) : part.2 ≠ "" := by
  obtain ⟨p, hp, hlabel⟩ := Phrase.mem_of_bestDayPart? h
  exact hlabel ▸ (Phrase.of_mem_table p (hphrases p hp)).1

/-- The preferred week is at most the next one, and has a label. -/
theorem of_bestWeek? {week : Int × String} (hphrases : ∀ p ∈ phrases, p ∈ Phrase.table)
    (h : Phrase.bestWeek? phrases = some week) : 7 * week.1 ≤ 7 ∧ week.2 ≠ "" := by
  obtain ⟨p, hp, hlabel, hanchor⟩ := Phrase.mem_of_bestWeek? h
  obtain ⟨hne, hahead⟩ := Phrase.of_mem_table p (hphrases p hp)
  rw [hanchor] at hahead
  exact ⟨hahead, hlabel ▸ hne⟩

/-- Phrases of the table meet no fault, and lead to sound ranges. What is found is a range together
with where it came from. -/
theorem finds_ofPhrases (hphrases : ∀ p ∈ phrases, p ∈ Phrase.table)
    (hnow : Date.first.day + 365 ≤ now.date.day ∧ now.date.day + 365 ≤ Date.last.day) :
    Finds Range.IsSound (ofPhrases phrases now) := by
  have hpart : ∀ part, Phrase.bestDayPart? phrases = some part → part.2 ≠ "" :=
    fun _ => label_of_bestDayPart? hphrases
  have hweek : ∀ week, Phrase.bestWeek? phrases = some week → 7 * week.1 ≤ 7 ∧ week.2 ≠ "" :=
    fun _ => of_bestWeek? hphrases
  unfold ofPhrases
  dsimp only
  split
  · rename_i day hbest
    have hday := hphrases day (List.mem_filter.mp (Phrase.mem_of_best? hbest)).1
    obtain ⟨found, hfound, hsound⟩ := finds_dayOf hday hweek hnow
    rw [hfound]
    cases found with
    | none => exact finds_none
    | some found =>
      obtain ⟨hnext, hlabel⟩ := hsound found rfl
      exact finds_dayRange hnext (fun _ => hlabel) hpart
  · split
    · rename_i hsome
      refine finds_dayRange ?_ (fun hnone => ?_) hpart
      · have := hnow.2
        omega
      · simp [hnone] at hsome
    · split
      · exact finds_none
      · rename_i phrase hbest
        have hlabel := (Phrase.of_mem_table phrase (hphrases phrase (Phrase.mem_of_best? hbest))).1
        obtain ⟨found, hfound, hsound⟩ := finds_bandOf phrase.anchor hnow.1
        rw [hfound]
        cases found with
        | none => exact finds_none
        | some band =>
          refine finds_ok fun r hr => ?_
          have hlength : band.2.day ≤ band.1.day + 366 := hsound band rfl
          refine Range.isSound_of_make? (Instant.isFullHour_midnight _)
            (Instant.isFullHour_midnight _) ?_ hlabel hr
          simp only [Instant.rank, Instant.midnight]
          omega

/-- What is resolved by phrases is what the phrases speak of that the text mentions. -/
theorem resolve_eq_relative_iff {text : String} {r : Range} :
    resolve text now = .ok (some ⟨r, .relative⟩) ↔
      Text.allBlank text.toList = false ∧ absoluteDate? text.toList now.date = none ∧
        ofPhrases (Phrase.mentioned text.toList) now = .ok (some r) := by
  refine ⟨fun h => ?_, fun ⟨hblank, hdate, hr⟩ => ?_⟩
  · unfold resolve at h
    dsimp only at h
    split at h
    · cases h
    · rename_i hblank
      refine ⟨Bool.not_eq_true _ ▸ hblank, ?_⟩
      split at h
      · obtain ⟨found, -, h⟩ := bind_eq_ok_iff.mp h
        obtain ⟨range, -, heq⟩ := Option.map_eq_some_iff.mp (Except.ok.inj h)
        cases heq
      · rename_i hdate
        obtain ⟨found, hfound, h⟩ := bind_eq_ok_iff.mp h
        obtain ⟨range, rfl, heq⟩ := Option.map_eq_some_iff.mp (Except.ok.inj h)
        cases heq
        exact ⟨hdate, hfound⟩
  · simp only [resolve, hblank, hdate, hr]
    rfl

/-- Without a written date, a time comes from phrases. -/
theorem source_eq_relative {text : String} {time : Resolution}
    (hdate : absoluteDate? text.toList now.date = none) (h : resolve text now = .ok (some time)) :
    time.source = .relative := by
  unfold resolve at h
  simp only [hdate] at h
  split at h
  · cases h
  · obtain ⟨found, -, hfound⟩ := bind_eq_ok_iff.mp h
    obtain ⟨range, -, rfl⟩ := Option.map_eq_some_iff.mp (Except.ok.inj hfound)
    rfl

/-- A text meets no fault, and is resolved to a sound range if to any, in all years but the first
and the last of the calendar. -/
theorem finds_resolve (text : String) (hfirst : -262142 ≤ now.date.year)
    (hlast : now.date.year ≤ 262141) :
    Finds (fun r => r.range.IsSound) (resolve text now) := by
  have hnow := Date.day_bounds_of_year hfirst hlast
  have hphrases : ∀ p ∈ Phrase.mentioned text.toList, p ∈ Phrase.table :=
    fun p hp => (List.mem_filter.mp hp).1
  have hsource : ∀ {x : Except Fault (Option Range)} (source : TimeSource),
      Finds Range.IsSound x →
      Finds (fun r => r.range.IsSound) (do
        let range ← x
        return range.map fun range => (⟨range, source⟩ : Resolution)) := by
    rintro x source ⟨found, rfl, hsound⟩
    refine finds_ok fun r hr => ?_
    obtain ⟨range, hrange, rfl⟩ := Option.map_eq_some_iff.mp hr
    exact hsound range hrange
  unfold resolve
  dsimp only
  split
  · exact finds_none
  · split
    · rename_i date label habsolute
      obtain ⟨hnext, hlabel⟩ := isSoundDay_of_absoluteDate? hlast habsolute
      refine hsource .absolute (finds_dayRange hnext (fun _ => hlabel) ?_)
      exact fun part => label_of_bestDayPart? hphrases
    · exact hsource .relative (finds_ofPhrases hphrases hnow)

/-- Where a text is seen from a day that is not in the first or the last year of the
calendar, the cuts beside the occurrences of phrases are all between characters, and
resolving the text meets no fault. A range that is found ends after it starts, begins and
ends at a full hour, is not longer than 366 days and has a label. -/
theorem resolve_sound (text : String) (now : Instant) (hfirst : -262142 ≤ now.date.year)
    (hlast : now.date.year ≤ 262141) :
    (∀ p ∈ Phrase.table, ∀ o ∈ Text.occurrences text.toList p.text.toList,
      Text.beside text.toList o.span = .ok (o.before, o.after)) ∧
    ∃ found, resolve text now = .ok found ∧ ∀ r, found = some r →
      r.range.start < r.range.stop ∧ r.range.start.IsFullHour ∧ r.range.stop.IsFullHour ∧
        r.range.nanoseconds ≤ 366 * 86400000000000 ∧ r.range.label ≠ "" := by
  refine ⟨fun p _ o ho => Text.beside_of_mem_occurrences ho, ?_⟩
  obtain ⟨found, hfound, hsound⟩ := finds_resolve text hfirst hlast
  refine ⟨found, hfound, fun r hr => ?_⟩
  obtain ⟨hordered, hstart, hstop, hshort, hlabel⟩ := hsound r hr
  exact ⟨hordered, hstart, hstop, hshort, hlabel⟩

/-- Seen from the last day of the year before the last one, an evening three days later is
still in the calendar. -/
theorem resolve_sound_near_the_end :
    let now : Instant := ⟨⟨95025871, by decide, by decide⟩, 50000, 0, by decide, by decide⟩
    let text := "大后天晚上 dinner"
    (-262142 ≤ now.date.year ∧ now.date.year = 262141) ∧
    (resolve text now).map (·.map fun r => (r.range.start.date.day, r.range.start.hour,
      r.range.label)) = .ok (some (now.date.day + 3, 18, "大后天晚上")) ∧
    (∀ p ∈ Phrase.table, ∀ o ∈ Text.occurrences text.toList p.text.toList,
      Text.beside text.toList o.span = .ok (o.before, o.after)) ∧
    ∃ found, resolve text now = .ok found ∧ ∀ r, found = some r →
      r.range.start < r.range.stop ∧ r.range.start.IsFullHour ∧ r.range.stop.IsFullHour ∧
        r.range.nanoseconds ≤ 366 * 86400000000000 ∧ r.range.label ≠ "" := by
  intro now text
  have hyear : now.date.year = 262141 := by decide +kernel
  have hfirst : -262142 ≤ now.date.year := by rw [hyear]; decide
  exact ⟨⟨hfirst, hyear⟩, by decide +kernel, resolve_sound text now hfirst (Int.le_of_eq hyear)⟩

end Resolution

end Daybook
