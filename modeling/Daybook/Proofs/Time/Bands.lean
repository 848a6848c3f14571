import Daybook.Proofs.Calendar.Months
import Daybook.Proofs.Time.Hours
import Daybook.Proofs.Time.LonePhrases

/-!
# The bands of the calendar

What the phrases for days, weeks, months, quarters and years refer to, seen from now: each
covers whole days of the calendar, those of one kind follow each other without a gap, and the
current ones contain now.
-/

namespace Daybook

namespace Anchor

/-- The days that an anchor refers to, seen from `now`, run from `first` up to, and without,
`next`. A part of a day is not made of days. -/
def Spans (now : Instant) (first next : Date) : Anchor → Prop
  | day offset => first.day = now.date.day + offset ∧ next.day = first.day + 1
  | weekday index => first.weekday = index ∧ next.day = first.day + 1 ∧
      if now.hour ≤ 12 then now.date.day ≤ first.day ∧ first.day < now.date.day + 7
      else now.date.day < first.day ∧ first.day ≤ now.date.day + 7
  | dayPart _ => False
  | week offset => first.weekday = 0 ∧ next.day = first.day + 7 ∧
      first.day ≤ now.date.day + 7 * offset ∧ now.date.day + 7 * offset < next.day
  | month offset => first.IsFirstOfMonth (now.date.monthIndex + offset) ∧
      next.IsFirstOfMonth (now.date.monthIndex + offset + 1)
  | quarter index => first.IsFirstOfMonth (now.date.year * 12 + 3 * (index - 1 : Nat)) ∧
      next.IsFirstOfMonth (now.date.year * 12 + 3 * (index - 1 : Nat) + 3)
  | year offset => first.IsFirstOfMonth ((now.date.year + offset) * 12) ∧
      next.IsFirstOfMonth ((now.date.year + offset + 1) * 12)
  | recent => first.day = now.date.day - 6 ∧ next.day = now.date.day + 1

/-- What an anchor refers to, seen from `now`: some hours of today, or some days. -/
def Covers (now : Instant) (r : Range) : Anchor → Prop
  | dayPart part =>
    r.start.IsHourOf now.date part.hours.1 ∧ r.stop.IsHourOf now.date part.hours.2
  | anchor => ∃ first next : Date, r.IsDays first next ∧ anchor.Spans now first next

/-- How far from now the anchors of the table lead. -/
def isNear : Anchor → Bool
  | day offset | year offset => -3 ≤ offset && offset ≤ 3
  | weekday index => index < 7
  | week offset | month offset => -1 ≤ offset && offset ≤ 1
  | quarter index => 1 ≤ index && index ≤ 4
  | dayPart _ | recent => true

/-- The week, month, quarter or year after one. -/
def next? : Anchor → Option Anchor
  | week offset => some (week (offset + 1))
  | month offset => some (month (offset + 1))
  | quarter index => if 1 ≤ index ∧ index < 4 then some (quarter (index + 1)) else none
  | year offset => some (year (offset + 1))
  | day _ | weekday _ | dayPart _ | recent => none

/-- The day, week, month and year of now, and the days before now. -/
def current : List Anchor := [day 0, week 0, month 0, year 0, recent]

/-- The weeks, months, quarters and years of which phrases speak. -/
def bands : List Anchor :=
  [-1, 0, 1].map week ++ [-1, 0, 1].map month ++ [1, 2, 3, 4].map quarter ++
    [-3, -2, -1, 0, 1, 2, 3].map year

variable {a b : Anchor} {now : Instant} {r : Range} {first next first' next' : Date}

/-- Only weeks, months, quarters and years follow each other. -/
theorem isDayPart_of_next? (h : a.next? = some b) :
    a.isDayPart = false ∧ b.isDayPart = false := by
  cases a <;> cases b <;> first | exact ⟨rfl, rfl⟩ | simp [next?] at h

/-- The anchors of now are no parts of a day. -/
theorem isDayPart_of_mem_current : ∀ a ∈ current, a.isDayPart = false := by decide

/-- An anchor covers the range of the days that it spans. -/
theorem covers_of_spans (hr : r.IsDays first next) (h : a.Spans now first next) :
    a.Covers now r := by
  cases a with
  | dayPart _ => exact h.elim
  | _ => exact ⟨first, next, hr, h⟩

/-- Conversely, a range that an anchor covers consists of days that it spans, unless it is a part of
a day. -/
theorem exists_spans (hpart : a.isDayPart = false) (h : a.Covers now r) :
    ∃ first next : Date, r.IsDays first next ∧ a.Spans now first next := by
  cases a with
  | dayPart _ => cases hpart
  | _ => exact h

/-- The days of one week, month, quarter or year end where those of the next one begin. -/
theorem Spans.meets (ha : a.Spans now first next) (hb : b.Spans now first' next')
    (hnext : a.next? = some b) : next = first' := by
  cases a with
  | week offset =>
    cases hnext
    obtain ⟨hfirst, hnext, hle, hlt⟩ := ha
    obtain ⟨hfirst', hnext', hle', hlt'⟩ := hb
    unfold Date.weekday at hfirst hfirst'
    exact Date.eq_of_day_eq (by omega)
  | month offset =>
    cases hnext
    exact ha.2.unique (by rw [Int.add_assoc]; exact hb.1)
  | quarter index =>
    obtain ⟨⟨hfirst, hlast⟩, hb'⟩ := Option.ite_none_right_eq_some.mp hnext
    cases hb'
    refine ha.2.unique (Eq.mp (congrArg _ ?_) hb.1)
    omega
  | year offset =>
    cases hnext
    exact ha.2.unique (by rw [Int.add_assoc]; exact hb.1)
  | day _ | weekday _ | dayPart _ | recent => cases hnext

/-- The first quarter begins as the year does, and the fourth ends as it does. -/
theorem Spans.quarters_of_year (hyear : (year 0).Spans now first next)
    (hquarter : a.Spans now first' next') :
    (a = quarter 1 → first' = first) ∧ (a = quarter 4 → next' = next) := by
  obtain ⟨hfirst, hnext⟩ := hyear
  constructor
  · rintro rfl
    refine hquarter.1.unique (Eq.mp (congrArg _ ?_) hfirst)
    omega
  · rintro rfl
    refine hquarter.2.unique (Eq.mp (congrArg _ ?_) hnext)
    omega

/-- The day, week, month and year of now hold today, as do the days before it. -/
theorem Spans.day_bounds (h : a.Spans now first next) (ha : a ∈ current) :
    first.day ≤ now.date.day ∧ now.date.day < next.day := by
  simp only [current, List.mem_cons, List.not_mem_nil, or_false] at ha
  rcases ha with rfl | rfl | rfl | rfl | rfl
  · obtain ⟨hfirst, hnext⟩ := h
    omega
  · obtain ⟨-, hnext, hle, hlt⟩ := h
    omega
  · obtain ⟨hfirst, hnext⟩ := h
    exact Date.day_bounds_of_monthIndex hfirst hnext (by omega) (by omega)
  · obtain ⟨hfirst, hnext⟩ := h
    have hyear := Date.monthIndex_div now.date
    exact Date.day_bounds_of_monthIndex hfirst hnext (by omega) (by omega)
  · obtain ⟨hfirst, hnext⟩ := h
    omega

end Anchor

/-- No phrase of the table leads far from now. -/
theorem Phrase.isNear_of_mem_table : ∀ p ∈ table, p.anchor.isNear = true := by decide +kernel

namespace Resolution

variable {now : Instant} {date first next : Date} {p : Phrase} {label : String}

/-- A phrase for a day, taken alone, is resolved to that day. -/
theorem ofPhrases_day (h : p.anchor.isDay = true) : ofPhrases [p] now = (do
    match ← dayOf p none now with
    | some (date, label) => dayRange date label none
    | none => return none) := by
  obtain ⟨text, label, anchor, notAfter, notBefore⟩ := p
  cases anchor <;> first | rfl | cases h

/-- A phrase for a part of a day, taken alone, is resolved to hours of today. -/
theorem ofPhrases_dayPart {part : DayPart} (h : p.anchor = .dayPart part) :
    ofPhrases [p] now = dayRange now.date "" (some (part, p.label)) := by
  obtain ⟨text, label, anchor, notAfter, notBefore⟩ := p
  subst h
  rfl

/-- Any other phrase, taken alone, is resolved to its days from midnight to midnight. -/
theorem ofPhrases_band (hday : p.anchor.isDay = false) (hpart : p.anchor.isDayPart = false)
    (hband : bandOf p.anchor now.date = .ok (some (first, next))) (hlt : first.day < next.day) :
    ofPhrases [p] now = .ok (some ⟨Instant.midnight first, Instant.midnight next, p.label⟩) := by
  obtain ⟨text, label, anchor, notAfter, notBefore⟩ := p
  cases anchor with
  | day _ | weekday _ => cases hday
  | dayPart _ => cases hpart
  | _ =>
    change (bandOf _ now.date >>= _) = _
    rw [hband]
    exact congrArg Except.ok (make?_midnight hlt)

section Near

variable (hnow : Date.first.day + 365 ≤ now.date.day ∧ now.date.day + 365 ≤ Date.last.day)
include hnow

/-- A day near now is a date, and covered as a whole. -/
theorem exists_dayRange_ahead (ahead : Int) (hahead : -7 ≤ ahead ∧ ahead ≤ 7) (label : String) :
    ∃ date next : Date, now.date.addDays? ahead = some date ∧ date.day = now.date.day + ahead ∧
      next.day = date.day + 1 ∧ dayRange date label none =
        .ok (some ⟨Instant.midnight date, Instant.midnight next, label⟩) := by
  have hedges : Date.first.day = -96465292 ∧ Date.last.day = 95026236 := ⟨rfl, rfl⟩
  obtain ⟨date, hdate, hday⟩ : ∃ date, now.date.addDays? ahead = some date ∧
      date.day = now.date.day + ahead :=
    ⟨⟨now.date.day + ahead, by omega, by omega⟩, Date.addDays?_eq_some_iff.mpr rfl, rfl⟩
  obtain ⟨next, hnext, hrange⟩ :=
    exists_dayRange_whole (show date.day < Date.last.day by omega) label
  exact ⟨date, next, hdate, hday, hnext, hrange⟩

/-- A day that is named by itself. For a weekday, today counts as ahead until the hour after noon
is reached. -/
theorem exists_day (hp : p.anchor.isNear = true) (hday : p.anchor.isDay = true) :
    ∃ first next : Date, p.anchor.Spans now first next ∧
      ofPhrases [p] now = .ok (some ⟨.midnight first, .midnight next, p.label⟩) := by
  rw [ofPhrases_day hday]
  obtain ⟨text, label, anchor, notAfter, notBefore⟩ := p
  dsimp only at hp hday ⊢
  cases anchor with
  | day offset =>
    simp only [Anchor.isNear, Bool.and_eq_true, decide_eq_true_eq] at hp
    obtain ⟨date, next, hdate, hday, hnext, hrange⟩ :=
      exists_dayRange_ahead hnow offset (by omega) label
    refine ⟨date, next, ⟨hday, hnext⟩, ?_⟩
    simp only [dayOf, hdate]
    exact hrange
  | weekday index =>
    simp only [Anchor.isNear, decide_eq_true_eq] at hp
    have hweekday : (now.date.weekday : Int) = (now.date.day + 3) % 7 := by
      unfold Date.weekday
      omega
    generalize hahead : (if ((index : Int) - now.date.weekday) % 7 = 0 ∧ 12 < now.hour then 7
      else ((index : Int) - now.date.weekday) % 7) = ahead
    obtain ⟨date, next, hdate, hday, hnext, hrange⟩ :=
      exists_dayRange_ahead hnow ahead (by split at hahead <;> omega) label
    refine ⟨date, next, ⟨?_, hnext, ?_⟩, ?_⟩
    · unfold Date.weekday
      split at hahead <;> omega
    · split <;> split at hahead <;> omega
    · simp only [dayOf, hahead, hdate]
      exact hrange
  | _ => cases hday

/-- Some hours of today. -/
theorem exists_dayPart {part : DayPart} (hp : p.anchor = .dayPart part) :
    ∃ r : Range, p.anchor.Covers now r ∧ ofPhrases [p] now = .ok (some r) ∧ r.label = p.label := by
  obtain ⟨r, hr, hhours, hlabel⟩ :=
    exists_dayRange_hours (show now.date.day < Date.last.day by omega) "" (some (part, p.label))
  exact ⟨r, hp ▸ hhours, (ofPhrases_dayPart hp).trans hr, hlabel⟩

omit hnow in
/-- A band is there if its first day is, and the first one after it. -/
theorem bind_band {start? : Option Date} {stop? : Date → Option Date}
    (hfirst : start? = some first) (hnext : stop? first = some next) :
    (do
      let start ← start?
      return (start, ← stop? start)) = some (first, next) := by
  rw [hfirst]
  change (stop? first >>= fun stop => some (first, stop)) = _
  rw [hnext]
  rfl

/-- A week, a month, a quarter or a year near now, or the days before now. -/
theorem exists_bandOf {anchor : Anchor} (hnear : anchor.isNear = true)
    (hday : anchor.isDay = false) (hpart : anchor.isDayPart = false)
    (hyear : -262100 ≤ now.date.year ∧ now.date.year ≤ 262100) :
    ∃ first next : Date, anchor.Spans now first next ∧ first.day < next.day ∧
      bandOf anchor now.date = .ok (some (first, next)) := by
  have hedges : Date.first.day = -96465292 ∧ Date.last.day = 95026236 := ⟨rfl, rfl⟩
  have hindex := Date.monthIndex_div now.date
  cases anchor with
  | week offset =>
    simp only [Anchor.isNear, Bool.and_eq_true, decide_eq_true_eq] at hnear
    obtain ⟨monday, hmonday, hweekday, hle, hlt⟩ := Date.exists_monday hnow.1
    unfold Date.weekday at hweekday
    refine ⟨⟨monday.day + 7 * offset, by omega, by omega⟩,
      ⟨monday.day + 7 * offset + 7, by omega, by omega⟩, ⟨?_, rfl, ?_, ?_⟩, ?_, ?_⟩
    · unfold Date.weekday
      dsimp only
      omega
    · dsimp only
      omega
    · dsimp only
      omega
    · dsimp only
      omega
    · simp only [bandOf, hmonday]
      exact congrArg Except.ok
        (bind_band (Date.addDays?_eq_some_iff.mpr rfl) (Date.addDays?_eq_some_iff.mpr rfl))
  | month offset =>
    simp only [Anchor.isNear, Bool.and_eq_true, decide_eq_true_eq] at hnear
    obtain ⟨first, next, hfirst, hnext, hlt⟩ := Date.exists_months
      (show _ ≤ now.date.monthIndex + offset by omega) (Int.lt_succ _) (by omega)
    exact ⟨first, next, ⟨hfirst, hnext⟩, hlt, congrArg Except.ok
      (bind_band (Date.firstOfMonth?_eq_some_iff.mpr hfirst)
        (Date.firstOfMonth?_eq_some_iff.mpr (hfirst.2.symm ▸ hnext)))⟩
  | quarter index =>
    simp only [Anchor.isNear, Bool.and_eq_true, decide_eq_true_eq] at hnear
    obtain ⟨first, next, hfirst, hnext, hlt⟩ := Date.exists_months
      (show _ ≤ now.date.year * 12 + 3 * (index - 1 : Nat) by omega)
      (Int.lt_add_of_pos_right _ (show (0 : Int) < 3 by decide)) (by omega)
    refine ⟨first, next, ⟨hfirst, hnext⟩, hlt, congrArg Except.ok (bind_band ?_
      (Date.firstOfMonth?_eq_some_iff.mpr (hfirst.2.symm ▸ hnext)))⟩
    rw [Date.ofCivil?_one_eq_some_iff (by omega)]
    exact hfirst
  | year offset =>
    simp only [Anchor.isNear, Bool.and_eq_true, decide_eq_true_eq] at hnear
    obtain ⟨first, next, hfirst, hnext, hlt⟩ := Date.exists_months
      (show _ ≤ (now.date.year + offset) * 12 by omega)
      (show _ < (now.date.year + offset + 1) * 12 by omega) (by omega)
    refine ⟨first, next, ⟨hfirst, hnext⟩, hlt, congrArg Except.ok (bind_band ?_ ?_)⟩
    · rw [Date.ofCivil?_one_eq_some_iff (by omega)]
      simpa using hfirst
    · rw [Date.ofCivil?_one_eq_some_iff (by omega)]
      simpa using hnext
  | recent =>
    refine ⟨⟨now.date.day - 6, by omega, by omega⟩, ⟨now.date.day + 1, by omega, by omega⟩,
      ⟨rfl, rfl⟩, by dsimp only; omega, congrArg Except.ok ?_⟩
    exact bind_band (Date.addDays?_eq_some_iff.mpr rfl) (Date.addDays?_eq_some_iff.mpr rfl)
  | day _ | weekday _ => cases hday
  | dayPart _ => cases hpart

/-- Every phrase of the table speaks by itself of what it refers to. -/
theorem exists_range_alone (hp : p ∈ Phrase.table)
    (hyear : -262100 ≤ now.date.year ∧ now.date.year ≤ 262100) :
    ∃ r : Range, resolve p.text now = .ok (some ⟨r, .relative⟩) ∧ r.label = p.label ∧
      p.anchor.Covers now r := by
  have hnear := Phrase.isNear_of_mem_table p hp
  have halone : ∀ {r : Range}, ofPhrases [p] now = .ok (some r) →
      resolve p.text now = .ok (some ⟨r, .relative⟩) := by
    intro r hr
    rw [resolve_alone hp, hr]
    rfl
  cases hday : p.anchor.isDay with
  | true =>
    obtain ⟨first, next, hspans, hr⟩ := exists_day hnow hnear hday
    exact ⟨_, halone hr, rfl, Anchor.covers_of_spans ⟨rfl, rfl⟩ hspans⟩
  | false =>
    cases hpart : p.anchor.isDayPart with
    | true =>
      obtain ⟨part, hanchor⟩ : ∃ part, p.anchor = .dayPart part := by
        cases hanchor : p.anchor <;> simp_all [Anchor.isDayPart]
      obtain ⟨r, hcovers, hr, hlabel⟩ := exists_dayPart hnow hanchor
      exact ⟨r, halone hr, hlabel, hcovers⟩
    | false =>
      obtain ⟨first, next, hspans, hlt, hband⟩ := exists_bandOf hnow hnear hday hpart hyear
      exact ⟨_, halone (ofPhrases_band hday hpart hband hlt), rfl,
        Anchor.covers_of_spans ⟨rfl, rfl⟩ hspans⟩

end Near

end Resolution

/-- What is known of the ranges of the phrases of the table, each taken alone. -/
structure Phrase.Tile (now : Instant) (range : Phrase → Range) : Prop where
  /-- Each phrase is resolved to what it refers to, under its label. -/
  resolved : ∀ p ∈ table, Resolution.resolve p.text now = .ok (some ⟨range p, .relative⟩) ∧
    (range p).label = p.label ∧ p.anchor.Covers now (range p)
  /-- The table has phrases for the weeks, months, quarters and years around now, and for
  what contains now. -/
  offered : ∀ a ∈ Anchor.bands ++ Anchor.current, ∃ p ∈ table, p.anchor = a
  /-- A week, a month, a quarter or a year ends where the next one begins. -/
  consecutive : ∀ p ∈ table, ∀ q ∈ table, p.anchor.next? = some q.anchor →
    (range p).stop = (range q).start
  /-- The first quarter begins and the fourth one ends as this year does. -/
  quarters : ∀ p ∈ table, ∀ q ∈ table, p.anchor = .year 0 →
    (q.anchor = .quarter 1 → (range q).start = (range p).start) ∧
    (q.anchor = .quarter 4 → (range q).stop = (range p).stop)
  /-- Today, this week, this month, this year and the recent days contain now. -/
  current : ∀ p ∈ table, p.anchor ∈ Anchor.current → (range p).contains now = true
  /-- Only parts of a day begin or end within a day. -/
  midnights : ∀ p ∈ table, p.anchor.isDayPart = false →
    ∃ first next : Date, (range p).IsDays first next

namespace Resolution

variable {now : Instant}

/-- An instant lies in a range of days if its date is one of them. -/
theorem contains_of_day_bounds {r : Range} {first next : Date} (hr : r.IsDays first next)
    (h : first.day ≤ now.date.day ∧ now.date.day < next.day) : r.contains now = true := by
  have hsecond := now.second_lt
  have hnano := now.nano_lt
  obtain ⟨hstart, hstop⟩ := hr
  simp only [Range.contains, hstart, hstop, Bool.and_eq_true, decide_eq_true_eq,
    Instant.le_iff_rank, Instant.lt_iff_rank, Instant.rank, Instant.midnight]
  omega

/-- Seen from a year that is not among the first or the last forty of the calendar, each phrase
of the table that is taken alone is resolved to what it refers to. The weeks, the months, the
quarters and the years follow each other without a gap, the quarters make up this year, what
is current contains now, and all days are whole. -/
theorem bands_tile (now : Instant) (hfirst : -262100 ≤ now.date.year)
    (hlast : now.date.year ≤ 262100) : ∃ range : Phrase → Range, Phrase.Tile now range := by
  have hnow := Date.day_bounds_of_year (show -262142 ≤ now.date.year by omega) (by omega)
  have hall : ∀ p : Phrase, ∃ r : Range, p ∈ Phrase.table →
      resolve p.text now = .ok (some ⟨r, .relative⟩) ∧ r.label = p.label ∧
        p.anchor.Covers now r := by
    intro p
    by_cases hp : p ∈ Phrase.table
    · obtain ⟨r, hr⟩ := exists_range_alone hnow hp ⟨hfirst, hlast⟩
      exact ⟨r, fun _ => hr⟩
    · exact ⟨⟨now, now, ""⟩, fun h => absurd h hp⟩
  choose range hrange using hall
  have hspans : ∀ p ∈ Phrase.table, p.anchor.isDayPart = false →
      ∃ first next : Date, (range p).IsDays first next ∧ p.anchor.Spans now first next :=
    fun p hp hpart => Anchor.exists_spans hpart (hrange p hp).2.2
  refine ⟨range, hrange, by decide +kernel, ?_, ?_, ?_, ?_⟩
  · intro p hp q hq hnext
    obtain ⟨hpart, hpart'⟩ := Anchor.isDayPart_of_next? hnext
    obtain ⟨first, next, ⟨-, hstop⟩, hspan⟩ := hspans p hp hpart
    obtain ⟨first', next', ⟨hstart, -⟩, hspan'⟩ := hspans q hq hpart'
    rw [hstop, hstart, hspan.meets hspan' hnext]
  · intro p hp q hq hyear
    have hquarter : ∀ index, q.anchor = .quarter index → q.anchor.isDayPart = false := by
      rintro index hindex
      rw [hindex]
      rfl
    obtain ⟨first, next, ⟨hstart, hstop⟩, hspan⟩ := hspans p hp (by rw [hyear]; rfl)
    rw [hyear] at hspan
    constructor
    · intro hindex
      obtain ⟨first', next', ⟨hstart', -⟩, hspan'⟩ := hspans q hq (hquarter _ hindex)
      rw [hstart, hstart', (Anchor.Spans.quarters_of_year hspan hspan').1 hindex]
    · intro hindex
      obtain ⟨first', next', ⟨-, hstop'⟩, hspan'⟩ := hspans q hq (hquarter _ hindex)
      rw [hstop, hstop', (Anchor.Spans.quarters_of_year hspan hspan').2 hindex]
  · intro p hp hcurrent
    obtain ⟨first, next, hdays, hspan⟩ := hspans p hp (Anchor.isDayPart_of_mem_current _ hcurrent)
    exact contains_of_day_bounds hdays (hspan.day_bounds hcurrent)
  · intro p hp hpart
    obtain ⟨first, next, hdays, -⟩ := hspans p hp hpart
    exact ⟨first, next, hdays⟩

/-- In the leap second at the end of the year 2016, a Saturday, the week that ends with the next
Sunday goes on into the next year. -/
theorem bands_tile_at_leap_second :
    let now : Instant := ⟨⟨17166, by decide, by decide⟩, 86399, 1500000000, by decide, by decide⟩
    (-262100 ≤ now.date.year ∧ now.date.year ≤ 262100) ∧ now.date.civil = ⟨2016, 12, 31⟩ ∧
      ∃ range : Phrase → Range, Phrase.Tile now range := by
  intro now
  have hcivil : now.date.civil = ⟨2016, 12, 31⟩ := by decide +kernel
  have hyear : -262100 ≤ now.date.year ∧ now.date.year ≤ 262100 := by
    unfold Date.year
    rw [hcivil]
    decide
  exact ⟨hyear, hcivil, bands_tile now hyear.1 hyear.2⟩

end Resolution

end Daybook
