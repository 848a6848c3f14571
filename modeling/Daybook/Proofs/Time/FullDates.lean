import Daybook.Proofs.Calendar.Civil
import Daybook.Proofs.Text.Words
import Daybook.Proofs.Time.Hours
import Daybook.Proofs.Time.Preference
import Daybook.Proofs.Time.WrittenNumbers

/-!
# Dates written in full

A date with a year of four digits, in a text that has no other digits, is what the text is
resolved to: the first four digits in a row are the year, and the mark behind them tells the
pattern. Only if the calendar has no such date do phrases decide.
-/

namespace Daybook

variable {ds front back cs rest : List Char} {c mark : Char}

/-- The digits of a text are those of a row of digits and of what stands around it. -/
theorem length_le_countP (hds : ∀ d ∈ ds, d.isDigit = true) (front back : List Char) :
    ds.length + back.countP Char.isDigit ≤ (front ++ (ds ++ back)).countP Char.isDigit := by
  rw [List.countP_append, List.countP_append, List.countP_eq_length.mpr hds]
  omega

/-- A row of digits in a text stands on one side of each character that is no digit. -/
theorem digits_beside {before after : List Char} (hds : ∀ d ∈ ds, d.isDigit = true)
    (hc : c.isDigit = false) (h : front ++ (ds ++ back) = before ++ c :: after) :
    (∃ between, before = front ++ (ds ++ between) ∧ back = between ++ c :: after) ∨
      ∃ between, front = before ++ c :: between ∧ after = between ++ (ds ++ back) := by
  have hnone : c ∉ ds := fun hmem => by
    rw [hds c hmem] at hc
    cases hc
  rcases List.append_eq_append_iff.mp h with ⟨x, rfl, hrest⟩ | ⟨x, rfl, hrest⟩
  · left
    rcases List.append_eq_append_iff.mp hrest with ⟨y, rfl, hback⟩ | ⟨y, rfl, hafter⟩
    · exact ⟨y, rfl, hback⟩
    · cases y with
      | nil => exact ⟨[], by simp, hafter.symm⟩
      | cons d y =>
        obtain ⟨rfl, -⟩ := List.cons.inj hafter
        exact absurd (by simp) hnone
  · cases x with
    | nil =>
      left
      cases ds with
      | nil => exact ⟨[], by simp, hrest.symm⟩
      | cons d ds =>
        obtain ⟨rfl, -⟩ := List.cons.inj hrest
        exact absurd List.mem_cons_self hnone
    | cons d x =>
      right
      obtain ⟨rfl, hafter⟩ := List.cons.inj hrest
      exact ⟨x, rfl, hafter⟩

/-- In a text whose only digits are a row at its end, nothing stands behind as many digits in a
row, since these are all its digits. -/
theorem eq_nil_of_digits {row before between : List Char} (hrow : ∀ d ∈ row, d.isDigit = true)
    (hds : ∀ d ∈ ds, d.isDigit = true) (hlength : row.length = ds.length) (hne : row ≠ [])
    (hfront : HasNoDigit front) (h : front ++ row = before ++ (ds ++ between)) : between = [] := by
  have hcount := length_le_countP hds before between
  rw [← h, List.countP_append, hfront.countP, List.countP_eq_length.mpr hrow] at hcount
  have hzero : between.countP Char.isDigit = 0 := by omega
  have hnone : HasNoDigit between := fun d hd => by
    simpa using List.countP_eq_zero.mp hzero d hd
  by_contra hbetween
  have hlast := congrArg List.getLast? h
  rw [← List.append_assoc, List.getLast?_append_of_ne_nil _ hne,
    List.getLast?_append_of_ne_nil _ hbetween, List.getLast?_eq_some_getLast hne] at hlast
  have hdigit := hrow _ (List.getLast_mem hne)
  rw [hnone _ (List.mem_of_getLast? hlast.symm)] at hdigit
  cases hdigit

/-- The digits of a date in full. -/
structure FullDate where
  year : List Char
  month : List Char
  day : List Char
  isDigit : ∀ c ∈ year ++ (month ++ day), c.isDigit = true
  year_length : year.length = 4
  month_length : month.length = 1 ∨ month.length = 2
  day_length : day.length = 1 ∨ day.length = 2

/-- How a date in full is written. -/
inductive FullNotation where
  /-- As in 2025年1月21, with 日, 号 or nothing behind it. -/
  | chinese (ending : Option Char) (allowed : ∀ c ∈ ending, c = '日' ∨ c = '号')
  /-- As in 2025-1-21. -/
  | hyphens
  /-- As in 2025/1/21. -/
  | slashes

namespace FullNotation

/-- What stands behind the year. -/
def yearMark : FullNotation → Char
  | chinese _ _ => '年'
  | hyphens => '-'
  | slashes => '/'

/-- What stands behind the month. -/
def monthMark : FullNotation → Char
  | chinese _ _ => '月'
  | hyphens => '-'
  | slashes => '/'

/-- What stands behind the day. -/
def ending : FullNotation → List Char
  | chinese ending _ => ending.toList
  | hyphens | slashes => []

/-- The pattern that reads the notation. -/
def pattern : FullNotation → DatePattern
  | chinese _ _ => ⟨.fullChinese, some '年', '月', true, [], false⟩
  | hyphens => ⟨.hyphens, some '-', '-', false, [], true⟩
  | slashes => ⟨.slashes, some '/', '/', false, [], true⟩

variable (n : FullNotation)

/-- The pattern of a notation asks for its marks, and minds nothing but digits beside the date. -/
theorem pattern_spec : n.pattern.yearMark = some n.yearMark ∧
    n.pattern.monthMark = n.monthMark ∧ n.pattern.notBeside = [] := by
  cases n <;> exact ⟨rfl, rfl, rfl⟩

/-- The marks of a notation are no digits. -/
theorem marks_isDigit : n.yearMark.isDigit = false ∧ n.monthMark.isDigit = false := by
  cases n <;> exact ⟨rfl, rfl⟩

/-- What may stand behind the day of a notation is no digit. -/
theorem hasNoDigit_ending : HasNoDigit n.ending := by
  cases n with
  | chinese ending allowed =>
    intro c hc
    rcases allowed c (by simpa [FullNotation.ending] using hc) with rfl | rfl <;> rfl
  | hyphens | slashes => exact fun _ hc => by cases hc

/-- The pattern of a notation is one of the table. -/
theorem pattern_mem_all : n.pattern ∈ DatePattern.all := by
  cases n <;> simp [pattern, DatePattern.all]

/-- The patterns before that of a notation have a year with another mark. -/
theorem exists_before : ∃ before after, DatePattern.all = before ++ n.pattern :: after ∧
    ∀ q ∈ before, ∃ mark, q.yearMark = some mark ∧ mark ≠ n.yearMark := by
  cases n with
  | chinese _ _ => exact ⟨[], _, rfl, by simp⟩
  | hyphens => exact ⟨_ :: [], _, rfl, by simp [yearMark]⟩
  | slashes => exact ⟨_ :: _ :: [], _, rfl, by simp [yearMark]⟩

end FullNotation

namespace FullDate

variable (date : FullDate) (n : FullNotation)

/-- The date as a text writes it. -/
def text : List Char :=
  date.year ++ n.yearMark :: (date.month ++ n.monthMark :: (date.day ++ n.ending))

/-- The year, month and day that the digits stand for. -/
def civil : Civil :=
  ⟨Numeric.ofDigits date.year, Numeric.ofDigits date.month, Numeric.ofDigits date.day⟩

/-- The numbers that a pattern reads. -/
def written : WrittenDate :=
  ⟨some (Numeric.ofDigits date.year), Numeric.ofDigits date.month, Numeric.ofDigits date.day⟩

end FullDate

namespace DatePattern

variable {p : DatePattern} {date : WrittenDate} {after : List Char}

/-- No date begins with a character that is no digit. -/
theorem read?_eq_none (hc : c.isDigit = false) : p.read? (c :: cs) = none := by
  refine Option.eq_none_iff_forall_ne_some.mpr fun found hread => ?_
  obtain ⟨⟨part, hpart, d, ds, rfl, hd⟩, -⟩ := of_read? hread
  obtain ⟨rfl, -⟩ := List.cons.inj hpart
  rw [hc] at hd
  cases hd

/-- Behind a text without digits, the first match of a scan is the date that is read there. -/
theorem head?_matchesFrom (hbeside : p.notBeside = []) (hfront : HasNoDigit (front ++ [c]))
    (hread : p.read? cs = some (date, after, rest)) (offset : Nat) :
    ∃ found, (p.matchesFrom 0 offset (front ++ c :: cs)).head? = some found ∧
      found.date = date := by
  have hallowed : ∀ d ∈ front ++ [c], p.allowsBeside d = true := fun d hd => by
    simp [allowsBeside, hbeside, hfront d hd]
  induction front generalizing offset with
  | nil =>
    unfold matchesFrom
    simp [hallowed c (by simp), hread]
  | cons d front ih =>
    have hnone : p.read? (front ++ c :: cs) = none := by
      cases front with
      | nil => exact read?_eq_none (hfront c (by simp))
      | cons e front => exact read?_eq_none (hfront e (by simp))
    have hrest := ih (fun e he => hfront e (List.mem_cons_of_mem d he)) (offset + d.utf8Size)
      (fun e he => hallowed e (List.mem_cons_of_mem d he))
    unfold matchesFrom
    simpa [hallowed d (by simp), hnone] using hrest

/-- A date with no digit before it is the first match. -/
theorem head?_findAll (hbeside : p.notBeside = []) (hfront : HasNoDigit front)
    (hread : p.read? cs = some (date, after, rest)) :
    ∃ found, (p.findAll (front ++ cs)).head? = some found ∧ found.date = date := by
  unfold findAll
  rcases List.eq_nil_or_concat' front with rfl | ⟨front, c, rfl⟩
  · rw [List.nil_append, hread]
    exact ⟨_, rfl, rfl⟩
  · have hnone : p.read? (front ++ [c] ++ cs) = none := by
      cases front with
      | nil => exact read?_eq_none (hfront c (by simp))
      | cons d front => exact read?_eq_none (hfront d (by simp))
    rw [hnone]
    simpa using head?_matchesFrom hbeside hfront hread 0

end DatePattern

namespace FullDate

variable (date : FullDate) (n : FullNotation)

/-- A year is written with digits. -/
theorem isDigit_year : ∀ c ∈ date.year, c.isDigit = true :=
  fun c hc => date.isDigit c (List.mem_append_left _ hc)

/-- The parts of the date in a text, with what stands before and behind it. -/
def parts (front back : List Char) : DatePattern.Parts :=
  ⟨front, date.year, date.month, date.day, n.ending, back⟩

/-- The digits and the marks of the date are those that the pattern of a notation asks for. -/
theorem spell_parts (front back : List Char) :
    (date.parts n front back).Spell n.pattern date.written := by
  obtain ⟨hyearMark, -, -⟩ := n.pattern_spec
  refine ⟨?_, date.isDigit, ?_, date.month_length, date.day_length, ?_⟩
  · simp [hyearMark, written, parts]
  · simpa [hyearMark, parts] using date.year_length
  · cases n with
    | chinese ending allowed =>
      cases ending with
      | none => exact .inl rfl
      | some c => exact .inr ⟨rfl, c, rfl, allowed c rfl⟩
    | hyphens | slashes => exact .inl rfl

/-- The pattern of a notation reads the date. -/
theorem exists_read? (hback : HasNoDigit back) : ∃ after rest,
    n.pattern.read? (date.text n ++ back) = some (date.written, after, rest) := by
  obtain ⟨hyearMark, hmonthMark, hbeside⟩ := n.pattern_spec
  have hend : ∀ c, (n.ending ++ back).head? = some c → c.isDigit = false := fun c hc =>
    hasNoDigit_append.mpr ⟨n.hasNoDigit_ending, hback⟩ c (List.mem_of_mem_head? hc)
  have hread := (date.spell_parts n [] back).exists_read? n.pattern_mem_all (.inr hend)
    fun _ c hc => by simp [DatePattern.allowsBeside, hbeside, hend c hc]
  simpa [DatePattern.Parts.afterYear, DatePattern.Parts.afterMonth, DatePattern.Parts.afterDay,
    parts, FullDate.text, hyearMark, hmonthMark] using hread

/-- Behind four digits in a row stands the mark of the year, whose digits they are. -/
theorem eq_yearMark (hfront : HasNoDigit front) (hback : HasNoDigit back)
    {before after : List Char} (hds : ∀ d ∈ ds, d.isDigit = true) (hlength : ds.length = 4)
    (h : before ++ (ds ++ mark :: after) = front ++ (date.text n ++ back)) :
    mark = n.yearMark := by
  obtain ⟨hyearMark, hmonthMark⟩ := n.marks_isDigit
  have hend : HasNoDigit (n.ending ++ back) :=
    hasNoDigit_append.mpr ⟨n.hasNoDigit_ending, hback⟩
  simp only [FullDate.text, List.append_assoc, List.cons_append] at h
  rw [← List.append_assoc front] at h
  rcases digits_beside hds hyearMark h with ⟨between, hyear, hmark⟩ | ⟨between, -, hmonth⟩
  · have hfour := date.year_length
    have hne : date.year ≠ [] := List.ne_nil_of_length_pos (by omega)
    obtain rfl := eq_nil_of_digits date.isDigit_year hds (by omega) hne hfront hyear
    exact (List.cons.inj hmark).1
  · rcases digits_beside hds hmonthMark hmonth.symm with ⟨between', hmonth, -⟩ | ⟨between', -, hday⟩
    · have hmonthLength := congrArg List.length hmonth
      have := date.month_length
      simp only [List.length_append] at hmonthLength
      omega
    · have hcount := length_le_countP hds between' (mark :: after)
      rw [← hday, List.countP_append, hend.countP] at hcount
      have htwo := List.countP_le_length (p := Char.isDigit) (l := date.day)
      have := date.day_length
      omega

/-- A pattern that needs another mark behind the year finds nothing. -/
theorem findAll_eq_nil_of_yearMark (hfront : HasNoDigit front) (hback : HasNoDigit back)
    {q : DatePattern} (hq : q ∈ DatePattern.all) (hmark : q.yearMark = some mark)
    (hne : mark ≠ n.yearMark) :
    q.findAll (front ++ (date.text n ++ back)) = [] := by
  refine List.eq_nil_iff_forall_not_mem.mpr fun found hfound => ?_
  obtain ⟨front', part, back', rest, ⟨htext, -, hread⟩, -⟩ :=
    DatePattern.standsApart_of_mem_findAll hfound
  obtain ⟨parts, -, hparts, hspell, -⟩ := DatePattern.parts_of_read? front' hq hread
  have hcut : front' ++ (parts.year ++ mark :: (parts.month ++ parts.afterMonth q)) =
      front ++ (date.text n ++ back) := by
    rw [htext, List.append_assoc, hparts, DatePattern.Parts.afterYear, hmark]
    rfl
  refine hne (date.eq_yearMark n hfront hback ?_ ?_ hcut)
  · exact fun d hd => hspell.isDigit d (List.mem_append_left _ hd)
  · simpa [hmark] using hspell.year

/-- The first date that is written in a text is one in full with no digit beside it. -/
theorem exists_writtenDate? (hfront : HasNoDigit front) (hback : HasNoDigit back) :
    ∃ style, Resolution.writtenDate? (front ++ (date.text n ++ back)) =
      some (style, date.written) := by
  obtain ⟨-, -, hbeside⟩ := n.pattern_spec
  obtain ⟨after, rest, hread⟩ := date.exists_read? n hback
  obtain ⟨found, hfound, hdate⟩ := DatePattern.head?_findAll hbeside hfront hread
  obtain ⟨before, others, hall, hbefore⟩ := n.exists_before
  refine ⟨n.pattern.style, ?_⟩
  rw [← hdate]
  refine Resolution.writtenDate?_eq_some hall (fun q hq => ?_) hfound
  obtain ⟨mark, hmark, hne⟩ := hbefore q hq
  exact date.findAll_eq_nil_of_yearMark n hfront hback (by simp [hall, hq]) hmark hne

end FullDate

/-- A year, a month and a day that the Gregorian calendar has. -/
def Civil.IsReal (civil : Civil) : Prop :=
  (1 ≤ civil.month ∧ civil.month ≤ 12) ∧
    1 ≤ civil.day ∧ civil.day ≤ daysInMonth (isLeapYear civil.year) civil.month

/-- Whether the calendar has a date can be evaluated. -/
instance (civil : Civil) : Decidable civil.IsReal := inferInstanceAs (Decidable (_ ∧ _))

/-- What a text is resolved to if a year, a month and a day are all that is written in it. -/
structure Resolution.IsExact (cs : List Char) (civil : Civil) (now : Instant) : Prop where
  /-- A date of the calendar is resolved to its day, or to the hours of it that are spoken of. -/
  real : civil.IsReal → ∃ (date : Date) (r : Range), date.civil = civil ∧
    resolve (String.ofList cs) now = .ok (some ⟨r, .absolute⟩) ∧
    (∀ (p : Phrase) (part : DayPart),
      p.IsPreferred ((Phrase.mentioned cs).filter (·.anchor.isDayPart)) →
      p.anchor = .dayPart part → r.IsHours date part.hours) ∧
    ((∀ p ∈ Phrase.mentioned cs, p.anchor.isDayPart = false) → r.IsDay date)
  /-- Otherwise the text is resolved to what its phrases speak of. -/
  unreal : ¬civil.IsReal → ∃ found, ofPhrases (Phrase.mentioned cs) now = .ok found ∧
    resolve (String.ofList cs) now = .ok (found.map (⟨·, .relative⟩))

namespace FullDate

variable (date : FullDate) (n : FullNotation)

/-- A year of four digits lies before the year 10000. -/
theorem year_lt : Numeric.ofDigits date.year < 10000 := by
  have := Numeric.ofDigits_lt date.isDigit_year
  rwa [date.year_length] at this

/-- The calendar has a date for the digits if they are those of a day of some month. -/
theorem exists_ofCivil? (h : date.civil.IsReal) : ∃ found : Date, found.civil = date.civil ∧
    Date.ofCivil? date.civil.year date.civil.month date.civil.day = some found := by
  have hyear := date.year_lt
  obtain ⟨hmonth, hday⟩ := h
  obtain ⟨found, hfound⟩ := Date.exists_civil
    (show -262143 ≤ date.civil.year by simp only [civil]; omega)
    (show date.civil.year ≤ 262142 by simp only [civil]; omega) hmonth hday
  exact ⟨found, hfound, Date.ofCivil?_eq_some_iff_civil.mpr hfound⟩

/-- The calendar has no date for digits that are those of no day. -/
theorem ofCivil?_eq_none (h : ¬date.civil.IsReal) :
    Date.ofCivil? date.civil.year date.civil.month date.civil.day = none := by
  refine Option.eq_none_iff_forall_ne_some.mpr fun found hfound => ?_
  obtain ⟨⟨hmonth, hday⟩, -⟩ := Date.ofCivil?_eq_some_iff.mp hfound
  exact h ⟨hmonth, hday⟩

/-- A text with a date is not blank. -/
theorem allBlank_eq_false (front back : List Char) :
    Text.allBlank (front ++ (date.text n ++ back)) = false := by
  have hfour := date.year_length
  obtain ⟨c, hc⟩ := List.exists_mem_of_length_pos (show 0 < date.year.length by omega)
  refine List.all_eq_false.mpr ⟨c, ?_, ?_⟩
  · simp [FullDate.text, hc]
  · simp [Text.isBlank_of_isDigit (date.isDigit_year c hc)]

/-- The written date of a text is the date of the calendar for the digits, if there is one. -/
theorem exists_absoluteDate? (hfront : HasNoDigit front) (hback : HasNoDigit back) (today : Date) :
    ∃ style, Resolution.absoluteDate? (front ++ (date.text n ++ back)) today =
      (Date.ofCivil? date.civil.year date.civil.month date.civil.day).map fun found =>
        (found, Resolution.dateLabel style found date.civil.month date.civil.day) := by
  obtain ⟨style, hwritten⟩ := date.exists_writtenDate? n hfront hback
  refine ⟨style, ?_⟩
  rw [Resolution.absoluteDate?, hwritten]
  cases hfound : Date.ofCivil? date.civil.year date.civil.month date.civil.day <;>
    simp_all [Resolution.dateOf?, FullDate.written, FullDate.civil]

end FullDate

namespace Resolution

/-- In a text without other digits, a date in full is resolved to its day, or to the hours of the
preferred part of a day, whatever else the text speaks of. Digits that are no date of the
calendar are as good as none. -/
theorem resolve_fullDate (date : FullDate) (n : FullNotation) (front back : List Char)
    (hfront : HasNoDigit front) (hback : HasNoDigit back) (now : Instant)
    (hfirst : -262142 ≤ now.date.year) (hlast : now.date.year ≤ 262141) :
    IsExact (front ++ date.text n ++ back) date.civil now := by
  have hblank := date.allBlank_eq_false n front back
  obtain ⟨style, habsolute⟩ := date.exists_absoluteDate? n hfront hback now.date
  rw [List.append_assoc]
  generalize front ++ (date.text n ++ back) = cs at hblank habsolute ⊢
  constructor
  · intro hreal
    obtain ⟨found, hcivil, hfound⟩ := date.exists_ofCivil? hreal
    rw [hfound, Option.map_some] at habsolute
    obtain ⟨hnext, -⟩ := isSoundDay_of_absoluteDate? hlast habsolute
    obtain ⟨r, hr, hhours, -⟩ := exists_dayRange_hours hnext
      (dateLabel style found date.civil.month date.civil.day)
      (Phrase.bestDayPart? (Phrase.mentioned cs))
    refine ⟨found, r, hcivil, ?_, ?_, ?_⟩
    · simp only [resolve, String.toList_ofList, hblank, habsolute, hr]
      rfl
    · intro p part hp hanchor
      rwa [Phrase.bestDayPart?_eq_some_iff.mpr ⟨p, hp, hanchor, rfl⟩] at hhours
    · intro hnone
      rwa [Phrase.bestDayPart?_eq_none_iff.mpr hnone] at hhours
  · intro hunreal
    rw [date.ofCivil?_eq_none hunreal, Option.map_none] at habsolute
    have hphrases : ∀ p ∈ Phrase.mentioned cs, p ∈ Phrase.table :=
      fun p hp => (List.mem_filter.mp hp).1
    obtain ⟨found, hfound, -⟩ :=
      finds_ofPhrases hphrases (Date.day_bounds_of_year hfirst hlast)
    refine ⟨found, hfound, ?_⟩
    simp only [resolve, String.toList_ofList, hblank, habsolute, hfound]
    rfl

/-- Beside a phrase for another day, the afternoon of a leap day is resolved to its hours. -/
theorem resolve_fullDate_leap_day :
    let date : FullDate := ⟨"2024".toList, "2".toList, "29".toList,
      List.all_eq_true.mp (by decide), by decide, by decide, by decide⟩
    let n : FullNotation := .chinese (some '号') (by simp)
    let front := "明天 or ".toList
    let back := "下午".toList
    let now : Instant := ⟨⟨20103, by decide, by decide⟩, 37800, 0, by decide, by decide⟩
    (HasNoDigit front ∧ HasNoDigit back) ∧
    (-262142 ≤ now.date.year ∧ now.date.year ≤ 262141) ∧ date.civil.IsReal ∧
    String.ofList (front ++ date.text n ++ back) = "明天 or 2024年2月29号下午" ∧
    IsExact (front ++ date.text n ++ back) date.civil now := by
  intro date n front back now
  have hyear : -262142 ≤ now.date.year ∧ now.date.year ≤ 262141 := by decide +kernel
  have hfront : HasNoDigit front := by decide
  have hback : HasNoDigit back := by decide
  exact ⟨⟨hfront, hback⟩, hyear, by decide, by decide,
    resolve_fullDate date n front back hfront hback now hyear.1 hyear.2⟩

end Resolution

end Daybook
