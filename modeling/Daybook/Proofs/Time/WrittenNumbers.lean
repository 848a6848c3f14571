import Daybook.Proofs.Time.WrittenDates
import Daybook.Time.Resolution

/-!
# The numbers of written dates

The year and the month of a match are whole numbers of the text: no other digit stands
beside theirs. So is the day, unless the pattern does not look at what follows the date.
Then a row of three digits or more is read as a day of its first two.
-/

namespace Daybook

/-- Digits of a text with no other digit beside them, given the text on their two sides. -/
structure IsWholeNumber (before digits after : List Char) : Prop where
  ne_nil : digits ≠ []
  isDigit : ∀ c ∈ digits, c.isDigit = true
  before : ∀ c, before.getLast? = some c → c.isDigit = false
  after : ∀ c, after.head? = some c → c.isDigit = false

namespace DatePattern

variable {p : DatePattern} {cs rest after : List Char} {date : WrittenDate} {found : DateMatch}

/-- A text around a match of a date pattern, cut into its parts. -/
structure Parts where
  front : List Char
  /-- The digits of the year; none where no year is written. -/
  year : List Char
  month : List Char
  day : List Char
  /-- What belongs to the date after the day. -/
  dayMark : List Char
  back : List Char

namespace Parts

/-- The text before the month. -/
def beforeMonth (p : DatePattern) (parts : Parts) : List Char :=
  parts.front ++ (parts.year ++ p.yearMark.toList)

/-- The text before the day. -/
def beforeDay (p : DatePattern) (parts : Parts) : List Char :=
  parts.beforeMonth p ++ (parts.month ++ [p.monthMark])

/-- The text after the day. -/
def afterDay (parts : Parts) : List Char := parts.dayMark ++ parts.back

/-- The text after the month. -/
def afterMonth (p : DatePattern) (parts : Parts) : List Char :=
  p.monthMark :: (parts.day ++ parts.afterDay)

/-- The text after the year. -/
def afterYear (p : DatePattern) (parts : Parts) : List Char :=
  p.yearMark.toList ++ (parts.month ++ parts.afterMonth p)

/-- The date itself, from its first digit to its last character. -/
def written (p : DatePattern) (parts : Parts) : List Char :=
  parts.year ++ (p.yearMark.toList ++
    (parts.month ++ p.monthMark :: (parts.day ++ parts.dayMark)))

/-- From the year on, a text has the date and what stands behind it. -/
theorem year_append_afterYear (p : DatePattern) (parts : Parts) :
    parts.year ++ parts.afterYear p = parts.written p ++ parts.back := by
  simp [afterYear, afterMonth, afterDay, written]

/-- The parts of a date as a pattern writes it. -/
structure Spell (p : DatePattern) (date : WrittenDate) (parts : Parts) : Prop where
  numbers : date = ⟨p.yearMark.map fun _ => Numeric.ofDigits parts.year,
    Numeric.ofDigits parts.month, Numeric.ofDigits parts.day⟩
  isDigit : ∀ c ∈ parts.year ++ (parts.month ++ parts.day), c.isDigit = true
  year : parts.year.length = if p.yearMark.isSome then 4 else 0
  month : parts.month.length = 1 ∨ parts.month.length = 2
  day : parts.day.length = 1 ∨ parts.day.length = 2
  dayMark : parts.dayMark = [] ∨
    p.dayMark = true ∧ ∃ c, parts.dayMark = [c] ∧ (c = '日' ∨ c = '号')

/-- The parts are those of a text and of a match of a pattern in it. -/
structure AreOf (p : DatePattern) (cs : List Char) (found : DateMatch) (parts : Parts) : Prop where
  text : cs = parts.front ++ (parts.year ++ parts.afterYear p)
  start : found.span.start = Text.byteLength parts.front
  stop : found.span.stop = Text.byteLength (parts.beforeDay p ++ (parts.day ++ parts.dayMark))
  spell : parts.Spell p found.date

end Parts

/-- No mark of a pattern is a digit. -/
theorem marks_of_mem_all : ∀ p ∈ all,
    (∀ c, p.yearMark = some c → c.isDigit = false) ∧ p.monthMark.isDigit = false ∧
      (p.closed = false → p.monthMark = '月') := by
  have hall : ∀ p ∈ all, (p.yearMark.all fun c => !c.isDigit) = true ∧
      p.monthMark.isDigit = false ∧ (p.closed = false → p.monthMark = '月') := by decide
  intro p hp
  obtain ⟨hyear, hmarks⟩ := hall p hp
  exact ⟨fun c hc => by simpa [hc] using hyear, hmarks⟩

/-- A number of one digit is read only where no other digit follows. -/
theorem digits_of_readNumber? {n : Nat} (h : readNumber? cs = some (n, rest)) :
    ∃ ds, cs = ds ++ rest ∧ (∀ d ∈ ds, d.isDigit = true) ∧ n = Numeric.ofDigits ds ∧
      (ds.length = 2 ∨ ds.length = 1 ∧ ∀ c, rest.head? = some c → c.isDigit = false) := by
  unfold readNumber? at h
  split at h
  · rename_i found htwo
    obtain ⟨ds, hcs, hlength, hdigits, hn⟩ := Numeric.of_readDigits? (htwo.trans h)
    exact ⟨ds, hcs, hdigits, hn, .inl hlength⟩
  · rename_i hnone
    obtain ⟨ds, rfl, hlength, hdigits, hn⟩ := Numeric.of_readDigits? h
    refine ⟨ds, rfl, hdigits, hn, .inr ⟨hlength, fun c hc => ?_⟩⟩
    by_contra hdigit
    rw [Bool.not_eq_false] at hdigit
    obtain ⟨d, rfl⟩ := List.length_eq_one_iff.mp hlength
    obtain ⟨tail, rfl⟩ := List.head?_eq_some_iff.mp hc
    simp [Numeric.readDigits?, hdigits d (by simp), hdigit] at hnone

/-- What is read before the month is a year of four digits with its mark, or nothing. -/
theorem digits_of_readYear? {year : Option Nat} (h : p.readYear? cs = some (year, rest)) :
    ∃ ds, cs = ds ++ (p.yearMark.toList ++ rest) ∧ (∀ d ∈ ds, d.isDigit = true) ∧
      year = (p.yearMark.map fun _ => Numeric.ofDigits ds) ∧
      ds.length = if p.yearMark.isSome then 4 else 0 := by
  unfold readYear? at h
  split at h
  · rename_i hmark
    cases h
    exact ⟨[], by simp [hmark], by simp, by simp [hmark], by simp [hmark]⟩
  · rename_i mark hmark
    simp only [Option.bind_eq_bind, Option.bind_eq_some_iff, Option.pure_def,
      Option.some.injEq, Prod.mk.injEq, Prod.exists] at h
    obtain ⟨y, afterYear, hdigits, afterMark, hafter, rfl, rfl⟩ := h
    obtain ⟨ds, rfl, hlength, hall, rfl⟩ := Numeric.of_readDigits? hdigits
    obtain rfl := Text.of_readMark? hafter
    exact ⟨ds, by simp [hmark], hall, by simp [hmark], by simp [hmark, hlength]⟩

/-- Either mark of a day may stand beside a date. -/
theorem allowsBeside_dayMark (hp : p ∈ all) :
    p.allowsBeside '日' = true ∧ p.allowsBeside '号' = true := by
  have hall : ∀ p ∈ all, p.allowsBeside '日' = true ∧ p.allowsBeside '号' = true := by decide
  exact hall p hp

/-- A date closes at the end of the text, or before a character that may stand beside it. -/
theorem isSome_readClosing?_iff : (p.readClosing? cs).isSome = true ↔
    ∀ c, cs.head? = some c → p.allowsBeside c = true := by
  cases cs with
  | nil => simp [readClosing?]
  | cons c cs => cases hc : p.allowsBeside c <;> simp [readClosing?, hc]

/-- A mark of the day belongs to the date only if it may stand beside it. -/
theorem head_of_startsWithDayMark (hp : p ∈ all) (h : startsWithDayMark cs = true) :
    ∃ c tail, cs = c :: tail ∧ (c = '日' ∨ c = '号') ∧ p.allowsBeside c = true := by
  cases cs with
  | nil => cases h
  | cons c tail =>
    have hc : c = '日' ∨ c = '号' := by simpa [startsWithDayMark] using h
    refine ⟨c, tail, rfl, hc, ?_⟩
    rcases hc with rfl | rfl
    · exact (allowsBeside_dayMark hp).1
    · exact (allowsBeside_dayMark hp).2

/-- Whether a date can end behind its day is told by the next character alone, and only in a
closed pattern. -/
theorem isSome_readEnd?_iff (hp : p ∈ all) : (p.readEnd? cs).isSome = true ↔
    (p.closed = true → ∀ c, cs.head? = some c → p.allowsBeside c = true) := by
  unfold readEnd?
  dsimp only
  cases hclosed : p.closed with
  | false => simp
  | true =>
    simp only [if_true, forall_const]
    rw [← isSome_readClosing?_iff]
    split
    · rename_i rest hlonger
      refine iff_of_true rfl (isSome_readClosing?_iff.mpr fun c hc => ?_)
      split at hlonger
      · rename_i hstarts
        obtain ⟨d, tail, rfl, -, hd⟩ :=
          head_of_startsWithDayMark hp (Bool.and_eq_true_iff.mp hstarts).2
        cases hc
        exact hd
      · exact isSome_readClosing?_iff.mp (by rw [hlonger]; rfl) c hc
    · rw [Option.isSome_map]

/-- After the day comes a day mark or the rest of the text. -/
theorem mark_of_readEnd? (hp : p ∈ all) (h : p.readEnd? cs = some (after, rest)) :
    ∃ mark, cs = mark ++ after ∧
      (mark = [] ∨ p.dayMark = true ∧ ∃ c, mark = [c] ∧ (c = '日' ∨ c = '号')) := by
  have hafter : after = cs ∨
      after = if p.dayMark && startsWithDayMark cs then cs.tail else cs := by
    unfold readEnd? at h
    dsimp only at h
    split at h
    · split at h
      · cases h
        exact .inr rfl
      · obtain ⟨_, -, heq⟩ := Option.map_eq_some_iff.mp h
        cases heq
        exact .inl rfl
    · cases h
      exact .inr rfl
  rcases hafter with rfl | rfl
  · exact ⟨[], rfl, .inl rfl⟩
  · split
    · rename_i hstarts
      obtain ⟨hallowed, hstarts⟩ := Bool.and_eq_true_iff.mp hstarts
      obtain ⟨c, tail, rfl, hc, -⟩ := head_of_startsWithDayMark hp hstarts
      exact ⟨[c], rfl, .inr ⟨hallowed, c, rfl, hc⟩⟩
    · exact ⟨[], rfl, .inl rfl⟩

/-- What is read as a date has all its parts. No digit follows a day of one digit, and what
follows the day of a closed pattern may stand beside a date. -/
theorem parts_of_read? (front : List Char) (hp : p ∈ all)
    (h : p.read? cs = some (date, after, rest)) :
    ∃ parts : Parts, (parts.front = front ∧ parts.back = after) ∧
      cs = parts.year ++ parts.afterYear p ∧ parts.Spell p date ∧
      (parts.day.length = 2 ∨ ∀ c, parts.afterDay.head? = some c → c.isDigit = false) ∧
      (p.closed = true → ∀ c, parts.afterDay.head? = some c → p.allowsBeside c = true) := by
  unfold read? at h
  simp only [Option.bind_eq_bind, Option.bind_eq_some_iff, Option.pure_def, Option.some.injEq,
    Prod.mk.injEq, Prod.exists] at h
  obtain ⟨year, afterYear, hyear, month, afterMonth, hmonth, afterMark, hmark, day, afterDay,
    hday, after', rest', hend, rfl, rfl, rfl⟩ := h
  obtain ⟨years, rfl, hyears, rfl, hfour⟩ := digits_of_readYear? hyear
  obtain ⟨months, rfl, hmonths, rfl, htwo⟩ := digits_of_readNumber? hmonth
  obtain rfl := Text.of_readMark? hmark
  obtain ⟨days, rfl, hdays, rfl, hlength⟩ := digits_of_readNumber? hday
  have hclosed := (isSome_readEnd?_iff hp).mp (by rw [hend]; rfl)
  obtain ⟨mark, rfl, hdayMark⟩ := mark_of_readEnd? hp hend
  refine ⟨⟨front, years, months, days, mark, after'⟩, ⟨rfl, rfl⟩, rfl, ⟨rfl, ?_, hfour,
    htwo.symm.imp_left And.left, hlength.symm.imp_left And.left, hdayMark⟩,
    hlength.imp_right And.right, hclosed⟩
  simp only [List.mem_append]
  rintro d (hd | hd | hd)
  · exact hyears d hd
  · exact hmonths d hd
  · exact hdays d hd

/-- A number is read as a whole if it has two digits, or one and no other digit follows. -/
theorem readNumber?_append {ds : List Char} (hds : ∀ d ∈ ds, d.isDigit = true)
    (hlength : ds.length = 2 ∨
      ds.length = 1 ∧ ∀ c, rest.head? = some c → c.isDigit = false) :
    readNumber? (ds ++ rest) = some (Numeric.ofDigits ds, rest) := by
  have hread := Numeric.readDigits?_append hds rest
  unfold readNumber?
  rcases hlength with htwo | ⟨hone, hrest⟩
  · rw [htwo] at hread
    rw [hread]
  · have hnone : Numeric.readDigits? 2 (ds ++ rest) = none := by
      obtain ⟨d, rfl⟩ := List.length_eq_one_iff.mp hone
      cases rest with
      | nil => simp [Numeric.readDigits?]
      | cons c rest => simp [Numeric.readDigits?, hrest c rfl]
    rw [hone] at hread
    rw [hnone, hread]

/-- A year is read with its mark, where the pattern has one. -/
theorem readYear?_append {ds : List Char} (hds : ∀ d ∈ ds, d.isDigit = true)
    (hlength : ds.length = if p.yearMark.isSome then 4 else 0) (rest : List Char) :
    p.readYear? (ds ++ (p.yearMark.toList ++ rest)) =
      some (p.yearMark.map fun _ => Numeric.ofDigits ds, rest) := by
  unfold readYear?
  cases hmark : p.yearMark with
  | none =>
    obtain rfl : ds = [] := List.length_eq_zero_iff.mp (by simpa [hmark] using hlength)
    rfl
  | some mark =>
    have hread := Numeric.readDigits?_append hds (mark :: rest)
    rw [show ds.length = 4 by simpa [hmark] using hlength] at hread
    simp [hread, Text.readMark?_cons]

/-- The parts of a date are read as that date, where the character after the day allows it. -/
theorem Parts.Spell.exists_read? {parts : Parts} (hspell : parts.Spell p date) (hp : p ∈ all)
    (hday : parts.day.length = 2 ∨ ∀ c, parts.afterDay.head? = some c → c.isDigit = false)
    (hend : p.closed = true → ∀ c, parts.afterDay.head? = some c → p.allowsBeside c = true) :
    ∃ after rest, p.read? (parts.year ++ parts.afterYear p) = some (date, after, rest) := by
  obtain ⟨-, hmonthMark, -⟩ := marks_of_mem_all p hp
  obtain ⟨⟨after, rest⟩, hreadEnd⟩ :=
    Option.isSome_iff_exists.mp ((isSome_readEnd?_iff hp).mpr hend)
  have hyear := readYear?_append (fun d hd => hspell.isDigit d (List.mem_append_left _ hd))
    hspell.year (parts.month ++ parts.afterMonth p)
  have hmonth : readNumber? (parts.month ++ parts.afterMonth p) =
      some (Numeric.ofDigits parts.month, parts.afterMonth p) := by
    refine readNumber?_append
      (fun d hd => hspell.isDigit d (List.mem_append_right _ (List.mem_append_left _ hd)))
      (hspell.month.symm.imp_right fun hone => ⟨hone, ?_⟩)
    rintro c ⟨⟩
    exact hmonthMark
  have hday : readNumber? (parts.day ++ parts.afterDay) =
      some (Numeric.ofDigits parts.day, parts.afterDay) := by
    refine readNumber?_append
      (fun d hd => hspell.isDigit d (List.mem_append_right _ (List.mem_append_right _ hd))) ?_
    rcases hspell.day with hone | htwo
    · exact hday.imp_right fun hnext => ⟨hone, hnext⟩
    · exact .inl htwo
  have hmark : Text.readMark? p.monthMark (parts.afterMonth p) =
      some (parts.day ++ parts.afterDay) := Text.readMark?_cons _ _
  refine ⟨after, rest, ?_⟩
  simp only [read?, Parts.afterYear, hyear, hmonth, hmark, hday, hreadEnd, Option.bind_eq_bind,
    Option.bind_some, Option.pure_def, hspell.numbers]

namespace Parts.Spell

variable {parts : Parts} (hspell : parts.Spell p date) (hp : p ∈ all)

include hspell hp

/-- The year stands between what is beside the date and its mark. -/
theorem isWholeNumber_year (hbeside : ∀ c, parts.front.getLast? = some c → c.isDigit = false)
    (hsome : p.yearMark.isSome = true) :
    IsWholeNumber parts.front parts.year (parts.afterYear p) := by
  obtain ⟨hyearMark, -, -⟩ := marks_of_mem_all p hp
  obtain ⟨mark, hmark⟩ := Option.isSome_iff_exists.mp hsome
  refine ⟨fun hnil => ?_, fun c hc => hspell.isDigit c (List.mem_append_left _ hc), hbeside,
    fun c hc => ?_⟩
  · have hfour := hspell.year
    simp [hnil, hsome] at hfour
  · simp only [Parts.afterYear, hmark, Option.toList_some, List.singleton_append,
      List.head?_cons, Option.some_inj] at hc
    exact hyearMark c (hc ▸ hmark)

/-- The month stands behind the mark of the year, or behind what is beside the date. -/
theorem isWholeNumber_month (hbeside : ∀ c, parts.front.getLast? = some c → c.isDigit = false) :
    IsWholeNumber (parts.beforeMonth p) parts.month (parts.afterMonth p) := by
  obtain ⟨hyearMark, hmonthMark, -⟩ := marks_of_mem_all p hp
  refine ⟨fun hnil => by have := hspell.month; simp [hnil] at this,
    fun c hc => hspell.isDigit c (List.mem_append_right _ (List.mem_append_left _ hc)),
    fun c hc => ?_, fun c hc => ?_⟩
  · cases hmark : p.yearMark with
    | none =>
      have hnone : parts.year = [] := by
        have hfour := hspell.year
        simpa [hmark] using hfour
      simp only [Parts.beforeMonth, hmark, hnone, Option.toList_none, List.append_nil] at hc
      exact hbeside c hc
    | some mark =>
      simp only [Parts.beforeMonth, hmark, Option.toList_some, ← List.append_assoc,
        List.getLast?_concat, Option.some_inj] at hc
      exact hyearMark c (hc ▸ hmark)
  · simp only [Parts.afterMonth, List.head?_cons, Option.some_inj] at hc
    exact hc ▸ hmonthMark

/-- The day stands behind the mark of the month, and is whole if no digit follows. -/
theorem isWholeNumber_day (hnext : ∀ c, parts.afterDay.head? = some c → c.isDigit = false) :
    IsWholeNumber (parts.beforeDay p) parts.day parts.afterDay := by
  obtain ⟨-, hmonthMark, -⟩ := marks_of_mem_all p hp
  refine ⟨fun hnil => by have := hspell.day; simp [hnil] at this,
    fun c hc => hspell.isDigit c (List.mem_append_right _ (List.mem_append_right _ hc)),
    fun c hc => ?_, hnext⟩
  simp only [Parts.beforeDay, ← List.append_assoc, List.getLast?_concat, Option.some_inj] at hc
  exact hc ▸ hmonthMark

end Parts.Spell

/-- The numbers of every match stand in the text as whole numbers, except for a day of two
digits before a third one, where the pattern has 月 and does not look at what follows. -/
theorem isWholeNumber_of_mem_findAll (hp : p ∈ all) (h : found ∈ p.findAll cs) :
    ∃ parts : Parts, parts.AreOf p cs found ∧
      (p.yearMark.isSome = true → IsWholeNumber parts.front parts.year (parts.afterYear p)) ∧
      IsWholeNumber (parts.beforeMonth p) parts.month (parts.afterMonth p) ∧
      (IsWholeNumber (parts.beforeDay p) parts.day parts.afterDay ∨
        (p.monthMark = '月' ∧ parts.day.length = 2 ∧
          ∃ c, parts.back.head? = some c ∧ c.isDigit = true)) := by
  obtain ⟨-, -, hopen⟩ := marks_of_mem_all p hp
  obtain ⟨front, part, back, rest, ⟨rfl, hspan, hread⟩, hfront⟩ := standsApart_of_mem_findAll h
  obtain ⟨parts, ⟨rfl, rfl⟩, htext, hspell, hday, hclosed⟩ := parts_of_read? front hp hread
  have hpart : part = parts.written p :=
    List.append_cancel_right (htext.trans (parts.year_append_afterYear p))
  have hbeside : ∀ c, parts.front.getLast? = some c → c.isDigit = false := fun c hc => by
    simpa using (Bool.and_eq_true_iff.mp (hfront c hc)).1
  refine ⟨parts, ⟨by rw [← htext, List.append_assoc], by rw [hspan], ?_, hspell⟩,
    hspell.isWholeNumber_year hp hbeside, hspell.isWholeNumber_month hp hbeside, ?_⟩
  · rw [hspan, hpart]
    simp [Parts.written, Parts.beforeDay, Parts.beforeMonth]
  · by_cases hnext : ∀ c, parts.afterDay.head? = some c → c.isDigit = false
    · exact .inl (hspell.isWholeNumber_day hp hnext)
    · have htwo := hday.resolve_right hnext
      simp only [not_forall, Bool.not_eq_false] at hnext
      obtain ⟨c, hc, hdigit⟩ := hnext
      have hnotClosed : p.closed = false := by
        by_contra hclosed'
        have hbeside := hclosed (by simpa using hclosed') c hc
        simp [allowsBeside, hdigit] at hbeside
      refine .inr ⟨hopen hnotClosed, htwo, c, ?_, hdigit⟩
      rcases hspell.dayMark with hnone | ⟨-, d, hmark, hd⟩
      · simpa [Parts.afterDay, hnone] using hc
      · simp only [Parts.afterDay, hmark, List.singleton_append, List.head?_cons,
          Option.some_inj] at hc
        subst hc
        rcases hd with rfl | rfl <;> cases hdigit

/-- Between two words, a date is read with all its digits and its mark. -/
theorem isWholeNumber_of_mem_findAll_between_words :
    let p : DatePattern := ⟨.fullChinese, some '年', '月', true, [], false⟩
    let cs := "review 2025年01月21号见".toList
    let found : DateMatch := ⟨⟨7, 24⟩, ⟨some 2025, 1, 21⟩⟩
    (p ∈ all ∧ found ∈ p.findAll cs) ∧
    ∃ parts : Parts, parts.AreOf p cs found ∧
      (p.yearMark.isSome = true → IsWholeNumber parts.front parts.year (parts.afterYear p)) ∧
      IsWholeNumber (parts.beforeMonth p) parts.month (parts.afterMonth p) ∧
      (IsWholeNumber (parts.beforeDay p) parts.day parts.afterDay ∨
        (p.monthMark = '月' ∧ parts.day.length = 2 ∧
          ∃ c, parts.back.head? = some c ∧ c.isDigit = true)) := by
  intro p cs found
  have hp : p ∈ all := by decide
  have hfound : found ∈ p.findAll cs := by decide +kernel
  exact ⟨⟨hp, hfound⟩, isWholeNumber_of_mem_findAll hp hfound⟩

/-- A day that is written with three digits is read as that of its first two, and the text is
resolved to it. -/
theorem longer_number_read_as_day :
    let p : DatePattern := ⟨.fullChinese, some '年', '月', true, [], false⟩
    let cs := "2025年1月215".toList
    let found : DateMatch := ⟨⟨0, 13⟩, ⟨some 2025, 1, 21⟩⟩
    let parts : Parts := ⟨[], "2025".toList, "1".toList, "21".toList, [], "5".toList⟩
    (p ∈ all ∧ found ∈ p.findAll cs ∧ parts.AreOf p cs found) ∧
    ¬IsWholeNumber (parts.beforeDay p) parts.day parts.afterDay ∧
    (Resolution.resolve (String.ofList cs) (Instant.midnight Date.first)).map
      (·.map fun r => (r.range.label, r.source)) = .ok (some ("2025年1月21日", .absolute)) := by
  intro p cs found parts
  refine ⟨⟨by decide, by decide +kernel, ⟨by decide, rfl, by decide, rfl,
    List.all_eq_true.mp rfl, by decide, by decide, by decide, .inl rfl⟩⟩, fun hwhole => ?_,
    by decide +kernel⟩
  exact absurd (hwhole.after '5' rfl) (by decide)

end DatePattern

end Daybook
