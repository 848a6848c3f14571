/-!
# Phrases for times

The table of phrases that name a time relative to now, with the labels under
which synonyms meet. Where two phrases are equally specific and equally long,
the one that stands first in the table is preferred.
-/

namespace Daybook

/-- A part of a day, as fixed hours of universal time. -/
inductive DayPart where
  | earlyMorning
  | morning
  | noon
  | afternoon
  | evening
  deriving DecidableEq, Repr

/-- The first hour of a part of a day, and the hour at which it is over. -/
def DayPart.hours : DayPart → Nat × Nat
  | .earlyMorning => (0, 6)
  | .morning => (0, 12)
  | .noon => (11, 13)
  | .afternoon => (12, 18)
  | .evening => (18, 24)

/-- What a phrase refers to, seen from now. -/
inductive Anchor where
  /-- The day a number of days after today. -/
  | day (offset : Int)
  /-- The next such day of the week, counted from Monday as zero. -/
  | weekday (index : Nat)
  /-- Some hours of a day. -/
  | dayPart (part : DayPart)
  /-- The week, from Monday on, a number of weeks after this one. -/
  | week (offset : Int)
  /-- The month a number of months after this one. -/
  | month (offset : Int)
  /-- A quarter of this year, from 1 to 4. -/
  | quarter (index : Nat)
  /-- The year a number of years after this one. -/
  | year (offset : Int)
  /-- Today and the six days before it. -/
  | recent
  deriving DecidableEq, Repr

namespace Anchor

/-- How specific an anchor is; a lower tier is more specific. -/
def tier : Anchor → Nat
  | .day _ | .weekday _ => 0
  | .dayPart _ => 1
  | .week _ => 2
  | .month _ => 3
  | .quarter _ => 4
  | .year _ => 5
  | .recent => 6

/-- Whether the anchor names a single day. -/
def isDay : Anchor → Bool
  | .day _ | .weekday _ => true
  | _ => false

/-- Whether the anchor names a part of a day. -/
def isDayPart : Anchor → Bool
  | .dayPart _ => true
  | _ => false

/-- Whether the anchor names a week. -/
def isWeek : Anchor → Bool
  | .week _ => true
  | _ => false

end Anchor

/-- One entry of the table. -/
structure Phrase where
  text : String
  /-- The label that the phrase shares with its synonyms. -/
  label : String
  anchor : Anchor
  /-- Characters after which the phrase is part of a longer word. -/
  notAfter : List Char
  /-- Characters before which the phrase is part of a longer word. -/
  notBefore : List Char
  deriving DecidableEq, Repr

/-- Whether the phrase stands for itself between two characters, rather than
being part of a longer word. -/
def Phrase.accepts (p : Phrase) (before after : Option Char) : Bool :=
  !before.any (p.notAfter.contains ·) && !after.any (p.notBefore.contains ·)

/-- The number of characters of a phrase. -/
def Phrase.size (p : Phrase) : Nat := p.text.toList.length

namespace Phrase

/-- The first characters of compounds that mean before or after now, such as
当前 and 以后. -/
def nowCompounds : List Char := ['当', '目', '之', '以', '今']

/-- The last character of phrases such as 一周一次, once a week. -/
def timesAWeek : List Char := ['次']

/-- The last characters of 日程 and 日常, and of phrases such as 每周日次. -/
def sundayCompounds : List Char := ['程', '常', '次']

/-- Phrases for days counted from today. -/
def days : List Phrase :=
  [⟨"今天", "今天", .day 0, [], []⟩,
    ⟨"今日", "今天", .day 0, [], []⟩,
    ⟨"today", "today", .day 0, [], []⟩,
    ⟨"明天", "明天", .day 1, [], []⟩,
    ⟨"明日", "明天", .day 1, [], []⟩,
    ⟨"tomorrow", "tomorrow", .day 1, [], []⟩,
    ⟨"大后天", "大后天", .day 3, [], []⟩,
    ⟨"后天", "后天", .day 2, nowCompounds, []⟩,
    ⟨"后日", "后天", .day 2, nowCompounds, ['程']⟩,
    ⟨"day after tomorrow", "day after tomorrow", .day 2, [], []⟩,
    ⟨"昨天", "昨天", .day (-1), [], []⟩,
    ⟨"昨日", "昨天", .day (-1), [], []⟩,
    ⟨"yesterday", "yesterday", .day (-1), [], []⟩,
    ⟨"大前天", "大前天", .day (-3), [], []⟩,
    ⟨"前天", "前天", .day (-2), nowCompounds, []⟩,
    ⟨"前日", "前天", .day (-2), nowCompounds, ['程']⟩,
    ⟨"day before yesterday", "day before yesterday", .day (-2), [], []⟩]

/-- Phrases for days of the week. -/
def weekdays : List Phrase :=
  [⟨"周一", "周一", .weekday 0, [], timesAWeek⟩,
    ⟨"周二", "周二", .weekday 1, [], timesAWeek⟩,
    ⟨"周三", "周三", .weekday 2, [], timesAWeek⟩,
    ⟨"周四", "周四", .weekday 3, [], timesAWeek⟩,
    ⟨"周五", "周五", .weekday 4, [], timesAWeek⟩,
    ⟨"周六", "周六", .weekday 5, [], timesAWeek⟩,
    ⟨"周日", "周日", .weekday 6, [], sundayCompounds⟩,
    ⟨"星期一", "周一", .weekday 0, [], timesAWeek⟩,
    ⟨"星期二", "周二", .weekday 1, [], timesAWeek⟩,
    ⟨"星期三", "周三", .weekday 2, [], timesAWeek⟩,
    ⟨"星期四", "周四", .weekday 3, [], timesAWeek⟩,
    ⟨"星期五", "周五", .weekday 4, [], timesAWeek⟩,
    ⟨"星期六", "周六", .weekday 5, [], timesAWeek⟩,
    ⟨"星期日", "周日", .weekday 6, [], sundayCompounds⟩,
    ⟨"星期天", "周日", .weekday 6, [], sundayCompounds⟩,
    ⟨"monday", "monday", .weekday 0, [], []⟩,
    ⟨"tuesday", "tuesday", .weekday 1, [], []⟩,
    ⟨"wednesday", "wednesday", .weekday 2, [], []⟩,
    ⟨"thursday", "thursday", .weekday 3, [], []⟩,
    ⟨"friday", "friday", .weekday 4, [], []⟩,
    ⟨"saturday", "saturday", .weekday 5, [], []⟩,
    ⟨"sunday", "sunday", .weekday 6, [], []⟩]

/-- Phrases for parts of a day. -/
def dayParts : List Phrase :=
  [⟨"凌晨", "凌晨", .dayPart .earlyMorning, [], []⟩,
    ⟨"上午", "上午", .dayPart .morning, [], []⟩,
    ⟨"早上", "上午", .dayPart .morning, [], []⟩,
    ⟨"morning", "morning", .dayPart .morning, [], []⟩,
    ⟨"中午", "中午", .dayPart .noon, [], []⟩,
    ⟨"noon", "noon", .dayPart .noon, [], []⟩,
    ⟨"下午", "下午", .dayPart .afternoon, [], []⟩,
    ⟨"afternoon", "afternoon", .dayPart .afternoon, [], []⟩,
    ⟨"晚上", "晚上", .dayPart .evening, [], []⟩,
    ⟨"evening", "evening", .dayPart .evening, [], []⟩,
    ⟨"tonight", "tonight", .dayPart .evening, [], []⟩,
    ⟨"night", "evening", .dayPart .evening, [], []⟩]

/-- Phrases for weeks counted from this one. -/
def weeks : List Phrase :=
  [⟨"本周", "本周", .week 0, [], []⟩,
    ⟨"这周", "本周", .week 0, [], []⟩,
    ⟨"this week", "this week", .week 0, [], []⟩,
    ⟨"上周", "上周", .week (-1), [], []⟩,
    ⟨"last week", "last week", .week (-1), [], []⟩,
    ⟨"下周", "下周", .week 1, [], []⟩,
    ⟨"next week", "next week", .week 1, [], []⟩]

/-- Phrases for months counted from this one. -/
def months : List Phrase :=
  [⟨"这个月", "这个月", .month 0, [], []⟩,
    ⟨"本月", "这个月", .month 0, [], []⟩,
    ⟨"这月", "这个月", .month 0, [], []⟩,
    ⟨"月内", "这个月", .month 0, [], []⟩,
    ⟨"this month", "this month", .month 0, [], []⟩,
    ⟨"上个月", "上个月", .month (-1), [], []⟩,
    ⟨"上月", "上个月", .month (-1), [], []⟩,
    ⟨"last month", "last month", .month (-1), [], []⟩,
    ⟨"下个月", "下个月", .month 1, [], []⟩,
    ⟨"下月", "下个月", .month 1, [], []⟩,
    ⟨"next month", "next month", .month 1, [], []⟩]

/-- Phrases for quarters of this year. -/
def quarters : List Phrase :=
  [⟨"第一季度", "一季度", .quarter 1, [], []⟩,
    ⟨"一季度", "一季度", .quarter 1, [], []⟩,
    ⟨"第二季度", "二季度", .quarter 2, [], []⟩,
    ⟨"二季度", "二季度", .quarter 2, [], []⟩,
    ⟨"第三季度", "三季度", .quarter 3, [], []⟩,
    ⟨"三季度", "三季度", .quarter 3, [], []⟩,
    ⟨"第四季度", "四季度", .quarter 4, [], []⟩,
    ⟨"四季度", "四季度", .quarter 4, [], []⟩,
    ⟨"q1", "q1", .quarter 1, [], []⟩,
    ⟨"q2", "q2", .quarter 2, [], []⟩,
    ⟨"q3", "q3", .quarter 3, [], []⟩,
    ⟨"q4", "q4", .quarter 4, [], []⟩]

/-- Phrases for years counted from this one. -/
def years : List Phrase :=
  [⟨"今年", "今年", .year 0, [], []⟩,
    ⟨"this year", "this year", .year 0, [], []⟩,
    ⟨"明年", "明年", .year 1, [], []⟩,
    ⟨"next year", "next year", .year 1, [], []⟩,
    ⟨"去年", "去年", .year (-1), [], []⟩,
    ⟨"last year", "last year", .year (-1), [], []⟩,
    ⟨"大后年", "大后年", .year 3, [], []⟩,
    ⟨"后年", "后年", .year 2, [], []⟩,
    ⟨"大前年", "大前年", .year (-3), [], []⟩,
    ⟨"前年", "前年", .year (-2), [], []⟩]

/-- Phrases for the last seven days. -/
def recent : List Phrase :=
  [⟨"近期", "近期", .recent, [], []⟩,
    ⟨"最近", "近期", .recent, [], []⟩,
    ⟨"这几天", "近期", .recent, [], []⟩,
    ⟨"recently", "recent", .recent, [], []⟩,
    ⟨"recent", "recent", .recent, [], []⟩,
    ⟨"lately", "recent", .recent, [], []⟩,
    ⟨"these days", "recent", .recent, [], []⟩]

/-- The whole table. -/
def table : List Phrase :=
  days ++ weekdays ++ dayParts ++ weeks ++ months ++ quarters ++ years ++ recent

/-- The entry for a phrase, with its position in the table. -/
def find? (text : String) : Option (Nat × Phrase) :=
  (table.zipIdx.find? fun (p, _) => p.text == text).map fun (p, i) => (i, p)

end Phrase

end Daybook
