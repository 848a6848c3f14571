import Daybook.Text.Blank
import Daybook.Text.Term
import Daybook.Time.DatePattern
import Daybook.Time.Phrase
import Daybook.Time.Range

/-!
# Resolving the time that a text speaks of

A written date decides first: the first pattern that matches is used, and if its
numbers are no date of the calendar, phrases decide instead. Of the phrases, the
most specific wins, then the longest, then the one that stands first in the
table. A part of a day narrows the day, and a day of the week narrows a week
that is named beside it.
-/

namespace Daybook

/-- Whether a range came from a written date or from a phrase. -/
inductive TimeSource where
  | absolute
  | relative
  deriving DecidableEq, Repr

/-- How schedules are matched with a range. -/
inductive MatchMode where
  /-- No time was spoken of. -/
  | auto
  /-- Schedules that overlap the range. -/
  | standard
  /-- Schedules that lie in the range. -/
  | strict
  deriving DecidableEq, Repr

namespace MatchMode

/-- The name of the mode. -/
def name : MatchMode → String
  | .auto => "auto"
  | .standard => "standard"
  | .strict => "strict"

/-- The mode for a query whose time came from a source, if it had one. -/
def ofSource : Option TimeSource → MatchMode
  | none => .auto
  | some .relative => .standard
  | some .absolute => .strict

end MatchMode

/-- The time that a text speaks of. -/
structure Resolution where
  range : Range
  source : TimeSource
  deriving DecidableEq

namespace Phrase

/-- The places of a text where the phrase stands for itself. -/
def occurrences (p : Phrase) (cs : List Char) : List Text.Occurrence :=
  (Text.occurrences cs p.text.toList).filter fun o => p.accepts o.before o.after

/-- The phrases of the table that a text holds. -/
def mentioned (cs : List Char) : List Phrase :=
  table.filter fun p => !(p.occurrences cs).isEmpty

/-- Whether `p` is preferred to a phrase `q` that stands before it in the table. -/
def precedes (p q : Phrase) : Bool :=
  p.anchor.tier < q.anchor.tier || (p.anchor.tier == q.anchor.tier && q.size < p.size)

/-- The preferred one of some phrases in table order. -/
def best? (phrases : List Phrase) : Option Phrase :=
  phrases.foldl
    (fun
      | none, p => some p
      | some q, p => some (if p.precedes q then p else q))
    none

/-- The preferred part of a day among some phrases, with its label. -/
def bestDayPart? (phrases : List Phrase) : Option (DayPart × String) :=
  match best? (phrases.filter (·.anchor.isDayPart)) with
  | some ⟨_, label, .dayPart part, _, _⟩ => some (part, label)
  | _ => none

/-- The preferred week among some phrases, as an offset from this week, with its
label. -/
def bestWeek? (phrases : List Phrase) : Option (Int × String) :=
  match best? (phrases.filter (·.anchor.isWeek)) with
  | some ⟨_, label, .week offset, _, _⟩ => some (offset, label)
  | _ => none

end Phrase

namespace Resolution

/-- Whether every character is an ASCII character. -/
def isAscii (text : String) : Bool := text.toList.all fun c => c.toNat < 128

/-- Two labels in one. Chinese labels are joined without a space. -/
def joinLabels (first second : String) : String :=
  if first.isEmpty then second
  else if isAscii first || isAscii second then first ++ " " ++ second
  else first ++ second

/-- A whole day, or the given part of it. -/
def dayRange (date : Date) (label : String) (part : Option (DayPart × String)) :
    Except Fault (Option Range) := do
  match part with
  | none =>
    let stop ← Instant.atHour date 24
    return Range.make? (Instant.midnight date) stop label
  | some (part, partLabel) =>
    let start ← Instant.atHour date part.hours.1
    let stop ← Instant.atHour date part.hours.2
    return Range.make? start stop (joinLabels label partLabel)

/-- The label that repeats a written date of a style. -/
def dateLabel (style : DateStyle) (date : Date) (month day : Nat) : String :=
  match style with
  | .fullChinese =>
    Numeric.signedNumeral date.year ++ "年" ++ Numeric.numeral month ++ "月" ++
      Numeric.numeral day ++ "日"
  | .hyphens =>
    Numeric.signedNumeral date.year ++ "-" ++ twoDigits month ++ "-" ++ twoDigits day
  | .slashes =>
    Numeric.signedNumeral date.year ++ "/" ++ twoDigits month ++ "/" ++ twoDigits day
  | .monthAndDay => Numeric.numeral month ++ "月" ++ Numeric.numeral day ++ "日"

/-- The date that written numbers stand for. Without a year it is the next such
date from `today` on. -/
def dateOf? (written : WrittenDate) (today : Date) : Option Date :=
  match written.year with
  | some year => Date.ofCivil? year written.month written.day
  | none => today.upcoming? written.month written.day

/-- The first match of the first pattern that matches at all. -/
def writtenDate? (cs : List Char) : Option (DateStyle × WrittenDate) :=
  DatePattern.all.findSome? fun p => (p.findAll cs).head?.map fun found => (p.style, found.date)

/-- The date written in a text, with its label. -/
def absoluteDate? (cs : List Char) (today : Date) : Option (Date × String) := do
  let (style, written) ← writtenDate? cs
  let date ← dateOf? written today
  return (date, dateLabel style date written.month written.day)

/-- The day that a phrase names, with its label. A day of the week lies in the
given week, or else ahead: today counts until the hour after noon is reached. -/
def dayOf (day : Phrase) (week : Option (Int × String)) (now : Instant) :
    Except Fault (Option (Date × String)) := do
  let today := now.date
  match day.anchor with
  | .day offset => return (today.addDays? offset).map fun date => (date, day.label)
  | .weekday index =>
    match week with
    | some (offset, weekLabel) =>
      let monday ← today.monday
      let label :=
        if isAscii weekLabel then day.label ++ " " ++ weekLabel
        else weekLabel ++ String.ofList (day.label.toList.dropWhile (· == '周'))
      return (monday.addDays? (7 * offset + index)).map fun date => (date, label)
    | none =>
      let ahead := ((index : Int) - today.weekday) % 7
      let ahead := if ahead = 0 ∧ 12 < now.hour then 7 else ahead
      return (today.addDays? ahead).map fun date => (date, day.label)
  | _ => return none

/-- The days of a week, month, quarter, year or of the recent time: the first one
and the first one after. -/
def bandOf (anchor : Anchor) (today : Date) : Except Fault (Option (Date × Date)) := do
  match anchor with
  | .week offset =>
    let monday ← today.monday
    return do
      let start ← monday.addDays? (7 * offset)
      return (start, ← start.addDays? 7)
  | .month offset =>
    return do
      let start ← today.firstOfMonth? offset
      return (start, ← start.firstOfMonth? 1)
  | .quarter index =>
    return do
      let start ← Date.ofCivil? today.year (3 * (index - 1) + 1) 1
      return (start, ← start.firstOfMonth? 3)
  | .year offset =>
    return do
      let start ← Date.ofCivil? (today.year + offset) 1 1
      return (start, ← Date.ofCivil? (today.year + offset + 1) 1 1)
  | .recent =>
    return do
      let start ← today.addDays? (-6)
      return (start, ← today.addDays? 1)
  | .day _ | .weekday _ | .dayPart _ => return none

/-- The range that some phrases speak of together. -/
def ofPhrases (phrases : List Phrase) (now : Instant) : Except Fault (Option Range) := do
  let part := Phrase.bestDayPart? phrases
  match Phrase.best? (phrases.filter (·.anchor.isDay)) with
  | some day =>
    match ← dayOf day (Phrase.bestWeek? phrases) now with
    | some (date, label) => dayRange date label part
    | none => return none
  | none =>
    if part.isSome then dayRange now.date "" part
    else
      match Phrase.best? phrases with
      | none => return none
      | some phrase =>
        match ← bandOf phrase.anchor now.date with
        | none => return none
        | some (start, stop) =>
          return Range.make? (Instant.midnight start) (Instant.midnight stop) phrase.label

/-- The time that a text speaks of, seen from `now`. -/
def resolve (text : String) (now : Instant) : Except Fault (Option Resolution) := do
  let cs := text.toList
  if Text.allBlank cs then return none
  let phrases := Phrase.mentioned cs
  match absoluteDate? cs now.date with
  | some (date, label) =>
    let range ← dayRange date label (Phrase.bestDayPart? phrases)
    return range.map fun range => ⟨range, .absolute⟩
  | none =>
    let range ← ofPhrases phrases now
    return range.map fun range => ⟨range, .relative⟩

/-- The spans of all written dates and of all phrases of a text. -/
def timeSpans (cs : List Char) : List Text.Span :=
  (DatePattern.all.flatMap fun p => (p.findAll cs).map (·.span)) ++
    Phrase.table.flatMap fun p => (p.occurrences cs).map (·.span)

/-- A text without its written dates and its phrases for times. -/
def strip (text : String) : Except Fault String := do
  let cs := text.toList
  let rest ← Text.blankSpans cs (timeSpans cs)
  return String.ofList (Text.collapse rest)

end Resolution

end Daybook
