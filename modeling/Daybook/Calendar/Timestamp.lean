import Daybook.Calendar.Instant
import Daybook.Numeric.Decimal
import Daybook.Text.Reading

/-!
# Timestamps

The text of dates and instants, and the reading of RFC 3339 timestamps. Years
outside 0 to 9999 are written with a sign, and a second is followed by three,
six or nine digits of its fraction, or by none, whichever is the shortest exact
form. A leap second is written as second 60.
-/

namespace Daybook

/-- The year with four digits, or with a sign where that is not enough. -/
def yearText (year : Int) : String :=
  if 0 ≤ year ∧ year ≤ 9999 then String.ofList (Numeric.padded 4 year.toNat)
  else (if year < 0 then "-" else "+") ++ String.ofList (Numeric.padded 4 year.natAbs)

/-- A number with at least two digits. -/
def twoDigits (n : Nat) : String := String.ofList (Numeric.padded 2 n)

/-- Year, month and day of the month with hyphens between. -/
def Date.text (date : Date) : String :=
  let civil := date.civil
  yearText civil.year ++ "-" ++ twoDigits civil.month ++ "-" ++ twoDigits civil.day

namespace Instant

/-- Hours, minutes and seconds with colons between. -/
def clock (t : Instant) : String :=
  let second := t.second % 60 + (if 1000000000 ≤ t.nano then 1 else 0)
  twoDigits (t.second / 3600) ++ ":" ++ twoDigits (t.second / 60 % 60) ++ ":" ++ twoDigits second

/-- The fraction of the second with its point, empty when it is zero. -/
def fraction (t : Instant) : String :=
  let nano := t.nano % 1000000000
  if nano = 0 then ""
  else if nano % 1000000 = 0 then "." ++ String.ofList (Numeric.padded 3 (nano / 1000000))
  else if nano % 1000 = 0 then "." ++ String.ofList (Numeric.padded 6 (nano / 1000))
  else "." ++ String.ofList (Numeric.padded 9 nano)

/-- The RFC 3339 form up to the offset. -/
def stamp (t : Instant) : String := t.date.text ++ "T" ++ t.clock ++ t.fraction

/-- The RFC 3339 form with the letter Z for the offset. -/
def zulu (t : Instant) : String := t.stamp ++ "Z"

/-- The RFC 3339 form with a numeric offset. -/
def offsetForm (t : Instant) : String := t.stamp ++ "+00:00"

/-- The form used inside sentences. -/
def sentenceForm (t : Instant) : String :=
  t.date.text ++ " " ++ t.clock ++ t.fraction ++ " UTC"

/-- The form used in listings, to the second. -/
def listingForm (t : Instant) : String := t.date.text ++ " " ++ t.clock ++ " UTC"

end Instant

namespace Timestamp

/-- Reads the fraction of a second, in nanoseconds. Digits after the ninth are
dropped. Without a point there is no fraction. -/
def readFraction? : List Char → Option (Nat × List Char)
  | '.' :: cs =>
    let run := cs.takeWhile Char.isDigit
    if run.isEmpty then none
    else
      let kept := run.take 9
      some (Numeric.ofDigits kept * Nat.pow 10 (9 - kept.length), cs.dropWhile Char.isDigit)
  | cs => some (0, cs)

/-- Reads the offset from universal time, in seconds: the letter Z, or a sign
with hours and minutes below one day. -/
def readOffset? : List Char → Option (Int × List Char)
  | [] => none
  | c :: cs =>
    if c == 'Z' || c == 'z' then some (0, cs)
    else do
      let sign : Int ←
        if c == '+' then some 1 else if c == '-' || c == '−' then some (-1) else none
      let (hours, cs) ← Numeric.readDigits? 2 cs
      let cs ← Text.readMark? ':' cs
      let (minutes, cs) ← Numeric.readDigits? 2 cs
      if hours ≤ 23 ∧ minutes ≤ 59 then some (sign * (hours * 3600 + minutes * 60 : Nat), cs)
      else none

/-- The instant at which clocks with an offset show a date and a second of the
day. -/
def fromLocal? (date : Date) (second nano : Nat) (offset : Int) : Option Instant :=
  let shown := date.day * 86400 + second - offset
  match Date.ofDay? (shown / 86400) with
  | none => none
  | some date =>
    if h : nano < 2000000000 then
      some { date, second := (shown % 86400).toNat, nano, nano_lt := h }
    else none

/-- Reads an RFC 3339 timestamp that fills the whole text. Second 60 is the leap
second after second 59. -/
def read? (cs : List Char) : Option Instant := do
  let (year, cs) ← Numeric.readDigits? 4 cs
  let cs ← Text.readMark? '-' cs
  let (month, cs) ← Numeric.readDigits? 2 cs
  let cs ← Text.readMark? '-' cs
  let (day, cs) ← Numeric.readDigits? 2 cs
  let cs ← Text.readChar? (fun c => c == 'T' || c == 't' || c == ' ') cs
  let (hour, cs) ← Numeric.readDigits? 2 cs
  let cs ← Text.readMark? ':' cs
  let (minute, cs) ← Numeric.readDigits? 2 cs
  let cs ← Text.readMark? ':' cs
  let (second, cs) ← Numeric.readDigits? 2 cs
  let (nano, cs) ← readFraction? cs
  let (offset, cs) ← readOffset? cs
  let date ← Date.ofCivil? year month day
  if cs.isEmpty ∧ hour ≤ 23 ∧ minute ≤ 59 ∧ second ≤ 60 then
    let ofDay := hour * 3600 + minute * 60
    if second = 60 then fromLocal? date (ofDay + 59) (nano + 1000000000) offset
    else fromLocal? date (ofDay + second) nano offset
  else none

end Timestamp

end Daybook
