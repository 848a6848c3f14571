import Daybook.Numeric.Decimal
import Daybook.Text.Reading
import Daybook.Text.Span

/-!
# Written dates

The ways in which a text can write a calendar date, such as 2025年1月21日,
2025-01-21, 1月21号 or 1/21. A pattern is matched where the character before it
does not belong to a longer number, and some patterns look at the character
after it too. Matches of one pattern are found from left to right and do not
overlap; the characters looked at on both sides belong to the match.
-/

namespace Daybook

/-- The form in which a date is repeated in a label. -/
inductive DateStyle where
  /-- As in 2025年1月21日. -/
  | fullChinese
  /-- As in 2025-01-21. -/
  | hyphens
  /-- As in 2025/01/21. -/
  | slashes
  /-- As in 1月21日. -/
  | monthAndDay
  deriving DecidableEq, Repr

/-- One way of writing a date. -/
structure DatePattern where
  style : DateStyle
  /-- The mark after a year of four digits; none where no year is written. -/
  yearMark : Option Char
  /-- The mark after the month. -/
  monthMark : Char
  /-- Whether 日 or 号 may follow the day. -/
  dayMark : Bool
  /-- Characters, besides digits, that may not stand before the date. -/
  notBeside : List Char
  /-- Whether the same holds of the character after the date. -/
  closed : Bool
  deriving DecidableEq, Repr

/-- The numbers of a written date. -/
structure WrittenDate where
  year : Option Nat
  month : Nat
  day : Nat
  deriving DecidableEq, Repr

/-- A written date in a text, without the characters on its sides. -/
structure DateMatch where
  span : Text.Span
  date : WrittenDate
  deriving DecidableEq, Repr

namespace DatePattern

/-- The patterns, the more telling ones first. -/
def all : List DatePattern :=
  [⟨.fullChinese, some '年', '月', true, [], false⟩,
    ⟨.hyphens, some '-', '-', false, [], true⟩,
    ⟨.slashes, some '/', '/', false, [], true⟩,
    ⟨.monthAndDay, none, '月', true, [], false⟩,
    ⟨.monthAndDay, none, '-', true, ['/', '-'], true⟩,
    ⟨.monthAndDay, none, '/', true, ['/', '-'], true⟩]

/-- Whether a character may stand beside a date of the pattern. -/
def allowsBeside (p : DatePattern) (c : Char) : Bool := !c.isDigit && !p.notBeside.contains c

/-- Reads a number of one or two digits, of two where possible. -/
def readNumber? (cs : List Char) : Option (Nat × List Char) :=
  match Numeric.readDigits? 2 cs with
  | some found => some found
  | none => Numeric.readDigits? 1 cs

/-- The year with its mark, where the pattern has one. -/
def readYear? (p : DatePattern) (cs : List Char) : Option (Option Nat × List Char) :=
  match p.yearMark with
  | none => some (none, cs)
  | some mark => do
    let (year, cs) ← Numeric.readDigits? 4 cs
    let cs ← Text.readMark? mark cs
    return (some year, cs)

/-- Whether 日 or 号 is next. -/
def startsWithDayMark (cs : List Char) : Bool := cs.head?.any fun c => c == '日' || c == '号'

/-- What remains after the closing character, given the text after the date. -/
def readClosing? (p : DatePattern) : List Char → Option (List Char)
  | [] => some []
  | c :: cs => if p.allowsBeside c then some cs else none

/-- The text after the date, and after its closing character. A day mark belongs
to the date unless only it can serve as the closing character. -/
def readEnd? (p : DatePattern) (cs : List Char) : Option (List Char × List Char) :=
  let longer := if p.dayMark && startsWithDayMark cs then cs.tail else cs
  if p.closed then
    match p.readClosing? longer with
    | some rest => some (longer, rest)
    | none => (p.readClosing? cs).map fun rest => (cs, rest)
  else some (longer, longer)

/-- Reads a date at the start of a text: its numbers, the text after it, and the
text after its closing character. -/
def read? (p : DatePattern) (cs : List Char) : Option (WrittenDate × List Char × List Char) := do
  let (year, cs) ← p.readYear? cs
  let (month, cs) ← readNumber? cs
  let cs ← Text.readMark? p.monthMark cs
  let (day, cs) ← readNumber? cs
  let (after, rest) ← p.readEnd? cs
  return (⟨year, month, day⟩, after, rest)

/-- The matches in a text at byte position `offset`, each tried behind a character
that may stand beside a date. The first `skip` characters belong to the match
before. -/
def matchesFrom (p : DatePattern) (skip offset : Nat) : List Char → List DateMatch
  | [] => []
  | c :: cs =>
    match skip with
    | k + 1 => matchesFrom p k (offset + c.utf8Size) cs
    | 0 =>
      let start := offset + c.utf8Size
      match if p.allowsBeside c then p.read? cs else none with
      | none => matchesFrom p 0 start cs
      | some (date, after, rest) =>
        ⟨⟨start, start + (Text.byteLength cs - Text.byteLength after)⟩, date⟩ ::
          matchesFrom p (cs.length - rest.length) start cs

/-- The matches of a pattern in a text. A date at the very start needs no
character before it. -/
def findAll (p : DatePattern) (cs : List Char) : List DateMatch :=
  match p.read? cs with
  | none => matchesFrom p 0 0 cs
  | some (date, after, rest) =>
    ⟨⟨0, Text.byteLength cs - Text.byteLength after⟩, date⟩ ::
      matchesFrom p (cs.length - rest.length) 0 cs

end DatePattern

end Daybook
