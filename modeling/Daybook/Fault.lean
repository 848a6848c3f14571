/-!
# Faults

Two kinds of operation are defined on part of their arguments only: cutting a
text at byte positions, and moving along the calendar. What they do elsewhere
is a fault, and a fault is the answer of the whole computation that met it.
-/

namespace Daybook

/-- Why a partial operation has no result. -/
inductive Fault where
  /-- A cut would fall inside the encoding of one character. -/
  | insideCharacter
  /-- A cut lies beyond the end of the text. -/
  | beyondText
  /-- A part that is to be cut out would end before it begins. -/
  | endsBeforeStart
  /-- A day or an instant lies outside the calendar. -/
  | beyondCalendar
  deriving DecidableEq, Repr

end Daybook
