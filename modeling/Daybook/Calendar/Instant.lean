import Daybook.Calendar.Date

/-!
# Instants

An instant is a date, a second of that day and the nanoseconds past that second.
A leap second belongs to the second before it, whose nanoseconds then run on to
two thousand million. The order of instants is that of the three parts in turn.
-/

namespace Daybook

/-- A point in coordinated universal time. -/
structure Instant where
  date : Date
  /-- The second of the day. -/
  second : Nat
  /-- Nanoseconds past the second; a thousand million or more in a leap second. -/
  nano : Nat
  second_lt : second < 86400 := by omega
  nano_lt : nano < 2000000000 := by omega
  deriving DecidableEq

namespace Instant

/-- A number that orders instants as their three parts do. -/
def rank (t : Instant) : Int := (t.date.day * 86400 + t.second) * 2000000000 + t.nano

/-- An instant is earlier than another one if its rank is less. -/
instance : LT Instant := ⟨fun a b => a.rank < b.rank⟩

/-- An instant is not later than another one if its rank is not greater. -/
instance : LE Instant := ⟨fun a b => a.rank ≤ b.rank⟩

/-- Ranks are compared to tell which of two instants is earlier. -/
instance (a b : Instant) : Decidable (a < b) := inferInstanceAs (Decidable (a.rank < b.rank))

/-- Ranks are compared to tell whether an instant is not later than another one. -/
instance (a b : Instant) : Decidable (a ≤ b) := inferInstanceAs (Decidable (a.rank ≤ b.rank))

/-- An instant is earlier than another one if its rank is less. -/
theorem lt_iff_rank {a b : Instant} : a < b ↔ a.rank < b.rank := .rfl

/-- An instant is not later than another one if its rank is not greater. -/
theorem le_iff_rank {a b : Instant} : a ≤ b ↔ a.rank ≤ b.rank := .rfl

/-- The rank determines the instant. -/
theorem rank_inj {a b : Instant} : a.rank = b.rank ↔ a = b := by
  refine ⟨fun h => ?_, fun h => h ▸ rfl⟩
  obtain ⟨⟨day, _, _⟩, second, nano, hs, hn⟩ := a
  obtain ⟨⟨day', _, _⟩, second', nano', hs', hn'⟩ := b
  simp only [rank] at h
  obtain ⟨hday, hsecond, hnano⟩ : day = day' ∧ second = second' ∧ nano = nano' := by omega
  subst hday hsecond hnano
  rfl

/-- Instants are ordered in a line. -/
theorem not_lt {a b : Instant} : ¬a < b ↔ b ≤ a := Int.not_lt

/-- What is not at or before an instant is after it, as the ranks are integers. -/
theorem not_le {a b : Instant} : ¬a ≤ b ↔ b < a := Int.not_le

/-- The hour of the day. -/
def hour (t : Instant) : Nat := t.second / 3600

/-- The start of a day. -/
def midnight (date : Date) : Instant := { date, second := 0, nano := 0 }

/-- The instant a number of whole hours after the start of a day. -/
def atHour (date : Date) (hours : Nat) : Except Fault Instant := do
  let date ← date.shift (hours / 24 : Nat)
  return { date, second := hours % 24 * 3600, nano := 0 }

/-- The instant a number of days later. Leaving a leap second drops it. -/
def addDays (t : Instant) (days : Nat) : Except Fault Instant := do
  let date ← t.date.shift days
  if days = 0 then return t
  return { date, second := t.second, nano := t.nano % 1000000000, second_lt := t.second_lt }

/-- The instant `seconds` after 1 January 1970, if the calendar has it. -/
def ofSeconds? (seconds : Int) : Option Instant :=
  (Date.ofDay? (seconds / 86400)).map fun date =>
    { date, second := (seconds % 86400).toNat, nano := 0 }

/-- The nanoseconds from `b` to `a`. A leap second counts where it lies wholly
between the two times of day. -/
def nanosSince (a b : Instant) : Int :=
  let leap : Int :=
    if b.second < a.second then (if 1000000000 ≤ b.nano then 1 else 0)
    else if a.second < b.second then (if 1000000000 ≤ a.nano then -1 else 0)
    else 0
  ((a.date.day - b.date.day) * 86400 + a.second - b.second + leap) * 1000000000 +
    a.nano - b.nano

end Instant

end Daybook
