import Daybook.Calendar.Timestamp
import Daybook.Settings.Basic

/-!
# Time ranges

A time range is a half-open interval of instants with a label. Any two instants
make a range; it is well formed when it ends after it starts, and acceptable when
it also starts soon enough and is short enough.
-/

namespace Daybook

/-- The instants from `start` up to, and without, `stop`. -/
structure Range where
  start : Instant
  stop : Instant
  label : String
  deriving DecidableEq

/-- Why a range is not acceptable. -/
inductive RangeError where
  /-- The range ends at or before its start. -/
  | notAfterStart (start stop : Instant)
  /-- The range starts later than the limit allows. -/
  | tooFarAhead (start : Instant) (limit : Nat)
  /-- The range spans more days than the limit. -/
  | tooLong (days : Int) (limit : Nat)
  deriving DecidableEq

/-- The sentence that reports the error. -/
def RangeError.message : RangeError → String
  | .notAfterStart start stop =>
    "end (" ++ stop.sentenceForm ++ ") is not after start (" ++ start.sentenceForm ++ ")"
  | .tooFarAhead start limit =>
    "start (" ++ start.sentenceForm ++ ") is more than " ++ Numeric.numeral limit ++
      " days in the future"
  | .tooLong days limit =>
    "span of " ++ Numeric.signedNumeral days ++ " days exceeds the limit of " ++
      Numeric.numeral limit ++ " days"

namespace Range

/-- Whether the range ends after it starts. -/
def isWellFormed (r : Range) : Bool := decide (r.start < r.stop)

/-- A range that ends after it starts. -/
def make? (start stop : Instant) (label : String) : Option Range :=
  if start < stop then some ⟨start, stop, label⟩ else none

/-- Whether an instant lies in the range. -/
def contains (r : Range) (t : Instant) : Bool := decide (r.start ≤ t) && decide (t < r.stop)

/-- The length of the range in nanoseconds. -/
def nanoseconds (r : Range) : Int := r.stop.nanosSince r.start

/-- The length of the range in whole milliseconds, toward zero. -/
def milliseconds (r : Range) : Int := r.nanoseconds.tdiv 1000000

/-- The length of the range in whole days, toward zero. -/
def days (r : Range) : Int := r.nanoseconds.tdiv 86400000000000

/-- The first error of a range against limits counted from `now`; none if it is
acceptable. It is a fault if the latest start lies beyond the calendar. -/
def error? (r : Range) (now : Instant) (limits : Settings.TimeLimits) :
    Except Fault (Option RangeError) := do
  if !r.isWellFormed then return some (.notAfterStart r.start r.stop)
  let latest ← now.addDays limits.maxFutureDays
  if latest < r.start then return some (.tooFarAhead r.start limits.maxFutureDays)
  if (limits.maxRangeDays : Int) * 86400000000000 < r.nanoseconds then
    return some (.tooLong r.days limits.maxRangeDays)
  return none

/-- The label with both ends of the range. -/
def text (r : Range) : String :=
  r.label ++ " [" ++ r.start.offsetForm ++ " .. " ++ r.stop.offsetForm ++ ")"

end Range

end Daybook
