import Daybook.Settings.Error

/-!
# Overriding settings by variables

Eight settings can be overridden by variables of the environment. A variable
without the common front of their names, or with an unknown name, has no effect.
-/

namespace Daybook

/-- The settings that a variable can override. -/
inductive OverrideKey where
  | maxFutureDays
  | maxRangeDays
  | maxQueryLength
  | maxResults
  | minScore
  | enableReranker
  | callTimeoutMs
  | maxDocLength
  deriving DecidableEq, Repr

namespace OverrideKey

/-- All keys. -/
def all : List OverrideKey :=
  [maxFutureDays, maxRangeDays, maxQueryLength, maxResults, minScore, enableReranker,
    callTimeoutMs, maxDocLength]

/-- The part of a variable's name that all overrides share. -/
def commonFront : String := "RECALL_"

/-- The rest of the variable's name. -/
def name : OverrideKey → String
  | maxFutureDays => "TIME_RANGE__MAX_FUTURE_DAYS"
  | maxRangeDays => "TIME_RANGE__MAX_RANGE_DAYS"
  | maxQueryLength => "QUERY_LIMITS__MAX_QUERY_LENGTH"
  | maxResults => "QUERY_LIMITS__MAX_RESULTS"
  | minScore => "QUERY_LIMITS__MIN_SCORE"
  | enableReranker => "RETRIEVAL__ENABLE_RERANKER"
  | callTimeoutMs => "RETRIEVAL__CALL_TIMEOUT_MS"
  | maxDocLength => "RETRIEVAL__MAX_DOC_LENGTH"

/-- The whole name of the variable. -/
def variableName (key : OverrideKey) : String := commonFront ++ key.name

/-- The key that a variable overrides, if it overrides one. -/
def ofVariable? (name : String) : Option OverrideKey := all.find? (·.variableName == name)

end OverrideKey

namespace Settings

/-- Reads a natural number below a bound: digits, after a plus sign or not. -/
def readNat? (bound : Nat) (cs : List Char) : Option Nat :=
  let ds :=
    match cs with
    | '+' :: ds => ds
    | ds => ds
  let n := Numeric.ofDigits ds
  if !ds.isEmpty && ds.all Char.isDigit && n < bound then some n else none

/-- Reads one of the two words for a truth value. -/
def readBool? (cs : List Char) : Option Bool :=
  if cs == "true".toList then some true else if cs == "false".toList then some false else none

/-- The settings with one value replaced by what a text says; none if the text
cannot be read. Blanks around it do not count. -/
def override? (s : Settings) (key : OverrideKey) (value : String) : Option Settings :=
  let cs := Text.trim value.toList
  match key with
  | .maxFutureDays =>
    (readNat? UInt32.size cs).map fun n => { s with timeRange.maxFutureDays := n }
  | .maxRangeDays => (readNat? UInt32.size cs).map fun n => { s with timeRange.maxRangeDays := n }
  | .maxQueryLength =>
    (readNat? UInt64.size cs).map fun n => { s with queryLimits.maxQueryLength := n }
  | .maxResults => (readNat? UInt64.size cs).map fun n => { s with queryLimits.maxResults := n }
  | .minScore => (Score.read? cs).map fun x => { s with queryLimits.minScore := x }
  | .enableReranker => (readBool? cs).map fun b => { s with retrieval.enableReranker := b }
  | .callTimeoutMs => (readNat? UInt64.size cs).map fun n => { s with retrieval.callTimeoutMs := n }
  | .maxDocLength => (readNat? UInt64.size cs).map fun n => { s with retrieval.maxDocLength := n }

/-- Applies variables in order, up to the first value that cannot be read: the
settings so far, and the error if there is one. -/
def applyOverrides (s : Settings) : List (String × String) → Settings × Option SettingsError
  | [] => (s, none)
  | (name, value) :: environment =>
    match OverrideKey.ofVariable? name with
    | none => s.applyOverrides environment
    | some key =>
      match s.override? key value with
      | none => (s, some (.badValue key.name value))
      | some changed => changed.applyOverrides environment

/-- The settings after some variables have been applied and everything has been
checked. -/
def finish (s : Settings) (environment : List (String × String)) : Except SettingsError Settings :=
  match s.applyOverrides environment with
  | (_, some error) => .error error
  | (changed, none) => changed.validate.map fun _ => changed

end Settings

end Daybook
