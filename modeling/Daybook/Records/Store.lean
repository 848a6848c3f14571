import Daybook.Records.Basic
import Daybook.Records.Similarity
import Daybook.Time.Resolution

/-!
# The store

The records of all users in the order in which they were added. Schedules are
listed by start, and records with a vector are found by its similarity to another
vector.
-/

namespace Daybook

/-- Why a collaborator did not answer a call. -/
inductive ProviderError where
  | unavailable (message : String)
  | failed (message : String)
  | invalidInput (message : String)
  deriving DecidableEq, Repr

/-- The sentence that reports the error. -/
def ProviderError.message : ProviderError → String
  | unavailable message => "Provider unavailable: " ++ message
  | failed message => "Provider call failed: " ++ message
  | invalidInput message => "Invalid input: " ++ message

/-- An entity that a search has found, with its score. -/
structure Hit where
  entity : Entity
  score : Score

/-- A stored entity, with the vector of its content if it has one. -/
structure Record where
  entity : Entity
  vector : Option (List Score)

/-- The records in the order in which they were added. -/
structure Store where
  records : List Record := []

namespace Store

/-- The number of records. -/
def size (store : Store) : Nat := store.records.length

/-- Whether there are no records. -/
def isEmpty (store : Store) : Bool := store.size == 0

/-- Adds an entity at the end. -/
def insert (store : Store) (entity : Entity) (vector : Option (List Score)) : Store :=
  ⟨store.records ++ [⟨entity, vector⟩]⟩

/-- Adds a note with its vector. -/
def addMemo (store : Store) (memo : Memo) (vector : List Score) : Store :=
  store.insert (.memo memo) (some vector)

/-- Adds a schedule, which searches find if it has a vector. -/
def addSchedule (store : Store) (schedule : Schedule) (vector : Option (List Score)) : Store :=
  store.insert (.schedule schedule) vector

/-- The records of one user. -/
def ownedBy (store : Store) (user : Int) : List Record :=
  store.records.filter (·.entity.owner == user)

/-- Whether a schedule matches a range. In strict mode it lies in the range; in
the other modes it overlaps it, or starts in it if it has no end. -/
def isMatch (schedule : Schedule) (range : Range) (mode : MatchMode) : Bool :=
  match mode, schedule.stop with
  | .strict, _ => range.contains schedule.start && decide (schedule.effectiveEnd ≤ range.stop)
  | _, none => range.contains schedule.start
  | _, some stop => decide (schedule.start < range.stop) && decide (range.start < stop)

/-- The order of listings: by start, then by identifier. -/
def listedBefore (a b : Schedule) : Bool :=
  decide (a.start < b.start) || (a.start == b.start && decide (a.id ≤ b.id))

/-- The schedules of a user that match a range, or all of them. -/
def schedules (store : Store) (user : Int) (range : Option Range) (mode : MatchMode) :
    List Schedule :=
  let owned := (store.ownedBy user).filterMap (·.entity.schedule?)
  (owned.filter fun s => range.all fun r => isMatch s r mode).mergeSort listedBefore

/-- The similarity of a record to a query vector, if the record has a vector. It
is an error if that vector has another number of coordinates. -/
def scoreRecord (query : List Score) (record : Record) : Except ProviderError (Option Hit) :=
  match record.vector with
  | none => .ok none
  | some vector =>
    if vector.length = query.length then .ok (some ⟨record.entity, Score.cosine query vector⟩)
    else
      .error (.invalidInput
        ("Dimension mismatch: expected " ++ Numeric.numeral vector.length ++ ", got " ++
          Numeric.numeral query.length))

/-- The records of a user that are most similar to a query vector, at most
`limit` of them, the best first. -/
def search (store : Store) (user : Int) (query : List Score) (limit : Nat) :
    Except ProviderError (List Hit) := do
  if query.isEmpty then throw (.invalidInput "Empty query vector")
  let scored ← (store.ownedBy user).mapM (scoreRecord query)
  return (Score.rank Hit.score (scored.filterMap id)).take limit

end Store

end Daybook
