import Daybook.Time.Range

/-!
# Notes and schedules

The two kinds of record that a daybook holds, each with its owner.
-/

namespace Daybook

/-- A free-form note. -/
structure Memo where
  id : Int
  creatorId : Int
  content : String
  createdAt : Instant
  deriving DecidableEq

/-- A calendar entry. -/
structure Schedule where
  id : Int
  creatorId : Int
  title : String
  description : String
  start : Instant
  /-- The end, if the schedule has one. -/
  stop : Option Instant
  deriving DecidableEq

/-- The end that range checks use: a schedule without end is a point in time. -/
def Schedule.effectiveEnd (s : Schedule) : Instant := s.stop.getD s.start

/-- A note or a schedule. -/
inductive Entity where
  | memo (memo : Memo)
  | schedule (schedule : Schedule)
  deriving DecidableEq

/-- Whether something is a note or a schedule. -/
inductive Kind where
  | memo
  | schedule
  deriving DecidableEq, Repr

/-- The name of a kind. -/
def Kind.name : Kind → String
  | memo => "memo"
  | schedule => "schedule"

namespace Entity

/-- The identifier of an entity. -/
def id : Entity → Int
  | memo m => m.id
  | schedule s => s.id

/-- The user to whom an entity belongs. -/
def owner : Entity → Int
  | memo m => m.creatorId
  | schedule s => s.creatorId

/-- The text by which an entity is shown and ranked. -/
def content : Entity → String
  | memo m => m.content
  | schedule s => s.title

/-- The kind of an entity. -/
def kind : Entity → Kind
  | memo _ => .memo
  | schedule _ => .schedule

/-- The schedule that an entity is, if it is one. -/
def schedule? : Entity → Option Schedule
  | memo _ => none
  | schedule s => some s

end Entity

end Daybook
