import Daybook.Retrieval.Service

/-!
# Sessions

In a session any number of requests are answered at a time, under settings that
may be replaced meanwhile. Settings are reached through handles, which can be
copied; a copy leads to the same settings. Requests may start, calls may end and
settings may be replaced in any order.
-/

namespace Daybook

/-- How a call ends, whichever call it is. -/
abbrev Completion := (call : Call) → Except RetrievalError call.Answer

namespace Program

/-- What is left of a program when the call that it waits for ends. -/
def resume {α : Type} (completion : Completion) : Program α → Program α
  | done result => done result
  | await call _ next => next (completion call)

/-- What is left of a program when the calls that it waits for end one after the other. -/
def resumeAll {α : Type} (completions : List Completion) (program : Program α) : Program α :=
  completions.foldl (fun program completion => program.resume completion) program

end Program

/-- A request that has started. -/
structure Flight where
  /-- The snapshot under which the request is answered. -/
  settings : Settings
  /-- What is left of its program. -/
  program : Program (Except RetrievalError (List SearchResult))

/-- The shared settings of a program, and the requests that have started. -/
structure Session where
  /-- Shared settings, one cell for each handle that is not a copy. -/
  cells : List SharedSettings := []
  /-- The cell to which each handle leads. -/
  handles : List Nat := []
  /-- The snapshots that were taken without a request. -/
  snapshots : List Settings := []
  /-- The requests that have started, in order. -/
  flights : List Flight := []

namespace Session

/-- What happens in a session. -/
inductive Event where
  /-- Settings are taken into use under a new handle. -/
  | make (settings : Settings)
  /-- The default settings are taken into use under a new handle. -/
  | makeDefault (timestamp : String)
  /-- A handle is copied. -/
  | copy (handle : Nat)
  /-- Settings are offered in place of those to which a handle leads. -/
  | update (handle : Nat) (settings : Settings)
  /-- A snapshot is taken. -/
  | snapshot (handle : Nat)
  /-- A request starts at a time, with or without a reranker. -/
  | start (handle : Nat) (rerankerReady : Bool) (request : Request) (now : Instant)
  /-- The call ends that the request at a position waits for. -/
  | resume (index : Nat) (completion : Completion)

/-- The shared settings to which a handle leads. -/
def shared? (session : Session) (handle : Nat) : Option SharedSettings := do
  session.cells[← session.handles[handle]?]?

/-- The settings in use to which a handle leads. -/
def current? (session : Session) (handle : Nat) : Option Settings :=
  (session.shared? handle).map (·.snapshot)

/-- The session with shared settings under a new handle. -/
def make (session : Session) (shared : SharedSettings) : Session :=
  { session with
    cells := session.cells ++ [shared]
    handles := session.handles ++ [session.cells.length] }

/-- The session with other settings in use where a handle leads, if they are
valid; else with the error. -/
def update (session : Session) (handle : Nat) (settings : Settings) :
    Session × Option SettingsError :=
  match session.handles[handle]?, session.shared? handle with
  | some cell, some shared =>
    let (shared, error) := shared.update settings
    ({ session with cells := session.cells.set cell shared }, error)
  | _, _ => (session, none)

/-- The session with one more request, answered by a service. -/
def start (session : Session) (service : Service) (request : Request) (now : Instant) : Session :=
  let flight : Flight := ⟨service.shared.snapshot, ExceptT.run (service.retrieve request now)⟩
  { session with flights := session.flights ++ [flight] }

/-- The session after an event. Nothing happens through a handle that there is not. -/
def step (session : Session) : Event → Session
  | .make settings =>
    match SharedSettings.make? settings with
    | .ok shared => session.make shared
    | .error _ => session
  | .makeDefault timestamp => session.make (SharedSettings.default timestamp)
  | .copy handle => { session with handles := session.handles ++ session.handles[handle]?.toList }
  | .update handle settings => (session.update handle settings).1
  | .snapshot handle =>
    { session with snapshots := session.snapshots ++ (session.current? handle).toList }
  | .start handle rerankerReady request now =>
    match session.shared? handle with
    | some shared => session.start ⟨shared, rerankerReady⟩ request now
    | none => session
  | .resume index completion =>
    { session with
      flights := session.flights.modify index fun flight =>
        { flight with program := flight.program.resume completion } }

/-- The session after some events in order. -/
def run (session : Session) (events : List Event) : Session := events.foldl step session

end Session

end Daybook
