import Daybook.Retrieval.Program

/-!
# Running retrieval programs

A program runs in virtual time, in milliseconds. A collaborator answers a call
after a delay or never. A call ends when it is answered, when its time limit is
over, or when the caller cancels, whichever comes first; after a cancellation no
call is started.
-/

namespace Daybook

/-- What a collaborator does with a call. -/
structure Reply (α : Type) where
  /-- Milliseconds until the answer; none if there never is one. -/
  delay : Option Nat
  outcome : Except ProviderError α

/-- What the collaborators do with a call, given the calls started before it. -/
abbrev Collaborators := List Call → (call : Call) → Reply call.Answer

/-- How a call ended. -/
structure Ending (call : Call) where
  finish : Nat
  /-- Whether the call was started; it is not if the caller has cancelled before. -/
  started : Bool
  outcome : Except RetrievalError call.Answer

/-- A call that a run has issued, when it was issued and how it ended. -/
structure Step where
  call : Call
  start : Nat
  ending : Ending call

/-- The calls that were started, in order. -/
def Step.startedCalls (steps : List Step) : List Call :=
  (steps.filter (·.ending.started)).map (·.call)

/-- How a run went. -/
structure Outcome (α : Type) where
  result : α
  /-- The calls that were issued, in order. -/
  steps : List Step
  /-- When the run ended. -/
  finish : Nat

/-- The calls that a run has started, in order. -/
def Outcome.calls {α : Type} (outcome : Outcome α) : List Call := Step.startedCalls outcome.steps

namespace Reply

/-- When and how a call ends that is started at `time` with a time limit, if
nobody cancels it. -/
def settle {α : Type} (reply : Reply α) (stage : Stage) (limitMs time : Nat) :
    Nat × Except RetrievalError α :=
  match reply.delay.filter (· ≤ limitMs) with
  | some delay => (time + delay, reply.outcome.mapError (.provider stage))
  | none => (time + limitMs, .error (.timeout stage limitMs))

/-- As `settle`, for a caller who cancels at a given time. -/
def settleBefore {α : Type} (reply : Reply α) (stage : Stage) (limitMs time : Nat)
    (cancelAt : Option Nat) : Nat × Except RetrievalError α :=
  let settled := reply.settle stage limitMs time
  match cancelAt.filter (· < settled.1) with
  | some cancelled => (cancelled, .error (.cancelled stage))
  | none => settled

end Reply

/-- How a call ends that is issued at `time`, after some calls that were started. -/
def Call.ending (call : Call) (world : Collaborators) (cancelAt : Option Nat) (limitMs time : Nat)
    (past : List Call) : Ending call :=
  if cancelAt.any (· ≤ time) then ⟨time, false, .error (.cancelled call.stage)⟩
  else
    let (finish, outcome) := (world past call).settleBefore call.stage limitMs time cancelAt
    ⟨finish, true, outcome⟩

/-- Runs a program from a time on, after some steps. -/
def Program.runFrom {α : Type} (world : Collaborators) (cancelAt : Option Nat) (time : Nat)
    (past : List Step) : Program α → Outcome α
  | .done result => ⟨result, past, time⟩
  | .await call limitMs next =>
    let ending := call.ending world cancelAt limitMs time (Step.startedCalls past)
    (next ending.outcome).runFrom world cancelAt ending.finish (past ++ [⟨call, time, ending⟩])

/-- Runs a retrieval from the start. -/
def Retrieval.run {α : Type} (retrieval : Retrieval α) (world : Collaborators)
    (cancelAt : Option Nat) : Outcome (Except RetrievalError α) :=
  Program.runFrom world cancelAt 0 [] (ExceptT.run retrieval)

end Daybook
