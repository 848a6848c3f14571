import Daybook.Retrieval.Result

/-!
# Retrieval programs

A retrieval is a program that calls collaborators: an embedder, a store and a
reranker. The program is a tree. It is either done, or it issues one call and
goes on with the outcome of that call, which may be a failure.
-/

namespace Daybook

/-- What a program waits for. -/
inductive Stage where
  | embedding
  | vectorSearch
  | scheduleList
  | rerank
  deriving DecidableEq, Repr

/-- The name of a stage. -/
def Stage.name : Stage → String
  | embedding => "embedding"
  | vectorSearch => "vector-search"
  | scheduleList => "schedule-list"
  | rerank => "rerank"

/-- Why a retrieval has no results. -/
inductive RetrievalError where
  | queryTooLong (length limit : Nat)
  | invalidRange (error : RangeError)
  /-- The collaborator answered with an error. -/
  | provider (stage : Stage) (error : ProviderError)
  /-- The collaborator did not answer in time. -/
  | timeout (stage : Stage) (limitMs : Nat)
  /-- The caller gave up while the call was waited for, or before it. -/
  | cancelled (stage : Stage)
  /-- The latest start that a range may have lies beyond the calendar. -/
  | fault (fault : Fault)
  deriving DecidableEq

namespace RetrievalError

/-- The stage at which a collaborator call went wrong. -/
def stage? : RetrievalError → Option Stage
  | provider stage _ | timeout stage _ | cancelled stage => some stage
  | queryTooLong _ _ | invalidRange _ | fault _ => none

/-- Whether the caller gave up. -/
def isCancelled : RetrievalError → Bool
  | cancelled _ => true
  | _ => false

/-- The sentence that reports the error. -/
def message : RetrievalError → String
  | queryTooLong length limit =>
    "Query too long: " ++ Numeric.numeral length ++ " characters (max " ++
      Numeric.numeral limit ++ ")"
  | invalidRange error => "Invalid time range: " ++ error.message
  | provider stage error => stage.name ++ " failed: " ++ error.message
  | timeout stage limitMs => stage.name ++ " timed out after " ++ Numeric.numeral limitMs ++ "ms"
  | cancelled stage => stage.name ++ " cancelled"
  | fault _ => "time outside the calendar"

end RetrievalError

/-- A new score for one of the documents that were sent to the reranker. -/
structure RerankHit where
  index : Nat
  score : Score

/-- A call of a collaborator. -/
inductive Call where
  | embed (text : String)
  | vectorSearch (user : Int) (vector : List Score) (limit : Nat)
  | listSchedules (user : Int) (range : Option Range) (mode : MatchMode)
  | rerank (query : String) (documents : List String) (limit : Nat)

namespace Call

/-- The stage to which a call belongs. -/
def stage : Call → Stage
  | embed .. => .embedding
  | vectorSearch .. => .vectorSearch
  | listSchedules .. => .scheduleList
  | rerank .. => .rerank

/-- What a call is answered with. -/
abbrev Answer : Call → Type
  | embed .. => List Score
  | vectorSearch .. => List Hit
  | listSchedules .. => List Schedule
  | rerank .. => List RerankHit

end Call

/-- A computation that may call collaborators. -/
inductive Program (α : Type) : Type where
  | done (result : α)
  /-- Waits for the outcome of a call, at most `limitMs` milliseconds. -/
  | await (call : Call) (limitMs : Nat)
      (next : Except RetrievalError call.Answer → Program α)

namespace Program

/-- Runs a program and then another one on its result. -/
def bind {α β : Type} (p : Program α) (f : α → Program β) : Program β :=
  match p with
  | done a => f a
  | await call limitMs next => await call limitMs fun outcome => (next outcome).bind f

/-- Programs are put together one behind the other: what is done with the value of the first is put
behind each of its calls. -/
instance : Monad Program where
  pure := done
  bind := bind

/-- Running a program on the result of two programs in a row may be grouped either way. -/
theorem bind_assoc {α β γ : Type} (p : Program α) (f : α → Program β) (g : β → Program γ) :
    (p.bind f).bind g = p.bind fun a => (f a).bind g := by
  induction p with
  | done a => rfl
  | await call limitMs next ih => simp only [bind, ih]

/-- A program that only hands its result on does nothing. -/
theorem bind_done {α : Type} (p : Program α) : p.bind done = p := by
  induction p with
  | done a => rfl
  | await call limitMs next ih => simp only [bind, ih]

/-- Programs that come one behind the other may be grouped in any way, and one that only hands its
result on may be left out. -/
instance : LawfulMonad Program :=
  .mk' Program bind_done (fun _ _ => rfl) bind_assoc

end Program

/-- A retrieval: a program whose result may be an error. -/
abbrev Retrieval (α : Type) : Type := ExceptT RetrievalError Program α

namespace Retrieval

/-- The retrieval that issues one call. -/
def call (call : Call) (limitMs : Nat) : Retrieval call.Answer :=
  ExceptT.mk (.await call limitMs .done)

/-- The retrieval that has ended. -/
def ended {α : Type} (outcome : Except RetrievalError α) : Retrieval α := ExceptT.mk (.done outcome)

/-- Runs a retrieval and goes on with its outcome, even if that is an error. -/
def attempt {α : Type} (retrieval : Retrieval α) : Retrieval (Except RetrievalError α) :=
  ExceptT.lift (ExceptT.run retrieval)

end Retrieval

end Daybook
