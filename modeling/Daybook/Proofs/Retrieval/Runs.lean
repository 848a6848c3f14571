import Daybook.Retrieval.Run
import Mathlib.Data.List.Chain

/-!
# Runs of retrieval programs

A retrieval is sequential if it goes on after an answer only, and otherwise ends
with the error of the call that failed. The one exception is the reranker, whose
failures may be answered with other results as long as nobody has cancelled.
Every run of a sequential retrieval is then a sequence of answered calls, with at
most one failed call at its end.
-/

namespace Daybook

namespace Reply

variable {α : Type} (reply : Reply α) (stage : Stage) (limitMs time : Nat)

/-- No call ends before it is started. -/
theorem le_settle : time ≤ (reply.settle stage limitMs time).1 := by
  unfold settle
  split <;> simp

/-- The error of a call that nobody cancels names its stage. -/
theorem stage?_of_settle {error : RetrievalError}
    (herror : (reply.settle stage limitMs time).2 = .error error) :
    error.stage? = some stage := by
  unfold settle at herror
  split at herror
  · cases hreply : reply.outcome with
    | ok answer => simp [hreply, Except.mapError] at herror
    | error e =>
      simp only [hreply, Except.mapError, Except.error.injEq] at herror
      rw [← herror]
      rfl
  · cases herror
    rfl

/-- A cancellation counts if it comes before the call would end. -/
theorem settleBefore_some (instant : Nat) :
    reply.settleBefore stage limitMs time (some instant) =
      if instant < (reply.settle stage limitMs time).1
      then (instant, .error (.cancelled stage))
      else reply.settle stage limitMs time := by
  unfold settleBefore
  by_cases h : instant < (reply.settle stage limitMs time).1 <;> simp [Option.filter_some, h]

end Reply

namespace Call

variable {call : Call} {world : Collaborators} {cancelAt : Option Nat} {limitMs time : Nat}
  {past : List Call}

/-- Without a cancellation, a call is started and ends as its reply says. -/
theorem ending_none : call.ending world none limitMs time past =
    ⟨((world past call).settle call.stage limitMs time).1, true,
      ((world past call).settle call.stage limitMs time).2⟩ := rfl

/-- A call that is issued after the cancellation is not started. -/
theorem ending_of_le {instant : Nat} (hinstant : instant ≤ time) :
    call.ending world (some instant) limitMs time past =
      ⟨time, false, .error (.cancelled call.stage)⟩ := by
  simp [ending, hinstant]

/-- A cancellation while a call is waited for ends it. -/
theorem ending_of_lt_of_lt {instant : Nat} (hstart : time < instant)
    (hfinish : instant < (call.ending world none limitMs time past).finish) :
    call.ending world (some instant) limitMs time past =
      ⟨instant, true, .error (.cancelled call.stage)⟩ := by
  rw [ending_none] at hfinish
  simp [ending, Reply.settleBefore_some, Nat.not_le.mpr hstart, hfinish]

/-- A cancellation that comes after the end of a call does not change how it ends. -/
theorem ending_of_finish_lt {instant : Nat}
    (hfinish : (call.ending world none limitMs time past).finish < instant) :
    call.ending world (some instant) limitMs time past =
      call.ending world none limitMs time past := by
  rw [ending_none] at hfinish ⊢
  have hissued := (world past call).le_settle call.stage limitMs time
  have hlate : ¬instant ≤ time := by dsimp only at hfinish; omega
  have hsettled : ¬instant < ((world past call).settle call.stage limitMs time).1 := by
    dsimp only at hfinish
    omega
  simp [ending, Reply.settleBefore_some, hlate, hsettled]

/-- Only a call that was started is answered. -/
theorem started_of_ending {answer : call.Answer}
    (hanswer : (call.ending world cancelAt limitMs time past).outcome = .ok answer) :
    (call.ending world cancelAt limitMs time past).started = true := by
  unfold ending at hanswer ⊢
  split
  · rename_i hlate
    rw [if_pos hlate] at hanswer
    cases hanswer
  · rfl

/-- The error of a call that failed names its stage. -/
theorem stage?_of_ending {error : RetrievalError}
    (herror : (call.ending world cancelAt limitMs time past).outcome = .error error) :
    error.stage? = some call.stage := by
  cases cancelAt with
  | none => exact Reply.stage?_of_settle _ _ _ _ herror
  | some instant =>
    by_cases hlate : instant ≤ time
    · rw [ending_of_le hlate] at herror
      cases herror
      rfl
    · simp only [ending, Option.any_some, decide_eq_true_eq, hlate, if_false,
        Reply.settleBefore_some] at herror
      split at herror
      · cases herror
        rfl
      · exact Reply.stage?_of_settle _ _ _ _ herror

end Call

namespace Retrieval

variable {α β : Type}

/-- A retrieval that issues a call goes on with the answer and ends with an error. -/
theorem run_call_bind (c : Call) (limitMs : Nat) (f : c.Answer → Retrieval α) :
    ExceptT.run (call c limitMs >>= f) =
      .await c limitMs fun
        | .ok answer => ExceptT.run (f answer)
        | .error error => .done (.error error) := by
  change Program.await c limitMs _ = _
  congr 1
  funext outcome
  cases outcome <;> rfl

/-- A retrieval that attempts a call goes on with its outcome. -/
theorem run_attempt_bind (c : Call) (limitMs : Nat)
    (f : Except RetrievalError c.Answer → Retrieval α) :
    ExceptT.run (attempt (call c limitMs) >>= f) =
      .await c limitMs fun outcome => ExceptT.run (f outcome) := rfl

/-- A check that is passed leaves what comes after it. -/
@[simp] theorem ended_ok_bind (a : α) (f : α → Retrieval β) : (ended (.ok a) >>= f) = f a := rfl

/-- A check that fails ends the retrieval. -/
@[simp] theorem ended_error_bind (error : RetrievalError) (f : α → Retrieval β) :
    (ended (.error error) >>= f) = ended (.error error) := rfl

end Retrieval

/-- However the calls of a program end, `φ` holds of its steps and its result. -/
def Program.Always {α : Type} (φ : List Step → α → Prop) : Program α → Prop
  | .done result => φ [] result
  | .await call _ next => ∀ (start : Nat) (ending : Ending call),
      (next ending.outcome).Always fun steps => φ (⟨call, start, ending⟩ :: steps)

/-- What always holds does so after a run in virtual time. -/
theorem Program.Always.runFrom {α : Type} {p : Program α} {φ : List Step → α → Prop}
    (past : List Step) (hp : p.Always fun steps => φ (past ++ steps)) (world : Collaborators)
    (cancelAt : Option Nat) (time : Nat) :
    φ (p.runFrom world cancelAt time past).steps (p.runFrom world cancelAt time past).result := by
  induction p generalizing time past with
  | done result => simpa [Program.runFrom, Program.Always] using hp
  | await call limitMs next ih =>
    let ending := call.ending world cancelAt limitMs time (Step.startedCalls past)
    refine ih ending.outcome (past ++ [⟨call, time, ending⟩]) ?_ ending.finish
    simpa only [List.append_assoc, List.singleton_append] using hp time ending

namespace Retrieval

variable {α : Type}

/-- However the calls of a retrieval end, `φ` holds of its steps and its result. -/
def Always (φ : List Step → Except RetrievalError α → Prop) (retrieval : Retrieval α) : Prop :=
  (ExceptT.run retrieval).Always φ

variable {φ : List Step → Except RetrievalError α → Prop}

/-- What always holds does so after a run from the start. -/
theorem Always.run {retrieval : Retrieval α} (h : retrieval.Always φ) (world : Collaborators)
    (cancelAt : Option Nat) :
    φ (retrieval.run world cancelAt).steps (retrieval.run world cancelAt).result :=
  Program.Always.runFrom [] h world cancelAt 0

/-- A retrieval that has ended makes no calls, so that its runs are its outcome. -/
theorem always_ended {outcome : Except RetrievalError α} (h : φ [] outcome) :
    (ended outcome).Always φ := h

/-- A call either fails, which ends the retrieval, or leaves the rest to do. -/
theorem always_call_bind {c : Call} {limitMs : Nat} {f : c.Answer → Retrieval α}
    (hfailed : ∀ start (ending : Ending c) error, ending.outcome = .error error →
      φ [⟨c, start, ending⟩] (.error error))
    (hanswer : ∀ start (ending : Ending c) answer, ending.outcome = .ok answer →
      (f answer).Always fun steps => φ (⟨c, start, ending⟩ :: steps)) :
    (call c limitMs >>= f).Always φ := by
  unfold Always
  rw [run_call_bind]
  intro start ending
  cases houtcome : ending.outcome with
  | ok answer => exact hanswer start ending answer houtcome
  | error error => exact hfailed start ending error houtcome

/-- A call that is attempted leaves the rest to do, whatever its outcome. -/
theorem always_attempt_bind {c : Call} {limitMs : Nat}
    {f : Except RetrievalError c.Answer → Retrieval α}
    (h : ∀ start (ending : Ending c),
      (f ending.outcome).Always fun steps => φ (⟨c, start, ending⟩ :: steps)) :
    (attempt (call c limitMs) >>= f).Always φ :=
  h

end Retrieval

/-- A collaborator answers a call in time, whichever calls were made before. -/
def Call.AnsweredBy (call : Call) (world : Collaborators) (limitMs : Nat)
    (answer : call.Answer) : Prop :=
  ∀ past, ∃ delay, delay ≤ limitMs ∧ world past call = ⟨some delay, .ok answer⟩

/-- A call that nobody cancels ends with its answer if that comes in time. -/
theorem Call.AnsweredBy.outcome_ending {call : Call} {world : Collaborators} {limitMs : Nat}
    {answer : call.Answer} (h : call.AnsweredBy world limitMs answer) (time : Nat)
    (past : List Call) : (call.ending world none limitMs time past).outcome = .ok answer := by
  obtain ⟨delay, hdelay, hreply⟩ := h past
  rw [ending_none]
  simp [hreply, Reply.settle, Option.filter_some, hdelay, Except.mapError]

/-- Without a cancellation, a retrieval has a result, whenever it starts. -/
def Retrieval.Yields {α : Type} (retrieval : Retrieval α) (world : Collaborators)
    (result : Except RetrievalError α) : Prop :=
  ∀ time past, (Program.runFrom world none time past (ExceptT.run retrieval)).result = result

namespace Retrieval

variable {α : Type} {world : Collaborators} {result : Except RetrievalError α}

/-- What a retrieval yields is the result of its run without a cancellation. -/
theorem Yields.run {retrieval : Retrieval α} (h : retrieval.Yields world result) :
    (retrieval.run world none).result = result :=
  h 0 []

/-- A program that is done yields its value. -/
theorem yields_pure (a : α) : (pure a : Retrieval α).Yields world (.ok a) := fun _ _ => rfl

/-- A call that is answered leaves the rest to do. -/
theorem yields_call_bind {c : Call} {limitMs : Nat} {answer : c.Answer}
    {f : c.Answer → Retrieval α} (hanswer : c.AnsweredBy world limitMs answer)
    (hf : (f answer).Yields world result) : (call c limitMs >>= f).Yields world result := by
  intro time past
  rw [run_call_bind, Program.runFrom]
  simp only [hanswer.outcome_ending]
  exact hf _ _

end Retrieval

/-- A sequential retrieval goes on after an answer and ends with the error of a call
that failed, unless that call was one of the reranker and was not cancelled. -/
def Program.Sequential {α : Type} : Program (Except RetrievalError α) → Prop
  | .done result => ∀ error, result = .error error → error.stage? = none
  | .await call _ next =>
    (∀ answer, (next (.ok answer)).Sequential) ∧
    ∀ error, error.stage? = some call.stage →
      if call.stage = .rerank ∧ error.isCancelled = false
      then ∃ a, next (.error error) = .done (.ok a)
      else next (.error error) = .done (.error error)

/-- A sequential program ends after a call that failed. -/
theorem Program.Sequential.next_error {α : Type} {call : Call} {limitMs : Nat}
    {next : Except RetrievalError call.Answer → Program (Except RetrievalError α)}
    (hp : (Program.await call limitMs next).Sequential) {error : RetrievalError}
    (hstage : error.stage? = some call.stage) : ∃ result, next (.error error) = .done result := by
  have hfail := hp.2 error hstage
  split at hfail
  · obtain ⟨a, ha⟩ := hfail
    exact ⟨.ok a, ha⟩
  · exact ⟨.error error, hfail⟩

/-- The steps and the result of a sequential run from a time on. -/
inductive Step.Sequence {α : Type} : Nat → List Step → Except RetrievalError α → Prop
  /-- Nothing is left to call, and no call is to blame for an error. -/
  | ended {time : Nat} {result : Except RetrievalError α}
      (hstage : ∀ error, result = .error error → error.stage? = none) : Sequence time [] result
  /-- The last call failed, and the result is its error. -/
  | failed {step : Step} {error : RetrievalError} (hfailed : step.ending.outcome = .error error)
      (hstage : error.stage? = some step.call.stage)
      (hrerank : step.call.stage = .rerank → error.isCancelled = true) :
      Sequence step.start [step] (.error error)
  /-- The last call was one of the reranker and failed, and there are results without it. -/
  | replaced {step : Step} {error : RetrievalError} {a : α}
      (hfailed : step.ending.outcome = .error error) (hrerank : step.call.stage = .rerank) :
      Sequence step.start [step] (.ok a)
  /-- A call was answered, and the rest begins when it ended. -/
  | answered {step : Step} {answer : step.call.Answer} {steps : List Step}
      {result : Except RetrievalError α} (hanswer : step.ending.outcome = .ok answer)
      (hstarted : step.ending.started = true) (hrest : Sequence step.ending.finish steps result) :
      Sequence step.start (step :: steps) result

/-- Every run of a sequential retrieval is a sequence of answered calls with at most
one failed call at its end. -/
theorem Program.Sequential.runFrom {α : Type} {p : Program (Except RetrievalError α)}
    (hp : p.Sequential) (world : Collaborators) (cancelAt : Option Nat) (time : Nat)
    (past : List Step) :
    ∃ steps, (p.runFrom world cancelAt time past).steps = past ++ steps ∧
      Step.Sequence time steps (p.runFrom world cancelAt time past).result := by
  induction p generalizing time past with
  | done result => exact ⟨[], by simp [Program.runFrom], .ended hp⟩
  | await call limitMs next ih =>
    obtain ⟨hnext, hfail⟩ := hp
    let ending := call.ending world cancelAt limitMs time (Step.startedCalls past)
    let step : Step := ⟨call, time, ending⟩
    have hrun : (Program.await call limitMs next).runFrom world cancelAt time past =
      (next step.ending.outcome).runFrom world cancelAt ending.finish (past ++ [step]) := rfl
    rw [hrun]
    cases houtcome : step.ending.outcome with
    | ok answer =>
      obtain ⟨steps, hsteps, hsequence⟩ :=
        ih (.ok answer) (hnext answer) ending.finish (past ++ [step])
      refine ⟨step :: steps, by simp [hsteps], ?_⟩
      exact .answered houtcome (Call.started_of_ending houtcome) hsequence
    | error error =>
      have hstage : error.stage? = some call.stage := Call.stage?_of_ending houtcome
      have hlast := hfail error hstage
      refine ⟨[step], ?_⟩
      by_cases hreplaced : call.stage = .rerank ∧ error.isCancelled = false
      · rw [if_pos hreplaced] at hlast
        obtain ⟨a, ha⟩ := hlast
        rw [ha]
        exact ⟨rfl, .replaced houtcome hreplaced.1⟩
      · rw [if_neg hreplaced] at hlast
        rw [hlast]
        refine ⟨rfl, .failed houtcome hstage fun hrerank => ?_⟩
        cases hcancelled : error.isCancelled with
        | true => rfl
        | false => exact absurd ⟨hrerank, hcancelled⟩ hreplaced

namespace Retrieval

variable {α : Type}

/-- A retrieval whose program is sequential. -/
def Sequential (retrieval : Retrieval α) : Prop := (ExceptT.run retrieval).Sequential

/-- A retrieval that has ended is sequential if no call is to blame for its error. -/
theorem sequential_ended {outcome : Except RetrievalError α}
    (h : ∀ error, outcome = .error error → error.stage? = none) : (ended outcome).Sequential := h

/-- A program that is done issues no calls out of turn. -/
theorem sequential_pure (a : α) : (pure a : Retrieval α).Sequential := by
  intro error h
  cases h

/-- A check before a sequential rest, if no call is to blame when it fails. -/
theorem sequential_ended_bind {β : Type} {outcome : Except RetrievalError β}
    {f : β → Retrieval α} (hstage : ∀ error, outcome = .error error → error.stage? = none)
    (hf : ∀ b, (f b).Sequential) : (ended outcome >>= f).Sequential := by
  cases outcome with
  | ok b => exact hf b
  | error error =>
    rw [ended_error_bind]
    apply sequential_ended
    rintro _ ⟨⟩
    exact hstage error rfl

/-- A call of another collaborator than the reranker, before a sequential rest. -/
theorem sequential_call_bind {c : Call} {limitMs : Nat} {f : c.Answer → Retrieval α}
    (hstage : c.stage ≠ .rerank) (hf : ∀ answer, (f answer).Sequential) :
    (call c limitMs >>= f).Sequential := by
  unfold Sequential
  rw [run_call_bind]
  refine ⟨hf, fun error _ => ?_⟩
  rw [if_neg fun h => hstage h.1]

/-- A call of the reranker, before a rest that ends with a cancellation and
otherwise has other results. -/
theorem sequential_attempt_bind {c : Call} {limitMs : Nat}
    {f : Except RetrievalError c.Answer → Retrieval α} (hstage : c.stage = .rerank)
    (hanswer : ∀ answer, (f (.ok answer)).Sequential)
    (hcancelled : ∀ error, error.isCancelled = true → f (.error error) = ended (.error error))
    (hfailed : ∀ error, error.isCancelled = false → ∃ a, f (.error error) = pure a) :
    (attempt (call c limitMs) >>= f).Sequential := by
  unfold Sequential
  rw [run_attempt_bind]
  refine ⟨hanswer, fun error _ => ?_⟩
  cases herror : error.isCancelled with
  | true =>
    rw [if_neg (by simp)]
    exact congrArg ExceptT.run (hcancelled error herror)
  | false =>
    obtain ⟨a, ha⟩ := hfailed error herror
    rw [if_pos ⟨hstage, rfl⟩]
    exact ⟨a, congrArg ExceptT.run ha⟩

end Retrieval

namespace Step

/-- Whether a call was answered. -/
def isAnswered (step : Step) : Bool := step.ending.outcome.isOk

namespace Sequence

variable {α : Type} {time : Nat} {steps : List Step} {result : Except RetrievalError α}

/-- The first call of a sequence is issued at its start. -/
theorem start_of_head? (h : Sequence time steps result) {step : Step}
    (hstep : steps.head? = some step) : step.start = time := by
  cases h <;> simp_all

/-- A call is issued when the one before it has been answered, and not earlier. -/
theorem isChain (h : Sequence time steps result) :
    steps.IsChain fun a b => a.isAnswered = true ∧ a.ending.finish = b.start := by
  induction h with
  | ended _ => exact .nil
  | failed _ _ _ => exact .singleton _
  | replaced _ _ => exact .singleton _
  | @answered step answer steps result hanswer _ hrest ih =>
    cases steps with
    | nil => exact .singleton _
    | cons next steps =>
      refine .cons_cons ⟨?_, (hrest.start_of_head? rfl).symm⟩ ih
      simp [isAnswered, hanswer, Except.isOk, Except.toBool]

/-- The calls that were started are the first ones of those that were issued. -/
theorem startedCalls_isPrefix (h : Sequence time steps result) :
    startedCalls steps <+: steps.map (·.call) := by
  induction h with
  | ended _ => exact List.nil_prefix
  | @failed step _ _ _ _ =>
    cases hstarted : step.ending.started <;> simp [startedCalls, hstarted]
  | @replaced step _ _ _ _ =>
    cases hstarted : step.ending.started <;> simp [startedCalls, hstarted]
  | @answered step _ steps _ _ hstarted _ ih =>
    have hcons : startedCalls (step :: steps) = step.call :: startedCalls steps := by
      simp [startedCalls, hstarted]
    rw [hcons, List.map_cons, List.prefix_cons_inj]
    exact ih

/-- An error that names a stage names that of the last call. -/
theorem stage_of_error (h : Sequence time steps result) {error : RetrievalError} {stage : Stage}
    (hresult : result = .error error) (hstage : error.stage? = some stage) :
    steps.getLast?.map (·.call.stage) = some stage := by
  induction h with
  | ended hnone =>
    have h := hnone error hresult
    rw [hstage] at h
    cases h
  | failed _ hfailed _ =>
    cases hresult
    simpa [hfailed] using hstage
  | replaced _ _ => cases hresult
  | @answered step _ steps _ _ _ _ ih =>
    cases steps with
    | nil => simp at ih; exact absurd hresult (by simp_all)
    | cons next steps => simpa using ih hresult

/-- The only error of the reranker is a cancellation. -/
theorem isCancelled_of_rerank (h : Sequence time steps result) {error : RetrievalError}
    (hresult : result = .error error) (hstage : error.stage? = some .rerank) :
    error.isCancelled = true := by
  induction h with
  | ended hnone =>
    have h := hnone error hresult
    rw [hstage] at h
    cases h
  | failed _ hfailed hrerank =>
    cases hresult
    exact hrerank (Option.some.inj (hfailed.symm.trans hstage))
  | replaced _ _ => cases hresult
  | answered _ _ _ ih => exact ih hresult

end Sequence

end Step

end Daybook
