import Daybook.Proofs.Retrieval.CallOrder

/-!
# Cancellation

A run that is cancelled is compared with the run that nobody cancels. The two agree
up to the cancellation. A sequential retrieval then ends with the cancellation of the
call it waits for, and so does one that waits for the reranker.
-/

namespace Daybook

/-- Whether a call is waited for at an instant, and neither issued nor ended then. -/
def Step.IsAwaitedAt (step : Step) (instant : Nat) : Prop :=
  step.start < instant ∧ instant < step.ending.finish

/-- Whether a step is awaited at an instant can be evaluated. -/
instance (step : Step) (instant : Nat) : Decidable (step.IsAwaitedAt instant) :=
  inferInstanceAs (Decidable (_ ∧ _))

/-- The call that a run waits for at an instant; at its start, that is the first one. -/
def Outcome.awaitedAt {α : Type} (outcome : Outcome α) (instant : Nat) : Option Call :=
  if instant = 0 then outcome.steps.head?.map (·.call)
  else (outcome.steps.find? fun step => step.IsAwaitedAt instant).map (·.call)

namespace Program

variable {α : Type} {p : Program α} {world : Collaborators} {time instant : Nat}
  {past : List Step}

/-- A run keeps the steps it has made. -/
theorem prefix_runFrom (p : Program α) (world : Collaborators) (cancelAt : Option Nat)
    (time : Nat) (past : List Step) :
    past <+: (p.runFrom world cancelAt time past).steps := by
  induction p generalizing time past with
  | done result => exact List.prefix_rfl
  | await call limitMs next ih => exact (List.prefix_append _ _).trans (ih _ _ _)

/-- No run ends before it starts. -/
theorem le_finish_runFrom : time ≤ (p.runFrom world none time past).finish := by
  induction p generalizing time past with
  | done result => exact Nat.le_refl time
  | await call limitMs next ih =>
    have hcall : time ≤ (call.ending world none limitMs time (Step.startedCalls past)).finish :=
      Reply.le_settle _ _ _ _
    exact Nat.le_trans hcall (ih _)

/-- A cancellation that comes after the end of a run changes nothing. -/
theorem runFrom_of_finish_lt (hfinish : (p.runFrom world none time past).finish < instant) :
    p.runFrom world (some instant) time past = p.runFrom world none time past := by
  induction p generalizing time past with
  | done result => rfl
  | await call limitMs next ih =>
    have hcall : (call.ending world none limitMs time (Step.startedCalls past)).finish < instant :=
      Nat.lt_of_le_of_lt le_finish_runFrom hfinish
    unfold runFrom
    rw [Call.ending_of_finish_lt hcall]
    exact ih _ hfinish

/-- A sequential program goes no further than a call that is cancelled. -/
theorem Sequential.next_cancelled {call : Call} {limitMs : Nat}
    {next : Except RetrievalError call.Answer → Program (Except RetrievalError α)}
    (hp : (Program.await call limitMs next).Sequential) :
    next (.error (.cancelled call.stage)) = .done (.error (.cancelled call.stage)) := by
  have hfail := hp.2 (.cancelled call.stage) rfl
  rwa [if_neg (by simp [RetrievalError.isCancelled])] at hfail

/-- A sequential program that is cancelled before its start ends at its first call. -/
theorem Sequential.runFrom_cancelled_of_le {p : Program (Except RetrievalError α)}
    (hp : p.Sequential) (hinstant : instant ≤ time)
    (hsteps : (p.runFrom world none time []).steps ≠ []) :
    ∃ step, (p.runFrom world none time []).steps.head? = some step ∧
      (p.runFrom world (some instant) time []).result = .error (.cancelled step.call.stage) := by
  cases p with
  | done result => exact absurd rfl hsteps
  | await call limitMs next =>
    let step : Step := ⟨call, time, call.ending world none limitMs time []⟩
    obtain ⟨rest, hrest⟩ : [step] <+: _ :=
      prefix_runFrom (next step.ending.outcome) world none step.ending.finish _
    have hfree : (Program.await call limitMs next).runFrom world none time [] =
      (next step.ending.outcome).runFrom world none step.ending.finish [step] := rfl
    refine ⟨step, ?_, ?_⟩
    · rw [hfree, ← hrest]
      rfl
    · rw [Program.runFrom, Call.ending_of_le hinstant]
      dsimp only
      rw [hp.next_cancelled]
      rfl

/-- A sequential program that is cancelled on its way ends at the call that it waits for in the run
that nobody cancels. A run that makes no call leaves no time for the cancellation, and a call that
fails ends the run before it. -/
theorem Sequential.runFrom_cancelled_of_lt {p : Program (Except RetrievalError α)}
    (hp : p.Sequential) (past : List Step) (hpast : ∀ step ∈ past, step.ending.finish < instant)
    (hstart : time < instant) (hfinish : instant < (p.runFrom world none time past).finish)
    (hends : ∀ step ∈ (p.runFrom world none time past).steps, step.ending.finish ≠ instant) :
    ∃ step, (p.runFrom world none time past).steps.find? (·.IsAwaitedAt instant) = some step ∧
      (p.runFrom world (some instant) time past).result =
        .error (.cancelled step.call.stage) := by
  induction p generalizing time past with
  | done result =>
    change instant < time at hfinish
    omega
  | await call limitMs next ih =>
    let step : Step := ⟨call, time, call.ending world none limitMs time (Step.startedCalls past)⟩
    have hfree : (Program.await call limitMs next).runFrom world none time past =
      (next step.ending.outcome).runFrom world none step.ending.finish (past ++ [step]) := rfl
    obtain ⟨rest, hrest⟩ : past ++ [step] <+: _ :=
      prefix_runFrom (next step.ending.outcome) world none step.ending.finish _
    rw [hfree] at hfinish hends ⊢
    have hne : step.ending.finish ≠ instant := hends step (by rw [← hrest]; simp)
    rcases Nat.lt_or_gt_of_ne hne with hended | hawaited
    · have hcancelled : (Program.await call limitMs next).runFrom world (some instant) time past =
          (next step.ending.outcome).runFrom world (some instant) step.ending.finish
            (past ++ [step]) := by
        rw [Program.runFrom, Call.ending_of_finish_lt hended]
      rw [hcancelled]
      cases houtcome : step.ending.outcome with
      | ok answer =>
        rw [houtcome] at hfinish hends
        refine ih (.ok answer) (hp.1 answer) _ (fun earlier hearlier => ?_) hended hfinish hends
        rcases List.mem_append.mp hearlier with hmem | hmem
        · exact hpast earlier hmem
        · rw [List.mem_singleton.mp hmem]
          exact hended
      | error error =>
        have hstage : error.stage? = some call.stage := Call.stage?_of_ending houtcome
        obtain ⟨result, hdone⟩ := hp.next_error hstage
        rw [houtcome, hdone] at hfinish
        change instant < step.ending.finish at hfinish
        omega
    · refine ⟨step, ?_, ?_⟩
      · have hnone : past.find? (·.IsAwaitedAt instant) = none := by
          rw [List.find?_eq_none]
          intro earlier hearlier hawaits
          have hlt := hpast earlier hearlier
          have hgt := (of_decide_eq_true hawaits).2
          omega
        have hawaits : step.IsAwaitedAt instant := ⟨hstart, hawaited⟩
        rw [← hrest]
        simp [List.find?_append, hnone, hawaits]
      · rw [Program.runFrom, Call.ending_of_lt_of_lt hstart hawaited]
        dsimp only
        rw [hp.next_cancelled]
        rfl

end Program

namespace Request

/-- A request that is cancelled, compared with the one that nobody cancels; the
cancellation does not come just when a call ends. If it comes before the end of the
request, the request ends with the cancellation of the call it waits for, and if it
comes later, it changes nothing. -/
theorem retrieve_cancelled (request : Request) (settings : Settings) (rerankerReady : Bool)
    (now : Instant) (world : Collaborators) (instant : Nat)
    (hends : ∀ step ∈ ((request.retrieve settings rerankerReady now).run world none).steps,
      instant ≠ 0 → step.ending.finish ≠ instant) :
    let free := (request.retrieve settings rerankerReady now).run world none
    let cancelled := (request.retrieve settings rerankerReady now).run world (some instant)
    (free.steps ≠ [] → (instant = 0 ∨ instant < free.finish) →
      ∃ call, free.awaitedAt instant = some call ∧
        cancelled.result = .error (.cancelled call.stage)) ∧
    (free.finish < instant → cancelled = free) := by
  intro free cancelled
  have hsequential : (request.retrieve settings rerankerReady now).Sequential :=
    sequential_retrieve request settings rerankerReady now
  refine ⟨fun hsteps hinstant => ?_, Program.runFrom_of_finish_lt⟩
  unfold Outcome.awaitedAt
  by_cases hzero : instant = 0
  · subst hzero
    obtain ⟨step, hfirst, hresult⟩ :=
      Program.Sequential.runFrom_cancelled_of_le hsequential (Nat.le_refl 0) hsteps
    exact ⟨step.call, by rw [if_pos rfl]; exact congrArg _ hfirst, hresult⟩
  · obtain ⟨step, hfound, hresult⟩ :=
      Program.Sequential.runFrom_cancelled_of_lt hsequential [] (by simp) (by omega)
        (hinstant.resolve_left hzero) fun step hmem => hends step hmem hzero
    exact ⟨step.call, by rw [if_neg hzero]; exact congrArg _ hfound, hresult⟩

/-- Collaborators that find five notes of equal score, in ten milliseconds for each call,
and need fifty to rank them again. -/
def slowReranker : Collaborators
  | _, .embed _ => ⟨some 10, .ok [1]⟩
  | _, .vectorSearch user _ _ =>
    ⟨some 10, .ok ((List.range 5).map fun id => ⟨.memo ⟨id, user, "note", .midnight .first⟩, 1⟩)⟩
  | _, .listSchedules .. => ⟨none, .ok []⟩
  | _, .rerank .. => ⟨some 50, .ok []⟩

/-- A request whose results are ranked again. -/
def complexRequest : Request where
  query := "how are notes ranked"
  userId := 1
  strategy := .reranked
  range := none
  minScore := 0
  limit := 10
  mode := .standard
  requestId := ""

/-- A cancellation while the reranker is waited for ends the request, although a failure
of the reranker would not. -/
theorem retrieve_cancelled_reranking :
    let retrieval := complexRequest.retrieve (.default "") true (.midnight .first)
    let free := retrieval.run slowReranker none
    (∀ step ∈ free.steps, 40 ≠ 0 → step.ending.finish ≠ 40) ∧
    (free.steps ≠ [] ∧ 40 < free.finish) ∧
    (retrieval.run slowReranker (some 40)).result = .error (.cancelled .rerank) := by
  intro retrieval free
  have hends : ∀ step ∈ free.steps, 40 ≠ 0 → step.ending.finish ≠ 40 := by decide +kernel
  have hcalls : free.steps ≠ [] := by
    have hlength : free.steps.length = 3 := by decide +kernel
    exact List.ne_nil_of_length_pos (by omega)
  have hfinish : 40 < free.finish := by decide +kernel
  obtain ⟨call, hawaited, hresult⟩ :=
    (retrieve_cancelled complexRequest (.default "") true (.midnight .first) slowReranker 40
      hends).1 hcalls (.inr hfinish)
  have hstage : (free.awaitedAt 40).map Call.stage = some .rerank := by decide +kernel
  rw [hawaited, Option.map_some, Option.some.injEq] at hstage
  refine ⟨hends, ⟨hcalls, hfinish⟩, ?_⟩
  rw [hresult, hstage]

end Request

end Daybook
