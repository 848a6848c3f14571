import Daybook.Proofs.Retrieval.CallOrder

/-!
# Going on without the reranker

The reranked search goes on like the standard one until it has its candidates. Where it does
not ask the reranker then, or asks it in vain, it has the results of the standard search,
with the errors that this one has.
-/

namespace Daybook

/-- Whether a call failed although nobody had cancelled. -/
def Step.hasFailed (step : Step) : Bool :=
  match step.ending.outcome with
  | .ok _ => false
  | .error error => !error.isCancelled

/-- The reranker gave no answer: each call of it, if there was any, failed before the caller
had cancelled. -/
def Outcome.LacksReranking {α : Type} (outcome : Outcome α) : Prop :=
  ∀ step ∈ outcome.steps, step.call.stage = .rerank → step.hasFailed = true

/-- Whether the reranking is lacking can be read off the steps. -/
instance {α : Type} (outcome : Outcome α) : Decidable outcome.LacksReranking :=
  inferInstanceAs (Decidable (∀ step ∈ outcome.steps, _ → _))

/-- The first program goes on as the second one does, but where the second has its result, the
first may ask the reranker. If that fails, and is not cancelled, the first has that result too. -/
inductive Program.Degrades {α : Type} : Program (Except RetrievalError α) →
    Program (Except RetrievalError α) → Prop
  | done (result : Except RetrievalError α) : Degrades (.done result) (.done result)
  | await {call : Call} {limitMs : Nat}
      {next next' : Except RetrievalError call.Answer → Program (Except RetrievalError α)}
      (hnext : ∀ outcome, Degrades (next outcome) (next' outcome)) :
      Degrades (.await call limitMs next) (.await call limitMs next')
  | reranks {call : Call} {limitMs : Nat} {result : Except RetrievalError α}
      {next : Except RetrievalError call.Answer → Program (Except RetrievalError α)}
      (hstage : call.stage = .rerank)
      (hlast : ∀ outcome, ∃ reranked, next outcome = .done reranked)
      (hfailed : ∀ error, error.isCancelled = false → next (.error error) = .done result) :
      Degrades (.await call limitMs next) (.done result)

/-- A program runs as the one that it degrades to, or has one more step. If that step has
failed, the results are the same. -/
theorem Program.Degrades.runFrom {α : Type} {p q : Program (Except RetrievalError α)}
    (h : p.Degrades q) (world : Collaborators) (cancelAt : Option Nat) (time : Nat)
    (past : List Step) :
    let full := p.runFrom world cancelAt time past
    let plain := q.runFrom world cancelAt time past
    (full.steps = plain.steps ∧ full.result = plain.result) ∨
      ∃ step, step.call.stage = .rerank ∧ full.steps = plain.steps ++ [step] ∧
        (step.hasFailed = true → full.result = plain.result) := by
  induction h generalizing time past with
  | done result => exact .inl ⟨rfl, rfl⟩
  | await hnext ih => exact ih _ _ _
  | @reranks call limitMs result next hstage hlast hfailed =>
    let ending := call.ending world cancelAt limitMs time (Step.startedCalls past)
    obtain ⟨reranked, hreranked⟩ := hlast ending.outcome
    have hrun : (Program.await call limitMs next).runFrom world cancelAt time past =
        ⟨reranked, past ++ [⟨call, time, ending⟩], ending.finish⟩ := by
      change (next ending.outcome).runFrom world cancelAt ending.finish _ = _
      rw [hreranked]
      rfl
    refine .inr ⟨⟨call, time, ending⟩, hstage, congrArg Outcome.steps hrun, fun hstep => ?_⟩
    rw [hrun]
    cases houtcome : ending.outcome with
    | ok answer => simp [Step.hasFailed, houtcome] at hstep
    | error error =>
      have hkept : error.isCancelled = false := by simpa [Step.hasFailed, houtcome] using hstep
      rw [houtcome, hfailed error hkept] at hreranked
      exact (Program.done.inj hreranked).symm

namespace Retrieval

variable {α β : Type}

/-- A retrieval whose program degrades to that of another one. -/
def Degrades (full plain : Retrieval α) : Prop :=
  (ExceptT.run full).Degrades (ExceptT.run plain)

/-- Of a full and a plain retrieval that degrade into each other, the runs agree, or the full one
makes one more call, to the reranker; and where that call fails, the results agree as well. -/
theorem Degrades.run {full plain : Retrieval α} (h : full.Degrades plain) (world : Collaborators)
    (cancelAt : Option Nat) :
    ((full.run world cancelAt).steps = (plain.run world cancelAt).steps ∧
      (full.run world cancelAt).result = (plain.run world cancelAt).result) ∨
    ∃ step, step.call.stage = .rerank ∧
      (full.run world cancelAt).steps = (plain.run world cancelAt).steps ++ [step] ∧
      (step.hasFailed = true →
        (full.run world cancelAt).result = (plain.run world cancelAt).result) :=
  Program.Degrades.runFrom h world cancelAt 0 []

/-- A retrieval that has ended degrades into itself. -/
theorem degrades_ended (outcome : Except RetrievalError α) :
    (ended outcome).Degrades (ended outcome) :=
  .done outcome

/-- A call that both retrievals make, before a rest that degrades. -/
theorem degrades_call_bind {c : Call} {limitMs : Nat} {f g : c.Answer → Retrieval α}
    (h : ∀ answer, (f answer).Degrades (g answer)) :
    (call c limitMs >>= f).Degrades (call c limitMs >>= g) := by
  unfold Degrades
  rw [run_call_bind, run_call_bind]
  refine .await fun outcome => ?_
  cases outcome with
  | ok answer => exact h answer
  | error error => exact .done _

/-- A call that is attempted at the end, if it can do without the answer. -/
theorem degrades_attempt_bind {c : Call} {limitMs : Nat} {result : Except RetrievalError α}
    {f : Except RetrievalError c.Answer → Retrieval α} (hstage : c.stage = .rerank)
    (hlast : ∀ outcome, ∃ reranked, f outcome = ended reranked)
    (hfailed : ∀ error, error.isCancelled = false → f (.error error) = ended result) :
    (attempt (call c limitMs) >>= f).Degrades (ended result) := by
  unfold Degrades
  rw [run_attempt_bind]
  exact .reranks hstage hlast hfailed

end Retrieval

/-- Only a reranker that is ready and enabled is worth asking. -/
theorem RerankPolicy.of_shouldRerank {settings : Settings} {available : Bool} {query : String}
    {scores : List Score} (h : shouldRerank settings available query scores = true) :
    available = true ∧ settings.retrieval.enableReranker = true := by
  simp only [shouldRerank, Bool.and_eq_true] at h
  exact h.1.1.1

namespace Request

variable {request : Request} {settings : Settings} {rerankerReady : Bool} {now : Instant}

/-- The reranked search degrades to a hybrid search with the same weight. -/
theorem degrades_searchReranked :
    (request.searchReranked settings rerankerReady).Degrades
      (request.searchHybrid settings settings.scoring.semanticWeight none) := by
  unfold searchReranked searchHybrid
  simp only [candidates_bind, checkWithin, Retrieval.ended_ok_bind, Option.all_none,
    List.filter_true]
  apply Retrieval.degrades_call_bind
  intro vector
  apply Retrieval.degrades_call_bind
  intro hits
  split
  · apply Retrieval.degrades_attempt_bind rfl
    · intro outcome
      split
      · exact ⟨_, rfl⟩
      · split <;> exact ⟨_, rfl⟩
    · intro error hkept
      exact if_neg (by simp [hkept])
  · exact Retrieval.degrades_ended _

/-- The reranked request degrades to the standard one. -/
theorem degrades_retrieve (request : Request) (settings : Settings) (rerankerReady : Bool)
    (now : Instant) :
    ({ request with strategy := .reranked }.retrieve settings rerankerReady now).Degrades
      ({ request with strategy := .hybridStandard }.retrieve settings rerankerReady now) := by
  unfold retrieve
  dsimp only
  split
  · exact Retrieval.degrades_ended _
  · exact degrades_searchReranked

/-- Where the reranker is asked, a search has found candidates that are worth it. -/
def AsksIfWorthIt (request : Request) (settings : Settings) (rerankerReady : Bool)
    (steps : List Step) : Prop :=
  ∀ step ∈ steps, step.call.stage = .rerank → ∃ search ∈ steps, ∃ hits,
    search.hits? = some hits ∧ RerankPolicy.shouldRerank settings rerankerReady request.query
      (hits.map fun hit => hit.score * settings.scoring.semanticWeight) = true

/-- A run without a call to the reranker asks it in no case. -/
theorem asksIfWorthIt_of_forall {steps : List Step}
    (h : ∀ step ∈ steps, step.call.stage ≠ .rerank) :
    request.AsksIfWorthIt settings rerankerReady steps :=
  fun step hstep hrerank => absurd hrerank (h step hstep)

/-- The full pipeline asks the reranker only if that is worth the while. -/
theorem asksIfWorthIt_searchReranked :
    (request.searchReranked settings rerankerReady).Always fun steps _ =>
      request.AsksIfWorthIt settings rerankerReady steps := by
  unfold searchReranked
  simp only [candidates_bind]
  apply always_embed_search_bind
  · intro step error hembed
    exact asksIfWorthIt_of_forall (by simp [hembed])
  · intro first second error hembed hsearch _
    exact asksIfWorthIt_of_forall (by simp [hembed, hsearch])
  · intro first second vector hits hembed hsearch hhits
    split
    · rename_i hworth
      have hasks : ∀ third : Step,
          request.AsksIfWorthIt settings rerankerReady [first, second, third] := by
        intro third step _ _
        exact ⟨second, by simp, hits, hhits, by rwa [List.map_map] at hworth⟩
      apply Retrieval.always_attempt_bind
      intro start ending
      split
      · exact Retrieval.always_ended (hasks _)
      · split <;> exact Retrieval.always_ended (hasks _)
    · exact Retrieval.always_ended (asksIfWorthIt_of_forall (by simp [hembed, hsearch]))

/-- A retrieval with reranking asks the reranker if that is worth it, behind the checks of the
request. -/
theorem asksIfWorthIt_retrieve (hstrategy : request.strategy = .reranked) :
    (request.retrieve settings rerankerReady now).Always fun steps _ =>
      request.AsksIfWorthIt settings rerankerReady steps := by
  unfold retrieve byStrategy
  dsimp only
  split
  · exact Retrieval.always_ended (asksIfWorthIt_of_forall (by simp))
  · simp only [hstrategy]
    exact asksIfWorthIt_searchReranked

/-- A reranked request beside the standard request for the same. The reranker is asked only if
it is ready and enabled and the candidates are worth it, after the calls of the standard
request. If it gives no answer, the requests end with the same results or the same error. -/
theorem retrieve_degraded (request : Request) (settings : Settings) (rerankerReady : Bool)
    (now : Instant) (world : Collaborators) (cancelAt : Option Nat) :
    let outcome (strategy : Strategy) :=
      ({ request with strategy }.retrieve settings rerankerReady now).run world cancelAt
    let full := outcome .reranked
    let plain := outcome .hybridStandard
    plain.steps <+: full.steps ∧
    (∀ step ∈ full.steps, step.call.stage = .rerank →
      rerankerReady = true ∧ settings.retrieval.enableReranker = true ∧
      ∃ search ∈ full.steps, ∃ hits, search.hits? = some hits ∧
        RerankPolicy.shouldRerank settings rerankerReady request.query
          (hits.map fun hit => hit.score * settings.scoring.semanticWeight) = true) ∧
    (full.LacksReranking → full.result = plain.result) := by
  intro outcome full plain
  have hasks : { request with strategy := .reranked }.AsksIfWorthIt settings rerankerReady
      full.steps := (asksIfWorthIt_retrieve rfl).run world cancelAt
  have hruns := (degrades_retrieve request settings rerankerReady now).run world cancelAt
  refine ⟨?_, fun step hstep hrerank => ?_, fun hlacks => ?_⟩
  · rcases hruns with ⟨hsteps, -⟩ | ⟨last, -, hsteps, -⟩
    · exact hsteps ▸ List.prefix_rfl
    · exact ⟨[last], hsteps.symm⟩
  · obtain ⟨search, hsearch, hits, hhits, hworth⟩ := hasks step hstep hrerank
    obtain ⟨hready, henabled⟩ := RerankPolicy.of_shouldRerank hworth
    exact ⟨hready, henabled, search, hsearch, hits, hhits, hworth⟩
  · rcases hruns with ⟨-, hresult⟩ | ⟨last, hstage, hsteps, hresult⟩
    · exact hresult
    · have hlast : last ∈ full.steps := hsteps ▸ List.mem_append_right _ (List.mem_singleton_self _)
      exact hresult (hlacks last hlast hstage)

/-- A store that finds five notes that are equally good, and a reranker that never answers. -/
def unanswered : Collaborators
  | _, .embed _ => ⟨some 0, .ok []⟩
  | _, .vectorSearch .. => ⟨some 0, .ok
      ([1, 2, 3, 4, 5].map fun id => ⟨.memo ⟨id, 1, "Traits", .midnight .first⟩, 1⟩)⟩
  | _, _ => ⟨none, .error (.unavailable "")⟩

/-- The reranker is asked in vain, and the first of the notes are the results. -/
theorem retrieve_degraded_on_timeout :
    let request : Request :=
      ⟨"how do lifetimes and traits interact", 1, .reranked, none, 0, 3, .standard, ""⟩
    let outcome (strategy : Strategy) := ({ request with strategy }.retrieve (.default "") true
      (.midnight .first)).run unanswered none
    (outcome .reranked).steps.map (·.call.stage) = [.embedding, .vectorSearch, .rerank] ∧
    (outcome .reranked).LacksReranking ∧
    (outcome .reranked).result = (outcome .hybridStandard).result ∧
    ((outcome .reranked).result.toOption.map fun results => results.map (·.id)) =
      some [1, 2, 3] := by
  intro request outcome
  have hlacks : (outcome .reranked).LacksReranking := by decide +kernel
  exact ⟨by decide +kernel, hlacks, (retrieve_degraded request (.default "") true
    (.midnight .first) unanswered none).2.2 hlacks, by decide +kernel⟩

end Request

end Daybook
