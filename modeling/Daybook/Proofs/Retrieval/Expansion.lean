import Daybook.Proofs.Retrieval.MemoSearch

/-!
# The second pass of a search for notes

A search for notes that makes a second pass finds what one pass over more hits would have
found. What the first pass would have given by itself comes first in it.
-/

namespace Daybook

/-- A call that nobody cancels ends with an outcome, whenever it is issued. -/
def Call.EndsWith (call : Call) (world : Collaborators) (limitMs : Nat)
    (outcome : Except RetrievalError call.Answer) : Prop :=
  ∀ time past, (call.ending world none limitMs time past).outcome = outcome

/-- A call that has been started is the last of the calls started so far. -/
theorem Step.startedCalls_concat {step : Step} (hstarted : step.ending.started = true)
    (past : List Step) : startedCalls (past ++ [step]) = startedCalls past ++ [step.call] := by
  simp [startedCalls, hstarted]

namespace Retrieval

variable {α : Type} {world : Collaborators} {calls : List Call} {limitMs : Nat}
  {result : Except RetrievalError α}

/-- Without a cancellation, a retrieval makes some calls and has a result, whenever it
starts. -/
def Makes (retrieval : Retrieval α) (world : Collaborators) (calls : List Call)
    (result : Except RetrievalError α) : Prop :=
  ∀ time past, ∃ outcome, Program.runFrom world none time past (ExceptT.run retrieval) = outcome ∧
    outcome.calls = Step.startedCalls past ++ calls ∧ outcome.result = result

/-- A program that is done makes no calls. -/
theorem makes_pure (a : α) : (pure a : Retrieval α).Makes world [] (.ok a) :=
  fun _ _ => ⟨_, rfl, (List.append_nil _).symm, rfl⟩

/-- A call that is answered comes before the calls of the rest. -/
theorem makes_call_bind {c : Call} {answer : c.Answer} {f : c.Answer → Retrieval α}
    (hanswer : c.EndsWith world limitMs (.ok answer)) (hf : (f answer).Makes world calls result) :
    (call c limitMs >>= f).Makes world (c :: calls) result := by
  intro time past
  rw [run_call_bind, Program.runFrom]
  simp only [hanswer time (Step.startedCalls past)]
  obtain ⟨outcome, hrun, hcalls, hresult⟩ := hf _ _
  refine ⟨outcome, hrun, ?_, hresult⟩
  rw [hcalls, Step.startedCalls_concat rfl, List.append_assoc, List.singleton_append]

/-- A call that fails is the last one. -/
theorem makes_call_bind_error {c : Call} {error : RetrievalError} {f : c.Answer → Retrieval α}
    (herror : c.EndsWith world limitMs (.error error)) :
    (call c limitMs >>= f).Makes world [c] (.error error) := by
  intro time past
  rw [run_call_bind, Program.runFrom]
  simp only [herror time (Step.startedCalls past)]
  exact ⟨_, rfl, Step.startedCalls_concat rfl past, rfl⟩

end Retrieval

namespace Store

variable {store : Store} {user : Int} {vector : List Score}

/-- Whether a search fails does not depend on its limit. -/
theorem isOk_search {limit : Nat} (h : (store.search user vector limit).isOk = true) (other : Nat) :
    (store.search user vector other).isOk = true := by
  unfold search at h ⊢
  split at h
  · cases h
  · rename_i hempty
    rw [if_neg hempty]
    cases hscored : (store.ownedBy user).mapM (scoreRecord vector) with
    | error error =>
      rw [hscored] at h
      cases h
    | ok hits => rfl

end Store

namespace Collaborators.Serve

variable {world : Collaborators} {store : Store} {vector : List Score} {limitMs : Nat}

/-- An embedder that serves a store answers each text with the vector of the query. -/
theorem endsWith_embed (h : world.Serve store vector limitMs) (text : String) :
    (Call.embed text).EndsWith world limitMs (.ok vector) :=
  Call.AnsweredBy.outcome_ending fun past => h.embeds past text

/-- A search ends as the store answers it, or with the failure of the search stage. -/
theorem endsWith_search (h : world.Serve store vector limitMs) (user : Int)
    (query : List Score) (limit : Nat) : (Call.vectorSearch user query limit).EndsWith world limitMs
      ((store.search user query limit).mapError (.provider .vectorSearch)) := by
  intro time past
  obtain ⟨delay, hdelay, hreply⟩ := h.searches past user query limit
  rw [Call.ending_none]
  simp [hreply, Reply.settle, Option.filter_some, hdelay]
  rfl

end Collaborators.Serve

namespace Request

variable {request : Request} {settings : Settings} {world : Collaborators} {store : Store}
  {vector : List Score} {first : List Hit}

/-- How many hits the first pass of a search for notes looks at. -/
def firstPass (request : Request) (settings : Settings) : Nat :=
  max settings.retrieval.vectorLimit (request.resultLimit settings)

/-- Whether a second pass follows a first one with some hits. -/
def Widens (request : Request) (settings : Settings) (first : List Hit) : Prop :=
  Quality.ofResults settings.scoring (memoResults first) = .medium ∧
    settings.retrieval.vectorLimit < request.resultLimit settings

/-- The calls of the first pass. -/
def firstCalls (request : Request) (settings : Settings) (vector : List Score) : List Call :=
  [.embed request.query, .vectorSearch request.userId vector (request.firstPass settings)]

section Served

variable (hserve : world.Serve store vector settings.retrieval.callTimeoutMs)
include hserve

/-- A search for notes whose first pass fails makes no second one. -/
theorem makes_searchMemos_of_error {error : ProviderError}
    (hfirst : store.search request.userId vector (request.firstPass settings) = .error error) :
    (request.searchMemos settings).Makes world (request.firstCalls settings vector)
      (.error (.provider .vectorSearch error)) := by
  unfold searchMemos embedQuery memoPass
  simp only [bind_assoc, pure_bind]
  apply Retrieval.makes_call_bind (hserve.endsWith_embed _)
  apply Retrieval.makes_call_bind_error
  have hends := hserve.endsWith_search request.userId vector (request.firstPass settings)
  rwa [hfirst] at hends

/-- A search for notes that is content with its first pass. -/
theorem makes_searchMemos_of_not_widens
    (hfirst : store.search request.userId vector (request.firstPass settings) = .ok first)
    (hwidens : ¬request.Widens settings first) :
    (request.searchMemos settings).Makes world (request.firstCalls settings vector)
      (.ok (request.selectMemos (request.resultLimit settings) (memoResults first))) := by
  have hends := hserve.endsWith_search request.userId vector (request.firstPass settings)
  rw [hfirst] at hends
  unfold Widens at hwidens
  unfold searchMemos embedQuery memoPass
  simp only [bind_assoc, pure_bind]
  apply Retrieval.makes_call_bind (hserve.endsWith_embed _)
  apply Retrieval.makes_call_bind hends
  rw [if_neg hwidens]
  exact Retrieval.makes_pure _

/-- A search for notes with two passes merges what they find. -/
theorem makes_searchMemos_of_widens {second : List Hit}
    (hfirst : store.search request.userId vector (request.firstPass settings) = .ok first)
    (hsecond : store.search request.userId vector settings.retrieval.expandLimit = .ok second)
    (hwidens : request.Widens settings first) :
    (request.searchMemos settings).Makes world (request.firstCalls settings vector ++
        [.vectorSearch request.userId vector settings.retrieval.expandLimit])
      (.ok (request.selectMemos (request.resultLimit settings)
        (SearchResult.merge (memoResults first) (memoResults second)
          (request.resultLimit settings)))) := by
  have hends := hserve.endsWith_search request.userId vector (request.firstPass settings)
  have hends' := hserve.endsWith_search request.userId vector settings.retrieval.expandLimit
  rw [hfirst] at hends
  rw [hsecond] at hends'
  unfold Widens at hwidens
  unfold searchMemos embedQuery memoPass
  simp only [bind_assoc, pure_bind]
  apply Retrieval.makes_call_bind (hserve.endsWith_embed _)
  apply Retrieval.makes_call_bind hends
  rw [if_pos hwidens]
  exact Retrieval.makes_call_bind hends' (Retrieval.makes_pure _)

/-- Only a search for notes whose first pass is of medium quality, and does not look for as many
results as are asked for by itself, makes two searches. A query that is too long is refused before
any call. -/
theorem widens_of_two_searches {rerankerReady : Bool} {now : Instant}
    (hstrategy : request.strategy = .memoSemantic)
    (hsecond : 1 < ((request.retrieve settings rerankerReady now).run world none).calls.countP
      (·.stage = .vectorSearch)) :
    request.retrieve settings rerankerReady now = request.searchMemos settings ∧
      ∃ first, store.search request.userId vector (request.firstPass settings) = .ok first ∧
        request.Widens settings first := by
  have hcount : ∀ {result}, (request.retrieve settings rerankerReady now).Makes world
      (request.firstCalls settings vector) result → False := by
    intro result hmakes
    obtain ⟨outcome, hrun, hcalls, -⟩ := hmakes 0 []
    rw [Retrieval.run, hrun, hcalls] at hsecond
    simp [firstCalls, Step.startedCalls, Call.stage] at hsecond
  have hretrieve : request.retrieve settings rerankerReady now = request.searchMemos settings := by
    by_cases hlong : settings.queryLimits.maxQueryLength < request.query.toList.length
    · have hnone : request.retrieve settings rerankerReady now = Retrieval.ended (.error
          (.queryTooLong request.query.toList.length settings.queryLimits.maxQueryLength)) := by
        unfold retrieve
        simp only [hlong, if_true]
      rw [hnone] at hsecond
      cases hsecond
    · unfold retrieve byStrategy
      simp only [hstrategy, hlong, if_false]
  rw [hretrieve] at hcount
  refine ⟨hretrieve, ?_⟩
  cases hfirst : store.search request.userId vector (request.firstPass settings) with
  | error error => exact (hcount (makes_searchMemos_of_error hserve hfirst)).elim
  | ok first =>
    by_cases hwidens : request.Widens settings first
    · exact ⟨first, rfl, hwidens⟩
    · exact (hcount (makes_searchMemos_of_not_widens hserve hfirst hwidens)).elim

end Served

/-- A search for notes that makes a second pass has the result of one search that looks at as
many hits as the wider of both passes. The notes that the first pass alone would have given are
the first ones of it. -/
theorem retrieve_expanded (request : Request) (settings : Settings) (rerankerReady : Bool)
    (now : Instant) (world : Collaborators) (store : Store) (vector : List Score)
    (hstrategy : request.strategy = .memoSemantic)
    (hserve : world.Serve store vector settings.retrieval.callTimeoutMs)
    (hnumbers : ∀ hit ∈ store.scored request.userId vector, hit.score.isNaN = false)
    (hids : ((store.memos request.userId).map Entity.id).Nodup)
    (hsecond : 1 < ((request.retrieve settings rerankerReady now).run world none).calls.countP
      (·.stage = .vectorSearch)) :
    let limit := request.resultLimit settings
    let sizes := settings.retrieval
    ∃ first all : List Hit,
      store.search request.userId vector (max sizes.vectorLimit limit) = .ok first ∧
      store.search request.userId vector (max (max sizes.vectorLimit limit) sizes.expandLimit) =
        .ok all ∧
      ((request.retrieve settings rerankerReady now).run world none).result =
        .ok (request.selectMemos limit (memoResults all)) ∧
      request.selectMemos limit (memoResults first) <+:
        request.selectMemos limit (memoResults all) := by
  intro limit sizes
  obtain ⟨hretrieve, first, hfirst, hwidens⟩ := widens_of_two_searches hserve hstrategy hsecond
  let hits := Hit.byScore (store.scored request.userId vector)
  have hsearch : ∀ limit, store.search request.userId vector limit = .ok (hits.take limit) := by
    intro limit
    have hisOk : (store.search request.userId vector limit).isOk = true :=
      Store.isOk_search (by rw [hfirst]; rfl) limit
    rw [Store.search_of_isOk hisOk, Hit.rank_eq_byScore hnumbers]
  obtain rfl : hits.take (request.firstPass settings) = first :=
    Except.ok.inj ((hsearch _).symm.trans hfirst)
  obtain ⟨outcome, hrun, -, hresult⟩ :=
    makes_searchMemos_of_widens hserve hfirst (hsearch _) hwidens 0 []
  refine ⟨_, _, hsearch _, hsearch _, ?_, ?_⟩
  · have hranked := ranked_byScore hnumbers hids
    have hlimit : 0 < limit := Nat.lt_of_le_of_lt (Nat.zero_le _) hwidens.2
    rw [hretrieve, Retrieval.run, hrun, hresult, selectMemos_merge hranked hlimit]
    rfl
  · exact ((memoResults_take_isPrefix (Nat.le_max_left _ _)).filter _).take limit

/-- A store with a schedule and two notes, less and less similar to the vector of the request. -/
def agendaStore : Store :=
  ((({} : Store).addSchedule ⟨1, 1, "Meeting", "", .midnight .first, none⟩
    (some [1, 0])).addMemo ⟨2, 1, "Minutes of the meeting", .midnight .first⟩ [4, 3]).addMemo
      ⟨3, 1, "Meeting room", .midnight .first⟩ [3, 4]

/-- The first pass looks at the schedule and one note; the second pass finds the other one. -/
theorem retrieve_expanded_behind_schedule :
    let request := notesRequest 2
    let outcome := (request.retrieve narrowSettings false (.midnight .first)).run
      (agendaStore.collaborators [1, 0]) none
    request.strategy = .memoSemantic ∧
    1 < outcome.calls.countP (·.stage = .vectorSearch) ∧
    (outcome.result.toOption.map fun results => results.map (·.id)) = some [2, 3] := by
  intro request outcome
  have hsecond : 1 < outcome.calls.countP (·.stage = .vectorSearch) := by decide +kernel
  obtain ⟨first, all, -, hall, hresult, -⟩ := retrieve_expanded request narrowSettings false
    (.midnight .first) (agendaStore.collaborators [1, 0]) agendaStore [1, 0] rfl
    (Store.serve_collaborators _ _ _) (by decide +kernel) (by decide +kernel) hsecond
  have hids : ((agendaStore.search 1 [1, 0] 20).toOption.map fun hits =>
      (request.selectMemos 2 (memoResults hits)).map (·.id)) = some [2, 3] := by decide +kernel
  have hall : agendaStore.search 1 [1, 0] 20 = .ok all := hall
  rw [hall] at hids
  refine ⟨rfl, hsecond, ?_⟩
  rw [hresult]
  exact hids

end Request

end Daybook
