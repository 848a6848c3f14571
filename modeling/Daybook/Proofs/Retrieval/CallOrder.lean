import Daybook.Proofs.Retrieval.Runs
import Daybook.Retrieval.Request

/-!
# The order of calls

A request either is refused before any call, or issues the calls of its strategy in
a fixed order, each after the answer to the one before. What stops it, and which
call is to blame, can be read off its steps.
-/

namespace Daybook

/-- The stages through which a strategy goes if nothing fails. -/
def Strategy.plans : Strategy → List (List Stage)
  | .scheduleOnly => [[.scheduleList]]
  | .memoSemantic => [[.embedding, .vectorSearch], [.embedding, .vectorSearch, .vectorSearch]]
  | .hybridLexical | .hybridTimed | .hybridStandard => [[.embedding, .vectorSearch]]
  | .reranked => [[.embedding, .vectorSearch], [.embedding, .vectorSearch, .rerank]]

/-- The hits with which a search was answered. -/
def Step.hits? : Step → Option (List Hit)
  | ⟨.vectorSearch .., _, ending⟩ => ending.outcome.toOption
  | _ => none

namespace Request

variable {request : Request} {settings : Settings} {now : Instant} {rerankerReady : Bool}

/-- A request is refused if its query is too long, or if its strategy does not
accept its range. -/
def IsRefused (request : Request) (settings : Settings) (now : Instant) : Prop :=
  settings.queryLimits.maxQueryLength < request.query.toList.length ∨
    match request.strategy, request.range with
    | .scheduleOnly, some range => range.error? now settings.timeRange ≠ .ok none
    | .hybridTimed, some range => range.stop ≤ range.start
    | _, _ => False

/-- The steps of a request that is not refused. -/
structure FollowsPlan (request : Request) (settings : Settings) (steps : List Step)
    (result : Except RetrievalError (List SearchResult)) : Prop where
  begins : steps ≠ []
  stages : ∃ plan ∈ request.strategy.plans, steps.map (·.call.stage) <+: plan
  /-- Results are there only when a plan has been carried out. -/
  completes : ∀ results, result = .ok results →
    steps.map (·.call.stage) ∈ request.strategy.plans
  /-- Notes are searched for again only after a first pass of medium quality, and
  if more of them are asked for than it looks for by itself. -/
  widens : ∀ embedding first second, steps = [embedding, first, second] →
    second.call.stage = .vectorSearch →
    ∃ hits, first.hits? = some hits ∧
      Quality.ofResults settings.scoring (memoResults hits) = .medium ∧
      settings.retrieval.vectorLimit < request.resultLimit settings

/-- The plan of a request is followed by any steps that are too few for a second
search. -/
theorem followsPlan_of_two {steps : List Step}
    {result : Except RetrievalError (List SearchResult)} (hbegins : steps ≠ [])
    (hlength : steps.length ≤ 2)
    (hstages : ∃ plan ∈ request.strategy.plans, steps.map (·.call.stage) <+: plan)
    (hcompletes : ∀ results, result = .ok results →
      steps.map (·.call.stage) ∈ request.strategy.plans) :
    request.FollowsPlan settings steps result := by
  refine ⟨hbegins, hstages, hcompletes, ?_⟩
  rintro embedding first second rfl
  simp at hlength

/-- A plan of three calls is followed to its end, if a second search is called for. -/
theorem followsPlan_of_three {first second third : Step}
    {result : Except RetrievalError (List SearchResult)}
    (hplan : [first, second, third].map (·.call.stage) ∈ request.strategy.plans)
    (hwidens : third.call.stage = .vectorSearch → ∃ hits, second.hits? = some hits ∧
      Quality.ofResults settings.scoring (memoResults hits) = .medium ∧
      settings.retrieval.vectorLimit < request.resultLimit settings) :
    request.FollowsPlan settings [first, second, third] result := by
  refine ⟨List.cons_ne_nil _ _, ⟨_, hplan, List.prefix_rfl⟩, fun _ _ => hplan, ?_⟩
  rintro _ _ _ ⟨⟩ hthird
  exact hwidens hthird

/-- A search of schedules alone that is not refused calls the list of schedules once. -/
theorem followsPlan_listSchedules (hstrategy : request.strategy = .scheduleOnly)
    (hcheck : request.checkListing settings now = .ok ()) :
    (request.listSchedules settings now).Always (request.FollowsPlan settings) := by
  unfold listSchedules
  rw [hcheck, Retrieval.ended_ok_bind]
  apply Retrieval.always_call_bind
  · intro start ending error _
    apply followsPlan_of_two <;> simp [hstrategy, Strategy.plans, Call.stage]
  · intro start ending schedules _
    apply Retrieval.always_ended
    apply followsPlan_of_two <;> simp [hstrategy, Strategy.plans, Call.stage]

/-- What a retrieval does that needs the vector of the query and then some hits. -/
theorem always_embed_search_bind {α : Type} {limit : Nat}
    {φ : List Step → Except RetrievalError α → Prop}
    {f : List Score → List Hit → Retrieval α}
    (hembed : ∀ step error, step.call.stage = .embedding → φ [step] (.error error))
    (hsearch : ∀ first second error, first.call.stage = .embedding →
      second.call.stage = .vectorSearch → second.hits? = none → φ [first, second] (.error error))
    (hf : ∀ first second vector hits, first.call.stage = .embedding →
      second.call.stage = .vectorSearch → second.hits? = some hits →
      (f vector hits).Always fun steps => φ (first :: second :: steps)) :
    (issue settings (.embed request.query) >>= fun vector =>
      issue settings (.vectorSearch request.userId vector limit) >>= fun hits =>
        f vector hits).Always φ := by
  apply Retrieval.always_call_bind
  · exact fun start ending error _ => hembed _ error rfl
  · intro start ending vector _
    apply Retrieval.always_call_bind
    · intro start' ending' error herror
      refine hsearch _ _ error rfl rfl ?_
      simp [Step.hits?, herror, Except.toOption]
    · intro start' ending' hits hhits
      refine hf _ _ vector hits rfl rfl ?_
      simp [Step.hits?, hhits, Except.toOption]

/-- The candidates of a hybrid search are made of the hits of one search. -/
theorem candidates_bind {α : Type} (weight : Score) (f : List SearchResult → Retrieval α) :
    (request.candidates settings weight >>= f) =
      (issue settings (.embed request.query) >>= fun vector =>
        issue settings (.vectorSearch request.userId vector settings.retrieval.hybridLimit) >>=
          fun hits => f (hits.map fun hit => weighted weight (SearchResult.ofHit hit))) := by
  simp only [candidates, embedQuery, bind_assoc, pure_bind]

/-- A hybrid search that is not refused embeds the query and then searches for notes. -/
theorem followsPlan_searchHybrid {weight : Score} {within : Option Range}
    (hplans : request.strategy.plans = [[.embedding, .vectorSearch]])
    (hcheck : checkWithin within = .ok ()) :
    (request.searchHybrid settings weight within).Always (request.FollowsPlan settings) := by
  unfold searchHybrid
  rw [hcheck, Retrieval.ended_ok_bind, candidates_bind]
  apply always_embed_search_bind
  · intro step error hembed
    apply followsPlan_of_two <;> simp [hplans, hembed]
  · intro first second error hembed hsearch _
    apply followsPlan_of_two <;> simp [hplans, hembed, hsearch]
  · intro first second vector hits hembed hsearch _
    apply Retrieval.always_ended
    apply followsPlan_of_two <;> simp [hplans, hembed, hsearch]

/-- A search for notes embeds the query and searches, once more with a greater limit if the first
hits are poor. -/
theorem followsPlan_searchMemos (hstrategy : request.strategy = .memoSemantic) :
    (request.searchMemos settings).Always (request.FollowsPlan settings) := by
  unfold searchMemos embedQuery memoPass
  simp only [bind_assoc, pure_bind]
  apply always_embed_search_bind
  · intro step error hembed
    apply followsPlan_of_two <;> simp [hstrategy, Strategy.plans, hembed]
  · intro first second error hembed hsearch _
    apply followsPlan_of_two <;> simp [hstrategy, Strategy.plans, hembed, hsearch]
  · intro first second vector hits hembed hsearch hhits
    split
    · rename_i hwiden
      have hwidens : ∀ (third : Step) (result : Except RetrievalError (List SearchResult)),
          third.call.stage = .vectorSearch →
          request.FollowsPlan settings [first, second, third] result := by
        intro third result hthird
        apply followsPlan_of_three
        · simp [hstrategy, Strategy.plans, hembed, hsearch, hthird]
        · exact fun _ => ⟨hits, hhits, hwiden⟩
      apply Retrieval.always_call_bind
      · exact fun start ending error _ => hwidens _ _ rfl
      · exact fun start ending answer _ => Retrieval.always_ended (hwidens _ _ rfl)
    · apply Retrieval.always_ended
      apply followsPlan_of_two <;> simp [hstrategy, Strategy.plans, hembed, hsearch]

/-- The full pipeline goes the way of the hybrid search, and asks the reranker at most once, at its
end. -/
theorem followsPlan_searchReranked (hstrategy : request.strategy = .reranked) :
    (request.searchReranked settings rerankerReady).Always (request.FollowsPlan settings) := by
  unfold searchReranked
  simp only [candidates_bind]
  apply always_embed_search_bind
  · intro step error hembed
    apply followsPlan_of_two <;> simp [hstrategy, Strategy.plans, hembed]
  · intro first second error hembed hsearch _
    apply followsPlan_of_two <;> simp [hstrategy, Strategy.plans, hembed, hsearch]
  · intro first second vector hits hembed hsearch _
    split
    · have hreranks : ∀ (third : Step) (result : Except RetrievalError (List SearchResult)),
          third.call.stage = .rerank →
          request.FollowsPlan settings [first, second, third] result := by
        intro third result hthird
        apply followsPlan_of_three
        · simp [hstrategy, Strategy.plans, hembed, hsearch, hthird]
        · intro hagain
          rw [hthird] at hagain
          cases hagain
      apply Retrieval.always_attempt_bind
      intro start ending
      split
      · exact Retrieval.always_ended (hreranks _ _ rfl)
      · split <;> exact Retrieval.always_ended (hreranks _ _ rfl)
    · apply Retrieval.always_ended
      apply followsPlan_of_two <;> simp [hstrategy, Strategy.plans, hembed, hsearch]

/-- The schedules of a range are listed if the range is acceptable. -/
theorem checkListing_eq_ok_iff : request.checkListing settings now = .ok () ↔
    ∀ range, request.range = some range → range.error? now settings.timeRange = .ok none := by
  unfold checkListing
  cases request.range with
  | none => simp
  | some range => cases h : range.error? now settings.timeRange with
    | error fault => simp [h]
    | ok error => cases error <;> simp [h]

/-- A check of a range that is not passed blames no call. -/
theorem stage?_of_checkListing {error : RetrievalError}
    (h : request.checkListing settings now = .error error) : error.stage? = none := by
  unfold checkListing at h
  split at h
  · cases h
  · split at h <;> cases h <;> rfl

/-- A search is made within a range that ends after it starts. -/
theorem checkWithin_eq_ok_iff {within : Option Range} : checkWithin within = .ok () ↔
    ∀ range, within = some range → range.start < range.stop := by
  cases within with
  | none => simp [checkWithin]
  | some range => simp [checkWithin, Range.isWellFormed]

/-- A range that is refused is no failure of any call. -/
theorem stage?_of_checkWithin {within : Option Range} {error : RetrievalError}
    (h : checkWithin within = .error error) : error.stage? = none := by
  unfold checkWithin at h
  split at h
  · cases h
  · split at h <;> cases h
    rfl

/-- A refused request ends without a call, and no call is to blame. -/
theorem retrieve_of_isRefused (rerankerReady : Bool) (h : request.IsRefused settings now) :
    ∃ error, request.retrieve settings rerankerReady now = Retrieval.ended (.error error) := by
  unfold retrieve
  by_cases hlength : settings.queryLimits.maxQueryLength < request.query.toList.length
  · exact ⟨_, if_pos hlength⟩
  · simp only [hlength, if_false]
    have hrange := h.resolve_left hlength
    unfold byStrategy
    split at hrange
    · rename_i range hstrategy hsome
      have hcheck : request.checkListing settings now ≠ .ok () :=
        fun hok => hrange (checkListing_eq_ok_iff.mp hok range hsome)
      cases hlisting : request.checkListing settings now with
      | ok u => exact absurd hlisting hcheck
      | error error =>
        exact ⟨error, by simp [hstrategy, listSchedules, hlisting]⟩
    · rename_i range hstrategy hsome
      have hcheck : checkWithin request.range ≠ .ok () :=
        fun hok => Instant.not_lt.mpr hrange (checkWithin_eq_ok_iff.mp hok range hsome)
      cases hwithin : checkWithin request.range with
      | ok u => exact absurd hwithin hcheck
      | error error =>
        exact ⟨error, by simp [hstrategy, searchHybrid, hwithin]⟩
    · exact hrange.elim

/-- A request that is not refused follows the plan of its strategy. -/
theorem followsPlan_retrieve (h : ¬request.IsRefused settings now) :
    (request.retrieve settings rerankerReady now).Always (request.FollowsPlan settings) := by
  unfold IsRefused at h
  obtain ⟨hlength, hrange⟩ := not_or.mp h
  unfold retrieve
  simp only [hlength, if_false]
  unfold byStrategy
  split
  · rename_i hstrategy
    refine followsPlan_listSchedules hstrategy (checkListing_eq_ok_iff.mpr fun range hsome => ?_)
    simpa [hstrategy, hsome] using hrange
  · rename_i hstrategy
    exact followsPlan_searchMemos hstrategy
  · rename_i hstrategy
    exact followsPlan_searchHybrid (by rw [hstrategy]; rfl) rfl
  · rename_i hstrategy
    refine followsPlan_searchHybrid (by rw [hstrategy]; rfl)
      (checkWithin_eq_ok_iff.mpr fun range hsome => ?_)
    exact Instant.not_le.mp (by simpa only [hstrategy, hsome] using hrange)
  · rename_i hstrategy
    exact followsPlan_searchHybrid (by rw [hstrategy]; rfl) rfl
  · rename_i hstrategy
    exact followsPlan_searchReranked hstrategy

/-- A program that embeds a query and searches is sequential if what follows is. -/
theorem sequential_embed_search_bind {α : Type} {limit : Nat}
    {f : List Score → List Hit → Retrieval α} (hf : ∀ vector hits, (f vector hits).Sequential) :
    (issue settings (.embed request.query) >>= fun vector =>
      issue settings (.vectorSearch request.userId vector limit) >>= fun hits =>
        f vector hits).Sequential :=
  Retrieval.sequential_call_bind (by simp [Call.stage]) fun vector =>
    Retrieval.sequential_call_bind (by simp [Call.stage]) (hf vector)

/-- A search of schedules issues each call after the one before has been answered. -/
theorem sequential_listSchedules : (request.listSchedules settings now).Sequential := by
  unfold listSchedules
  apply Retrieval.sequential_ended_bind
  · exact fun error hcheck => stage?_of_checkListing hcheck
  · intro passed
    exact Retrieval.sequential_call_bind (by simp [Call.stage]) fun _ =>
      Retrieval.sequential_pure _

/-- A search for notes issues each call after the one before has been answered, also in its second
pass. -/
theorem sequential_searchMemos : (request.searchMemos settings).Sequential := by
  unfold searchMemos embedQuery memoPass
  simp only [bind_assoc, pure_bind]
  apply sequential_embed_search_bind
  intro vector hits
  split
  · exact Retrieval.sequential_call_bind (by simp [Call.stage]) fun _ =>
      Retrieval.sequential_pure _
  · exact Retrieval.sequential_pure _

/-- A hybrid search issues each call after the one before has been answered. -/
theorem sequential_searchHybrid {weight : Score} {within : Option Range} :
    (request.searchHybrid settings weight within).Sequential := by
  unfold searchHybrid
  apply Retrieval.sequential_ended_bind
  · exact fun error hcheck => stage?_of_checkWithin hcheck
  · intro passed
    rw [candidates_bind]
    exact sequential_embed_search_bind fun _ _ => Retrieval.sequential_pure _

/-- The full pipeline asks its reranker after the calls before have been answered. -/
theorem sequential_searchReranked :
    (request.searchReranked settings rerankerReady).Sequential := by
  unfold searchReranked
  simp only [candidates_bind]
  apply sequential_embed_search_bind
  intro vector hits
  split
  · apply Retrieval.sequential_attempt_bind rfl
    · exact fun _ => Retrieval.sequential_pure _
    · exact fun error hcancelled => if_pos hcancelled
    · exact fun error hother => ⟨_, if_neg (by simp [hother])⟩
  · exact Retrieval.sequential_pure _

/-- Every request issues its calls one after the other. -/
theorem sequential_retrieve (request : Request) (settings : Settings) (rerankerReady : Bool)
    (now : Instant) : (request.retrieve settings rerankerReady now).Sequential := by
  unfold retrieve
  dsimp only
  split
  · apply Retrieval.sequential_ended
    rintro _ ⟨⟩
    rfl
  · unfold byStrategy
    split
    · exact sequential_listSchedules
    · exact sequential_searchMemos
    · exact sequential_searchHybrid
    · exact sequential_searchHybrid
    · exact sequential_searchHybrid
    · exact sequential_searchReranked

/-- The steps of a request, under any settings and with any collaborators, whenever
the caller cancels. A refused request has none. Any other follows a plan of its
strategy; each call is issued once the one before it has been answered, and the
calls that are started are the first ones of those. An error that names a stage
names that of the last call, and names the reranker only for a cancellation. -/
theorem retrieve_calls (request : Request) (settings : Settings) (rerankerReady : Bool)
    (now : Instant) (world : Collaborators) (cancelAt : Option Nat) :
    let outcome := (request.retrieve settings rerankerReady now).run world cancelAt
    (request.IsRefused settings now → outcome.steps = []) ∧
    (¬request.IsRefused settings now →
      request.FollowsPlan settings outcome.steps outcome.result) ∧
    outcome.steps.IsChain (fun a b => a.isAnswered = true ∧ a.ending.finish = b.start) ∧
    outcome.calls <+: outcome.steps.map (·.call) ∧
    ∀ error stage, outcome.result = .error error → error.stage? = some stage →
      outcome.steps.getLast?.map (·.call.stage) = some stage ∧
      (stage = .rerank → error.isCancelled = true) := by
  intro outcome
  obtain ⟨steps, hsteps, hsequence⟩ :=
    (sequential_retrieve request settings rerankerReady now).runFrom world cancelAt 0 []
  have hsteps : outcome.steps = steps := hsteps
  refine ⟨fun hrefused => ?_, fun haccepted => ?_, ?_, ?_, fun error stage herror hstage => ?_⟩
  · obtain ⟨error, hended⟩ := retrieve_of_isRefused rerankerReady hrefused
    have hrun : outcome = (Retrieval.ended (.error error)).run world cancelAt :=
      congrArg (Retrieval.run · world cancelAt) hended
    rw [hrun]
    rfl
  · exact (followsPlan_retrieve haccepted).run world cancelAt
  · exact hsteps ▸ hsequence.isChain
  · change Step.startedCalls outcome.steps <+: _
    exact hsteps ▸ hsequence.startedCalls_isPrefix
  · refine ⟨hsteps ▸ hsequence.stage_of_error herror hstage, fun hrerank => ?_⟩
    exact hsequence.isCancelled_of_rerank herror (hrerank ▸ hstage)

end Request

end Daybook
