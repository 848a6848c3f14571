import Daybook.Proofs.Retrieval.Ownership

/-!
# How requests end

Collaborators may answer with anything. Whatever they do, the results of a request show
what their entities hold, are not more than the limit allows, and are of the sort that the
strategy promises. An error that blames no call is the refusal that the request met before
the first one.
-/

namespace Daybook

/-- The result of a program satisfies `φ` however its calls end, as long as those that fail do
so with an error of their stage. -/
def Program.Ensures {α : Type} (φ : α → Prop) : Program α → Prop
  | .done result => φ result
  | .await call _ next => ∀ outcome : Except RetrievalError call.Answer,
      (∀ error, outcome = .error error → error.stage? = some call.stage) →
      (next outcome).Ensures φ

/-- What a program ensures holds after every run. -/
theorem Program.Ensures.runFrom {α : Type} {φ : α → Prop} {p : Program α} (hp : p.Ensures φ)
    (world : Collaborators) (cancelAt : Option Nat) (time : Nat) (past : List Step) :
    φ (p.runFrom world cancelAt time past).result := by
  induction p generalizing time past with
  | done result => exact hp
  | await call limitMs next ih =>
    exact ih _ (hp _ fun error herror => Call.stage?_of_ending herror) _ _

namespace Retrieval

variable {α : Type} {φ : Except RetrievalError α → Prop}

/-- What the program of a retrieval ensures. -/
def Ensures (φ : Except RetrievalError α → Prop) (retrieval : Retrieval α) : Prop :=
  (ExceptT.run retrieval).Ensures φ

/-- What a retrieval ensures holds of the result of each of its runs, with any collaborators and
cancelled at any time. -/
theorem Ensures.run {retrieval : Retrieval α} (h : retrieval.Ensures φ) (world : Collaborators)
    (cancelAt : Option Nat) : φ (retrieval.run world cancelAt).result :=
  Program.Ensures.runFrom h world cancelAt 0 []

/-- A retrieval that has ended ensures what holds of its outcome. -/
theorem ensures_ended {outcome : Except RetrievalError α} (h : φ outcome) :
    (ended outcome).Ensures φ := h

/-- A check, before the rest that is done if it is passed. -/
theorem ensures_ended_bind {β : Type} {outcome : Except RetrievalError β} {f : β → Retrieval α}
    (hfailed : ∀ error, outcome = .error error → φ (.error error))
    (hf : ∀ b, (f b).Ensures φ) : (ended outcome >>= f).Ensures φ := by
  cases outcome with
  | ok b => exact hf b
  | error error => exact hfailed error rfl

/-- A call that ends the retrieval if it fails, before the rest. -/
theorem ensures_call_bind {c : Call} {limitMs : Nat} {f : c.Answer → Retrieval α}
    (hfailed : ∀ error, error.stage? = some c.stage → φ (.error error))
    (hf : ∀ answer, (f answer).Ensures φ) : (call c limitMs >>= f).Ensures φ := by
  unfold Ensures
  rw [run_call_bind]
  intro outcome hstage
  cases outcome with
  | ok answer => exact hf answer
  | error error => exact hfailed error (hstage error rfl)

/-- A call that is attempted, before the rest. -/
theorem ensures_attempt_bind {c : Call} {limitMs : Nat}
    {f : Except RetrievalError c.Answer → Retrieval α}
    (hanswer : ∀ answer, (f (.ok answer)).Ensures φ)
    (hfailed : ∀ error, error.stage? = some c.stage → (f (.error error)).Ensures φ) :
    (attempt (call c limitMs) >>= f).Ensures φ := by
  unfold Ensures
  rw [run_attempt_bind]
  intro outcome hstage
  cases outcome with
  | ok answer => exact hanswer answer
  | error error => exact hfailed error (hstage error rfl)

end Retrieval

/-- A result shows the identifier, the kind and the content of its entity. -/
structure SearchResult.IsFaithful (r : SearchResult) : Prop where
  id_eq : r.id = r.entity.id
  kind_eq : r.kind = r.entity.kind
  content_eq : r.content = r.entity.content

/-- A result that is made of an entity shows that entity. -/
theorem SearchResult.isFaithful_ofEntity (entity : Entity) (score : Score) :
    (ofEntity entity score).IsFaithful :=
  ⟨rfl, rfl, rfl⟩

/-- Another score does not matter. -/
theorem SearchResult.IsFaithful.rescore {r : SearchResult} (h : r.IsFaithful) (score : Score) :
    { r with score }.IsFaithful :=
  ⟨h.id_eq, h.kind_eq, h.content_eq⟩

/-- What is shown of a text has at most as many characters as the limit. -/
theorem Text.length_truncate_le (text : String) (limit : Nat) :
    (truncate text limit).toList.length ≤ limit := by
  rw [truncate, String.toList_ofList]
  exact List.length_take_le limit _

namespace Range

variable {range : Range} {now : Instant} {limits : Settings.TimeLimits}

/-- A range that does not end after its start is refused for that before anything else. -/
theorem error?_of_not_isWellFormed (h : range.isWellFormed = false) :
    range.error? now limits = .ok (some (.notAfterStart range.start range.stop)) := by
  unfold error?
  rw [h]
  rfl

/-- A range is refused for its order only if it does not end after its start: what is checked
behind that gives other errors. -/
theorem not_lt_of_error? {start stop : Instant}
    (h : range.error? now limits = .ok (some (.notAfterStart start stop))) :
    ¬range.start < range.stop := by
  intro hordered
  have hformed : range.isWellFormed = true := decide_eq_true hordered
  unfold error? at h
  simp only [hformed, Bool.not_true, Bool.false_eq_true, if_false] at h
  cases hlatest : now.addDays limits.maxFutureDays with
  | error fault =>
    rw [hlatest] at h
    cases h
  | ok latest =>
    rw [hlatest] at h
    change (if latest < range.start then _ else _) = _ at h
    split at h
    · cases h
    · split at h <;> cases h

end Range

namespace Request

variable {request : Request} {settings : Settings} {now : Instant} {rerankerReady : Bool}
  {results : List SearchResult}

/-- What a request promises of its results, whatever the collaborators answer. -/
structure Delivers (request : Request) (settings : Settings) (results : List SearchResult) :
    Prop where
  faithful : ∀ r ∈ results, r.IsFaithful
  /-- Only a listing of schedules is not cut. Zero asks for as many results as are allowed. -/
  limited : request.strategy ≠ .scheduleOnly → results.length ≤
    if request.limit = 0 then settings.queryLimits.maxResults
    else min request.limit settings.queryLimits.maxResults
  /-- A search for notes finds notes with a score that is high enough. -/
  memos : request.strategy = .memoSemantic → ∀ r ∈ results,
    (∃ memo, r.entity = .memo memo) ∧ request.minScore ≤ r.score
  /-- A listing shows schedules, all with the same score, and their descriptions as far as
  these may be shown. -/
  schedules : request.strategy = .scheduleOnly → ∀ r ∈ results, r.score = 1 ∧
    ∃ s, r.entity = .schedule s ∧
      s.description.toList.length ≤ settings.retrieval.maxDescriptionLength
  /-- A search within a range finds no schedule that starts outside it. -/
  within : request.strategy = .hybridTimed → ∀ range, request.range = some range →
    ∀ r ∈ results, ∀ s, r.entity = .schedule s → range.start ≤ s.start ∧ s.start < range.stop

/-- The listing of any schedules keeps what the request promises. -/
theorem delivers_listed (hstrategy : request.strategy = .scheduleOnly)
    (schedules : List Schedule) :
    request.Delivers settings
      (schedules.map (listedResult settings.retrieval.maxDescriptionLength)) where
  faithful r hr := by
    obtain ⟨s, -, rfl⟩ := List.mem_map.mp hr
    exact SearchResult.isFaithful_ofEntity _ _
  limited hother := absurd hstrategy hother
  memos h := by simp [hstrategy] at h
  schedules _ r hr := by
    obtain ⟨s, -, rfl⟩ := List.mem_map.mp hr
    exact ⟨rfl, _, rfl, Text.length_truncate_le _ _⟩
  within h := by simp [hstrategy] at h

/-- The results for the notes among any hits show these notes. -/
theorem of_mem_memoResults {hits : List Hit} {r : SearchResult} (h : r ∈ memoResults hits) :
    r.IsFaithful ∧ ∃ memo, r.entity = .memo memo := by
  obtain ⟨⟨entity, score⟩, hhit, rfl⟩ := List.mem_map.mp h
  refine ⟨SearchResult.isFaithful_ofEntity _ _, ?_⟩
  have hkind := (List.mem_filter.mp hhit).2
  cases entity with
  | memo memo => exact ⟨memo, rfl⟩
  | schedule schedule => cases hkind

/-- What is selected of notes keeps what the request promises. -/
theorem delivers_selectMemos (hstrategy : request.strategy = .memoSemantic)
    (h : ∀ r ∈ results, r.IsFaithful ∧ ∃ memo, r.entity = .memo memo) :
    request.Delivers settings
      (request.selectMemos (request.resultLimit settings) results) where
  faithful r hr := (h r (List.mem_filter.mp (List.mem_of_mem_take hr)).1).1
  limited _ := List.length_take_le _ _
  memos _ r hr := by
    obtain ⟨hmem, hscore⟩ := List.mem_filter.mp (List.mem_of_mem_take hr)
    exact ⟨(h r hmem).2, of_decide_eq_true hscore⟩
  schedules hlisting := by simp [hstrategy] at hlisting
  within hother := by simp [hstrategy] at hother

/-- The first results of a hybrid search keep what the request promises, if those of a search
within a range are in it. -/
theorem delivers_take (hhybrid : request.strategy.isHybrid = true)
    (hfaithful : ∀ r ∈ results, r.IsFaithful)
    (hwithin : request.strategy = .hybridTimed → ∀ range, request.range = some range →
      ∀ r ∈ results, startsWithin range r = true) :
    request.Delivers settings (results.take (request.resultLimit settings)) where
  faithful r hr := hfaithful r (List.mem_of_mem_take hr)
  limited _ := List.length_take_le _ _
  memos h := by simp [h, Strategy.isHybrid] at hhybrid
  schedules h := by simp [h, Strategy.isHybrid] at hhybrid
  within hstrategy range hrange r hr s hs := by
    have hstart := hwithin hstrategy range hrange r (List.mem_of_mem_take hr)
    simpa [startsWithin, SearchResult.scheduleStart?, hs, Entity.schedule?, Range.contains]
      using hstart

/-- What is checked before any call: the length of the query, and the range as far as the
strategy looks at it. -/
def accept (request : Request) (settings : Settings) (now : Instant) :
    Except RetrievalError Unit :=
  let length := request.query.toList.length
  let limit := settings.queryLimits.maxQueryLength
  if limit < length then .error (.queryTooLong length limit)
  else
    match request.strategy with
    | .scheduleOnly => request.checkListing settings now
    | .hybridTimed => checkWithin request.range
    | _ => .ok ()

/-- A refusal says what is wrong: the query is longer than it may be, or the range has an
error, or its limits lead out of the calendar. -/
theorem of_accept_error {error : RetrievalError} (h : request.accept settings now = .error error) :
    (settings.queryLimits.maxQueryLength < request.query.toList.length ∧
      error = .queryTooLong request.query.toList.length settings.queryLimits.maxQueryLength) ∨
    (∃ range reason, request.range = some range ∧
      range.error? now settings.timeRange = .ok (some reason) ∧ error = .invalidRange reason) ∨
    ∃ fault, error = .fault fault := by
  unfold accept at h
  dsimp only at h
  split at h
  · rename_i hlong
    cases h
    exact .inl ⟨hlong, rfl⟩
  · refine .inr ?_
    split at h
    · unfold checkListing at h
      split at h
      · cases h
      · rename_i range hrange
        split at h
        · cases h
          exact .inr ⟨_, rfl⟩
        · rename_i reason hreason
          cases h
          exact .inl ⟨range, reason, hrange, hreason, rfl⟩
        · cases h
    · unfold checkWithin at h
      split at h
      · cases h
      · rename_i range hrange
        split at h
        · cases h
        · rename_i hformed
          cases h
          exact .inl ⟨range, _, hrange,
            Range.error?_of_not_isWellFormed (Bool.eq_false_iff.mpr hformed), rfl⟩
    · cases h

/-- How a request ends: with results as it promises, or with the error of a call, or with the
refusal that it met before any call. -/
def Concludes (request : Request) (settings : Settings) (now : Instant) :
    Except RetrievalError (List SearchResult) → Prop
  | .ok results => request.Delivers settings results
  | .error error => error.stage? = none → request.accept settings now = .error error

/-- The error of a call blames that call. -/
theorem concludes_of_stage? {error : RetrievalError} {stage : Stage}
    (h : error.stage? = some stage) : request.Concludes settings now (.error error) := by
  intro hnone
  rw [h] at hnone
  cases hnone

/-- A search that needs the vector of the query and some hits, before the rest. -/
theorem ensures_embed_search_bind {limit : Nat}
    {f : List Score → List Hit → Retrieval (List SearchResult)}
    (hf : ∀ vector hits, (f vector hits).Ensures (request.Concludes settings now)) :
    (issue settings (.embed request.query) >>= fun vector =>
      issue settings (.vectorSearch request.userId vector limit) >>= fun hits =>
        f vector hits).Ensures (request.Concludes settings now) :=
  Retrieval.ensures_call_bind (fun _ => concludes_of_stage?) fun vector =>
    Retrieval.ensures_call_bind (fun _ => concludes_of_stage?) (hf vector)

/-- A search of schedules comes to the conclusion that its strategy promises. -/
theorem ensures_listSchedules (hstrategy : request.strategy = .scheduleOnly)
    (haccept : request.accept settings now = request.checkListing settings now) :
    (request.listSchedules settings now).Ensures (request.Concludes settings now) := by
  unfold listSchedules
  apply Retrieval.ensures_ended_bind
  · exact fun error hcheck _ => haccept.trans hcheck
  · intro passed
    apply Retrieval.ensures_call_bind fun _ => concludes_of_stage?
    exact fun schedules => Retrieval.ensures_ended (delivers_listed hstrategy schedules)

/-- A search for notes comes to the conclusion that its strategy promises. -/
theorem ensures_searchMemos (hstrategy : request.strategy = .memoSemantic) :
    (request.searchMemos settings).Ensures (request.Concludes settings now) := by
  unfold searchMemos embedQuery memoPass
  simp only [bind_assoc, pure_bind]
  apply ensures_embed_search_bind
  intro vector first
  split
  · apply Retrieval.ensures_call_bind fun _ => concludes_of_stage?
    intro second
    apply Retrieval.ensures_ended
    refine delivers_selectMemos hstrategy fun r hr => ?_
    exact (SearchResult.mem_or_mem_of_mem_merge hr).elim of_mem_memoResults of_mem_memoResults
  · exact Retrieval.ensures_ended
      (delivers_selectMemos hstrategy fun r => of_mem_memoResults)

/-- The candidates of a hybrid search show the entities that were hit. -/
theorem isFaithful_of_mem_weighted {hits : List Hit} {weight : Score} {r : SearchResult}
    (h : r ∈ hits.map fun hit => weighted weight (SearchResult.ofHit hit)) : r.IsFaithful := by
  obtain ⟨hit, -, rfl⟩ := List.mem_map.mp h
  exact (SearchResult.isFaithful_ofEntity _ _).rescore _

/-- A hybrid search does so too, filtered by the range where the strategy asks for it, if a range
that it refuses is refused by the strategy. -/
theorem ensures_searchHybrid {weight : Score} {within : Option Range}
    (hhybrid : request.strategy.isHybrid = true)
    (hwithin : request.strategy = .hybridTimed → within = request.range)
    (haccept : ∀ error, checkWithin within = .error error →
      request.accept settings now = .error error) :
    (request.searchHybrid settings weight within).Ensures (request.Concludes settings now) := by
  unfold searchHybrid
  apply Retrieval.ensures_ended_bind
  · exact fun error hcheck _ => haccept error hcheck
  · intro passed
    rw [candidates_bind]
    apply ensures_embed_search_bind
    intro vector hits
    apply Retrieval.ensures_ended
    apply delivers_take hhybrid
    · exact fun r hr => isFaithful_of_mem_weighted (List.mem_filter.mp hr).1
    · intro htimed range hrange r hr
      have hkept := (List.mem_filter.mp hr).2
      rwa [hwithin htimed, hrange] at hkept

/-- The full pipeline comes to the same kind of conclusion, whatever the reranker answers. -/
theorem ensures_searchReranked (hstrategy : request.strategy = .reranked) :
    (request.searchReranked settings rerankerReady).Ensures (request.Concludes settings now) := by
  have hdelivers : ∀ {results : List SearchResult}, (∀ r ∈ results, r.IsFaithful) →
      request.Delivers settings (results.take (request.resultLimit settings)) :=
    fun hfaithful => delivers_take (by rw [hstrategy]; rfl) hfaithful (by simp [hstrategy])
  unfold searchReranked
  simp only [candidates_bind]
  apply ensures_embed_search_bind
  intro vector hits
  split
  · apply Retrieval.ensures_attempt_bind
    · intro reranked
      apply Retrieval.ensures_ended
      refine hdelivers fun r hr => ?_
      obtain ⟨candidate, hcandidate, hr⟩ := mem_of_mem_rerankedFrom hr
      rw [hr]
      exact (isFaithful_of_mem_weighted hcandidate).rescore _
    · intro error hstage
      dsimp only
      split
      · exact Retrieval.ensures_ended (concludes_of_stage? hstage)
      · exact Retrieval.ensures_ended (hdelivers fun r => isFaithful_of_mem_weighted)
  · exact Retrieval.ensures_ended (hdelivers fun r => isFaithful_of_mem_weighted)

/-- Every request ends as its strategy says. -/
theorem ensures_retrieve (request : Request) (settings : Settings) (rerankerReady : Bool)
    (now : Instant) :
    (request.retrieve settings rerankerReady now).Ensures (request.Concludes settings now) := by
  unfold retrieve
  dsimp only
  split
  · rename_i hlong
    exact Retrieval.ensures_ended fun _ => if_pos hlong
  · rename_i hshort
    unfold byStrategy
    split
    · rename_i hstrategy
      exact ensures_listSchedules hstrategy (by simp [accept, hshort, hstrategy])
    · rename_i hstrategy
      exact ensures_searchMemos hstrategy
    · rename_i hstrategy
      refine ensures_searchHybrid (by rw [hstrategy]; rfl) (by simp [hstrategy]) ?_
      exact fun error hcheck => by cases hcheck
    · rename_i hstrategy
      refine ensures_searchHybrid (by rw [hstrategy]; rfl) (fun _ => rfl) ?_
      exact fun error hcheck => by simpa [accept, hshort, hstrategy] using hcheck
    · rename_i hstrategy
      refine ensures_searchHybrid (by rw [hstrategy]; rfl) (by simp [hstrategy]) ?_
      exact fun error hcheck => by cases hcheck
    · rename_i hstrategy
      exact ensures_searchReranked hstrategy

section Refused

variable {world : Collaborators} {cancelAt : Option Nat}

/-- A request that fails without a call to blame is too long, or its range has an error, or
the limits of the range lead out of the calendar. -/
theorem of_result_error {error : RetrievalError}
    (h : ((request.retrieve settings rerankerReady now).run world cancelAt).result = .error error)
    (hstage : error.stage? = none) :
    (settings.queryLimits.maxQueryLength < request.query.toList.length ∧
      error = .queryTooLong request.query.toList.length settings.queryLimits.maxQueryLength) ∨
    (∃ range reason, request.range = some range ∧
      range.error? now settings.timeRange = .ok (some reason) ∧ error = .invalidRange reason) ∨
    ∃ fault, error = .fault fault := by
  have hends := (ensures_retrieve request settings rerankerReady now).run world cancelAt
  rw [h] at hends
  exact of_accept_error (hends hstage)

/-- A query that is short enough is not refused for its length. -/
theorem result_ne_queryTooLong
    (hshort : request.query.toList.length ≤ settings.queryLimits.maxQueryLength)
    (length limit : Nat) :
    ((request.retrieve settings rerankerReady now).run world cancelAt).result ≠
      .error (.queryTooLong length limit) := by
  intro hresult
  rcases of_result_error hresult rfl with ⟨hlong, -⟩ | ⟨_, _, -, -, herror⟩ | ⟨_, herror⟩
  · exact Nat.not_le_of_lt hlong hshort
  · cases herror
  · cases herror

/-- A range that ends after its start is not refused for that. -/
theorem result_ne_notAfterStart
    (hordered : ∀ range, request.range = some range → range.start < range.stop)
    (start stop : Instant) :
    ((request.retrieve settings rerankerReady now).run world cancelAt).result ≠
      .error (.invalidRange (.notAfterStart start stop)) := by
  intro hresult
  rcases of_result_error hresult rfl with ⟨-, herror⟩ | ⟨range, _, hrange, hreason, herror⟩ |
    ⟨_, herror⟩
  · cases herror
  · cases herror
    exact Range.not_lt_of_error? hreason (hordered range hrange)
  · cases herror

end Refused

/-- The results of a request are as it promises, under any settings and with any
collaborators, whenever the caller cancels. -/
theorem retrieve_delivers (request : Request) (settings : Settings) (rerankerReady : Bool)
    (now : Instant) (world : Collaborators) (cancelAt : Option Nat) (results : List SearchResult)
    (h : ((request.retrieve settings rerankerReady now).run world cancelAt).result =
      .ok results) : request.Delivers settings results := by
  have hends := (ensures_retrieve request settings rerankerReady now).run world cancelAt
  rw [h] at hends
  exact hends

/-- A store that finds a schedule of another day, and one note twice, at first with a score
that is no number. -/
def disorderly : Collaborators
  | _, .embed _ => ⟨some 0, .ok []⟩
  | _, .vectorSearch .. => ⟨some 0, .ok
      [⟨.schedule ⟨1, 2, "Holiday", "", .midnight .last, none⟩, 1⟩,
        ⟨.memo ⟨2, 1, "Minutes", .midnight .first⟩, 0 / 0⟩,
        ⟨.memo ⟨2, 1, "Minutes", .midnight .first⟩, 1⟩,
        ⟨.schedule ⟨3, 1, "Meeting", "", .midnight .first, none⟩, 1⟩]⟩
  | _, _ => ⟨none, .error (.unavailable "")⟩

/-- The schedule goes, and of the rest there are as many as are asked for. -/
theorem retrieve_delivers_in_disorder :
    let day : Range := ⟨.midnight .first, ⟨.first, 3600, 0, by decide, by decide⟩, "day"⟩
    let request : Request := ⟨"meeting", 1, .hybridTimed, some day, 0, 2, .standard, ""⟩
    let settings := Settings.default ""
    ∃ results, ((request.retrieve settings false (.midnight .first)).run disorderly none).result =
      .ok results ∧ results.map (·.id) = [2, 2] ∧ request.Delivers settings results := by
  intro day request settings
  have hids : (((request.retrieve settings false (.midnight .first)).run disorderly
      none).result.toOption.map fun results => results.map (·.id)) = some [2, 2] := by
    decide +kernel
  cases hresult : ((request.retrieve settings false (.midnight .first)).run disorderly
      none).result with
  | error error =>
    rw [hresult] at hids
    cases hids
  | ok results =>
    rw [hresult] at hids
    exact ⟨results, rfl, Option.some.inj hids,
      retrieve_delivers request settings false (.midnight .first) disorderly none results hresult⟩

end Request

end Daybook
