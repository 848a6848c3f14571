import Daybook.Proofs.Records.Search
import Daybook.Proofs.Retrieval.Merge
import Daybook.Proofs.Retrieval.Runs
import Daybook.Retrieval.Request
import Daybook.Settings.Check

/-!
# What a search for notes finds

A search for notes looks at the best records of the user, schedules among them, and then
keeps the notes. It finds the best notes as far as these are among the records that it
looks at; how many that are depends on the limits of the settings and on the quality of
the first pass.
-/

namespace Daybook

/-- Collaborators that answer in time: the embedder with a vector, the store with what it
finds. -/
structure Collaborators.Serve (world : Collaborators) (store : Store) (vector : List Score)
    (limitMs : Nat) : Prop where
  embeds : ∀ past text, ∃ delay, delay ≤ limitMs ∧
    world past (.embed text) = ⟨some delay, .ok vector⟩
  searches : ∀ past user query limit, ∃ delay, delay ≤ limitMs ∧
    world past (.vectorSearch user query limit) = ⟨some delay, store.search user query limit⟩

/-- The collaborators of a store that answer at once, the embedder with a fixed vector. -/
def Store.collaborators (store : Store) (vector : List Score) : Collaborators
  | _, .embed _ => ⟨some 0, .ok vector⟩
  | _, .vectorSearch user query limit => ⟨some 0, store.search user query limit⟩
  | _, .listSchedules user range mode => ⟨some 0, .ok (store.schedules user range mode)⟩
  | _, .rerank .. => ⟨some 0, .ok []⟩

/-- The collaborators over a store answer from the store, in no time. -/
theorem Store.serve_collaborators (store : Store) (vector : List Score) (limitMs : Nat) :
    (store.collaborators vector).Serve store vector limitMs where
  embeds _ _ := ⟨0, Nat.zero_le _, rfl⟩
  searches _ _ _ _ := ⟨0, Nat.zero_le _, rfl⟩

namespace Request

variable {request : Request} {settings : Settings} {hits : List Hit}

/-- Whether the score of a hit is high enough for a request, and the hit is a note. -/
def wants (request : Request) (hit : Hit) : Bool :=
  request.minScore ≤ hit.score && hit.entity.kind == .memo

/-- How many of some ranked hits a search for notes looks at. -/
def reach (request : Request) (settings : Settings) (ranked : List Hit) : Nat :=
  let limit := request.resultLimit settings
  let sizes := settings.retrieval
  let first := max sizes.vectorLimit limit
  if Quality.ofResults settings.scoring (memoResults (ranked.take first)) = .medium ∧
    sizes.vectorLimit < limit
  then max first sizes.expandLimit
  else first

/-- A search for notes reaches at least as far as its results. -/
theorem resultLimit_le_reach (request : Request) (settings : Settings) (ranked : List Hit) :
    request.resultLimit settings ≤ request.reach settings ranked := by
  unfold reach
  dsimp only
  split <;> omega

/-- The results for the first hits are the first results. -/
theorem memoResults_take_isPrefix {m n : Nat} (h : m ≤ n) :
    memoResults (hits.take m) <+: memoResults (hits.take n) :=
  ((List.take_prefix_take_left h).filter _).map _

/-- The notes that are wanted among some hits. -/
theorem selectMemos_memoResults (limit : Nat) :
    request.selectMemos limit (memoResults hits) =
      ((hits.filter request.wants).take limit).map SearchResult.ofHit := by
  unfold selectMemos memoResults
  rw [List.filter_map, List.filter_filter, List.map_take]
  rfl

/-- What is known of the hits of a user, ranked: their scores are numbers, and the notes
among them have different identifiers. -/
structure Ranked (hits : List Hit) : Prop where
  numbers : ∀ hit ∈ hits, hit.score.isNaN = false
  descends : hits.Pairwise fun a b => b.score.place ≤ a.score.place
  ids : ((memoResults hits).map SearchResult.id).Nodup

/-- The first of some ranked hits are ranked. -/
theorem Ranked.take (h : Ranked hits) (n : Nat) : Ranked (hits.take n) where
  numbers hit hmem := h.numbers hit (List.mem_of_mem_take hmem)
  descends := h.descends.sublist (List.take_sublist n hits)
  ids := by
    have hinitial : memoResults (hits.take n) <+: memoResults hits :=
      ((List.take_prefix n hits).filter _).map _
    exact h.ids.sublist (hinitial.sublist.map _)

/-- The scores of the notes among ranked hits are numbers. -/
theorem Ranked.numbers_memoResults (h : Ranked hits) :
    ∀ r ∈ memoResults hits, r.score.isNaN = false := by
  intro r hr
  obtain ⟨hit, hhit, rfl⟩ := List.mem_map.mp hr
  exact h.numbers hit (List.mem_filter.mp hhit).1

/-- The notes among ranked hits come in descending order of their scores. -/
theorem Ranked.descends_memoResults (h : Ranked hits) :
    (memoResults hits).Pairwise fun a b => b.score.place ≤ a.score.place :=
  List.pairwise_map.mpr (h.descends.filter _)

/-- A cut before the scores are looked at makes no difference to the first results. -/
theorem selectMemos_take (request : Request) {results : List SearchResult} (limit : Nat)
    (hnumbers : ∀ r ∈ results, r.score.isNaN = false)
    (hdescends : results.Pairwise fun a b => b.score.place ≤ a.score.place) :
    request.selectMemos limit (results.take limit) = request.selectMemos limit results :=
  Score.take_filter_take (Score.filter_least_isPrefix hnumbers hdescends request.minScore)
    (Nat.le_refl limit)

/-- Two passes over the same ranked hits select what one pass over more of them does. -/
theorem selectMemos_merge (h : Ranked hits) {limit m n : Nat} (hlimit : 0 < limit) :
    request.selectMemos limit
        (SearchResult.merge (memoResults (hits.take m)) (memoResults (hits.take n)) limit) =
      request.selectMemos limit (memoResults (hits.take (max m n))) := by
  have hpart := h.take (max m n)
  have hselect := selectMemos_take request limit hpart.numbers_memoResults
    hpart.descends_memoResults
  rcases Nat.le_total m n with hle | hle
  · rw [Nat.max_eq_right hle] at hpart hselect ⊢
    rw [(SearchResult.merge_of_isPrefix hlimit hpart.ids hpart.numbers_memoResults
      hpart.descends_memoResults (memoResults_take_isPrefix hle)).1, hselect]
  · rw [Nat.max_eq_left hle] at hpart hselect ⊢
    rw [(SearchResult.merge_of_isPrefix hlimit hpart.ids hpart.numbers_memoResults
      hpart.descends_memoResults (memoResults_take_isPrefix hle)).2, hselect]

/-- A search for notes selects from the ranked hits that it looks at. -/
theorem yields_searchMemos {world : Collaborators} {vector : List Score}
    (hembed : (Call.embed request.query).AnsweredBy world settings.retrieval.callTimeoutMs vector)
    (hsearch : ∀ limit, (Call.vectorSearch request.userId vector limit).AnsweredBy world
      settings.retrieval.callTimeoutMs (hits.take limit))
    (h : Ranked hits) :
    (request.searchMemos settings).Yields world (.ok (request.selectMemos
      (request.resultLimit settings) (memoResults (hits.take (request.reach settings hits))))) := by
  unfold searchMemos embedQuery memoPass reach
  simp only [bind_assoc, pure_bind]
  apply Retrieval.yields_call_bind hembed
  apply Retrieval.yields_call_bind (hsearch _)
  split
  · rename_i hwiden
    apply Retrieval.yields_call_bind (hsearch _)
    rw [selectMemos_merge h (Nat.lt_of_le_of_lt (Nat.zero_le _) hwiden.2)]
    exact Retrieval.yields_pure _
  · exact Retrieval.yields_pure _

/-- The hits of a user are ranked by their order, if their scores are numbers and the notes
of the user have different identifiers. -/
theorem ranked_byScore {store : Store} {user : Int} {vector : List Score}
    (hnumbers : ∀ hit ∈ store.scored user vector, hit.score.isNaN = false)
    (hids : ((store.memos user).map Entity.id).Nodup) :
    Ranked (Hit.byScore (store.scored user vector)) where
  numbers hit hhit := hnumbers hit (Hit.mem_byScore.mp hhit)
  descends := (Hit.ranks_byScore hnumbers).descends
  ids := by
    have hentities : ∀ hits : List Hit, (memoResults hits).map SearchResult.id =
        ((hits.map (·.entity)).filter (·.kind == .memo)).map Entity.id := by
      intro hits
      simp only [memoResults, List.filter_map, List.map_map]
      rfl
    have hperm := (((Hit.perm_byScore (store.scored user vector)).map (·.entity)).filter
      (·.kind == .memo)).map Entity.id
    rw [hentities, hperm.nodup_iff]
    exact hids.sublist ((store.filter_scored_sublist user vector).map Entity.id)

/-- The wanted hits among the first ones are the first of the wanted hits. -/
theorem filter_wants_take (request : Request)
    (hnumbers : ∀ hit ∈ hits, hit.score.isNaN = false) (n : Nat) :
    ((Hit.byScore hits).take n).filter request.wants =
      (Hit.byScore (hits.filter request.wants)).take
        (((Hit.byScore hits).take n).countP request.wants) := by
  have hinitial := (List.take_prefix n (Hit.byScore hits)).filter request.wants
  rw [Hit.filter_byScore hnumbers] at hinitial
  rw [List.countP_eq_length_filter]
  exact List.prefix_iff_eq_take.mp hinitial

/-- Where all hits are notes, the first ones hold as many wanted hits as are asked for. -/
theorem take_filter_wants (request : Request)
    (hnumbers : ∀ hit ∈ hits, hit.score.isNaN = false)
    (hmemos : ∀ hit ∈ hits, hit.entity.kind = .memo) {k n : Nat} (hk : k ≤ n) :
    (((Hit.byScore hits).take n).filter request.wants).take k =
      (Hit.byScore (hits.filter request.wants)).take k := by
  have hordered : ∀ hit ∈ Hit.byScore hits, hit.score.isNaN = false :=
    fun hit hhit => hnumbers hit (Hit.mem_byScore.mp hhit)
  have hwants : (Hit.byScore hits).filter request.wants =
      (Hit.byScore hits).filter fun hit => request.minScore ≤ hit.score := by
    refine List.filter_congr fun hit hhit => ?_
    simp [wants, hmemos hit (Hit.mem_byScore.mp hhit)]
  have hinitial := Score.filter_least_isPrefix hordered (Hit.ranks_byScore hnumbers).descends
    request.minScore
  rw [← hwants] at hinitial
  rw [Score.take_filter_take hinitial hk, Hit.filter_byScore hnumbers]

/-- The result of a search for notes over a store, with collaborators that do not fail. -/
theorem run_memoSemantic (rerankerReady : Bool) (now : Instant) {world : Collaborators}
    {store : Store} {vector : List Score} (hstrategy : request.strategy = .memoSemantic)
    (hlength : request.query.toList.length ≤ settings.queryLimits.maxQueryLength)
    (hserve : world.Serve store vector settings.retrieval.callTimeoutMs)
    (hsearch : ∀ limit, (store.search request.userId vector limit).isOk = true)
    (hnumbers : ∀ hit ∈ store.scored request.userId vector, hit.score.isNaN = false)
    (hids : ((store.memos request.userId).map Entity.id).Nodup) :
    let ranked := Hit.byScore (store.scored request.userId vector)
    ((request.retrieve settings rerankerReady now).run world none).result =
      .ok (request.selectMemos (request.resultLimit settings)
        (memoResults (ranked.take (request.reach settings ranked)))) := by
  intro ranked
  have hretrieve : request.retrieve settings rerankerReady now = request.searchMemos settings := by
    unfold retrieve byStrategy
    simp only [hstrategy, Nat.not_lt.mpr hlength, if_false]
  rw [hretrieve]
  refine (yields_searchMemos (fun past => hserve.embeds past request.query)
    (fun limit past => ?_) (ranked_byScore hnumbers hids)).run
  have hfound := Store.search_of_isOk (hsearch limit)
  rw [Hit.rank_eq_byScore hnumbers] at hfound
  obtain ⟨delay, hdelay, hreply⟩ := hserve.searches past request.userId vector limit
  exact ⟨delay, hdelay, hreply.trans (by rw [hfound])⟩

/-- A search for notes over a store, with collaborators that do not fail. It finds the best
of the notes that are wanted, in order and up to the limit, as far as these are among the
hits that it looks at. These are enough just if as many wanted notes are among them as are
asked for and there; if no schedule of the user has a vector, they are. -/
theorem retrieve_memoSemantic (request : Request) (settings : Settings) (rerankerReady : Bool)
    (now : Instant) (world : Collaborators) (store : Store) (vector : List Score)
    (hstrategy : request.strategy = .memoSemantic)
    (hlength : request.query.toList.length ≤ settings.queryLimits.maxQueryLength)
    (hserve : world.Serve store vector settings.retrieval.callTimeoutMs)
    (hsearch : ∀ limit, (store.search request.userId vector limit).isOk = true)
    (hnumbers : ∀ hit ∈ store.scored request.userId vector, hit.score.isNaN = false)
    (hids : ((store.memos request.userId).map Entity.id).Nodup) :
    let limit := request.resultLimit settings
    let hits := store.scored request.userId vector
    let ranked := Hit.byScore hits
    let best := Hit.byScore (hits.filter request.wants)
    let near := (ranked.take (request.reach settings ranked)).countP request.wants
    let result := ((request.retrieve settings rerankerReady now).run world none).result
    result = .ok ((best.take (min limit near)).map SearchResult.ofHit) ∧
    (result = .ok ((best.take limit).map SearchResult.ofHit) ↔ min limit best.length ≤ near) ∧
    ((∀ hit ∈ hits, hit.entity.kind = .memo) → min limit best.length ≤ near) := by
  intro limit hits ranked best near result
  have hfilter : (ranked.take (request.reach settings ranked)).filter request.wants =
      best.take near :=
    filter_wants_take request hnumbers _
  have hresult : result = .ok ((best.take (min limit near)).map SearchResult.ofHit) := by
    have hrun : result = _ :=
      run_memoSemantic rerankerReady now hstrategy hlength hserve hsearch hnumbers hids
    rw [hrun, selectMemos_memoResults, hfilter, List.take_take]
  refine ⟨hresult, ?_, fun hmemos => ?_⟩
  · rw [hresult]
    constructor
    · intro hequal
      have hlengths := congrArg List.length (Except.ok.inj hequal)
      simp only [List.length_map, List.length_take] at hlengths
      omega
    · intro hnear
      have htake : best.take (min limit near) = best.take limit :=
        List.take_eq_take_iff.mpr (by omega)
      rw [htake]
  · have henough : (best.take near).take limit = best.take limit :=
      hfilter ▸ take_filter_wants request hnumbers hmemos (resultLimit_le_reach _ _ _)
    have hlengths := congrArg List.length henough
    simp only [List.length_take] at hlengths
    omega

/-- A store in which a schedule was added before a note with the same vector. -/
def crowdedStore : Store :=
  (({} : Store).addSchedule ⟨1, 1, "Meeting", "", .midnight .first, none⟩ (some [1])).addMemo
    ⟨2, 1, "Minutes of the meeting", .midnight .first⟩ [1]

/-- A request for some notes. -/
def notesRequest (limit : Nat) : Request where
  query := "meeting"
  userId := 1
  strategy := .memoSemantic
  range := none
  minScore := 0
  limit
  mode := .standard
  requestId := ""

/-- Settings with the smallest first pass. -/
def narrowSettings : Settings := { Settings.default "" with retrieval := { vectorLimit := 1 } }

/-- The note is the best one that is wanted, and is not found: the schedule comes before it
among the hits, and the search looks at one hit only. -/
theorem note_displaced_by_schedule :
    let hits := crowdedStore.scored 1 [1]
    let best := Hit.byScore (hits.filter (notesRequest 1).wants)
    let world := crowdedStore.collaborators [1]
    let result :=
      (((notesRequest 1).retrieve narrowSettings false (.midnight .first)).run world none).result
    narrowSettings.isValid = true ∧
    world.Serve crowdedStore [1] narrowSettings.retrieval.callTimeoutMs ∧
    (∀ limit, (crowdedStore.search 1 [1] limit).isOk = true) ∧
    (∀ hit ∈ hits, hit.score.isNaN = false) ∧
    ((crowdedStore.memos 1).map Entity.id).Nodup ∧
    (notesRequest 1).resultLimit narrowSettings = 1 ∧ best.length = 1 ∧
    result ≠ .ok ((best.take 1).map SearchResult.ofHit) := by
  intro hits best world result
  have hbest : best.length = 1 := by
    rw [Hit.length_byScore]
    decide +kernel
  have hresult : result.toOption.map List.length = some 0 := by decide +kernel
  refine ⟨by decide +kernel, Store.serve_collaborators _ _ _, fun limit => rfl, by decide +kernel,
    by decide +kernel, by decide +kernel, hbest, fun hequal => ?_⟩
  rw [hequal] at hresult
  simp [Except.toOption, hbest] at hresult

/-- With two notes asked for, the search looks far enough to find the note. It is evaluated with
the ranking by insertion. -/
theorem retrieve_memoSemantic_behind_schedule :
    let world := crowdedStore.collaborators [1]
    (notesRequest 2).strategy = .memoSemantic ∧
    ((((notesRequest 2).retrieve narrowSettings false (.midnight .first)).run world
      none).result.toOption.map fun results => results.map (·.id)) = some [2] := by
  intro world
  let hits := crowdedStore.scored (notesRequest 2).userId [1]
  have hnumbers : ∀ hit ∈ hits, hit.score.isNaN = false := by decide +kernel
  have hwanted : ∀ hit ∈ hits.filter (notesRequest 2).wants, hit.score.isNaN = false :=
    fun hit hhit => hnumbers hit (List.mem_filter.mp hhit).1
  have hfound := (retrieve_memoSemantic (notesRequest 2) narrowSettings false (.midnight .first)
    world crowdedStore [1] rfl (by decide +kernel) (Store.serve_collaborators _ _ _)
    (fun limit => rfl) hnumbers (by decide +kernel)).1
  rw [← Hit.rank_eq_byScore hnumbers, ← Hit.rank_eq_byScore hwanted] at hfound
  refine ⟨rfl, ?_⟩
  rw [hfound]
  decide +kernel

end Request

end Daybook
