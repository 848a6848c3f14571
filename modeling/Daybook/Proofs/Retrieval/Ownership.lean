import Daybook.Proofs.Records.Listing
import Daybook.Proofs.Records.Search
import Daybook.Proofs.Retrieval.CallOrder
import Daybook.Proofs.Retrieval.Contract
import Daybook.Proofs.Retrieval.Merge

/-!
# Whose records a request sees

A request asks the store for records of its own user only, and what it does with them
depends on nothing else in the store. So it goes on in the same way whatever other users
keep there, and all its results are records of its user.
-/

namespace Daybook

/-- Calls for a user alone, answered with records of that user alone. -/
def Contract.ofUser (user : Int) : Contract where
  asks
    | .vectorSearch owner .. | .listSchedules owner .. => owner = user
    | .embed _ | .rerank .. => True
  gives
    | .vectorSearch .., hits => ∀ hit ∈ hits, hit.entity.owner = user
    | .listSchedules .., schedules => ∀ s ∈ schedules, s.creatorId = user
    | .embed _, _ | .rerank .., _ => True

/-- All results, if there are any, are records of a user. -/
def OwnedBy (user : Int) (result : Except RetrievalError (List SearchResult)) : Prop :=
  ∀ results, result = .ok results → ∀ r ∈ results, r.entity.owner = user

variable {user : Int}

/-- An error gives away no record. -/
theorem ownedBy_error (error : RetrievalError) : OwnedBy user (.error error) := by
  intro results h
  cases h

/-- Results are owned by a user if each of their entities is. -/
theorem ownedBy_ok {results : List SearchResult} (h : ∀ r ∈ results, r.entity.owner = user) :
    OwnedBy user (.ok results) := by
  rintro _ ⟨⟩
  exact h

namespace Request

variable {request : Request} {settings : Settings} {now : Instant} {rerankerReady : Bool}
  {results : List SearchResult}

/-- The notes among the hits of a user belong to the user. -/
theorem owner_of_mem_memoResults {hits : List Hit} (h : ∀ hit ∈ hits, hit.entity.owner = user) :
    ∀ r ∈ memoResults hits, r.entity.owner = user := by
  intro r hr
  obtain ⟨hit, hhit, rfl⟩ := List.mem_map.mp hr
  exact h hit (List.mem_filter.mp hhit).1

/-- The notes that are selected from results of a user belong to the user. -/
theorem owner_of_mem_selectMemos {limit : Nat} (h : ∀ r ∈ results, r.entity.owner = user) :
    ∀ r ∈ request.selectMemos limit results, r.entity.owner = user :=
  fun r hr => h r (List.mem_filter.mp (List.mem_of_mem_take hr)).1

/-- A reranked result is one of the candidates with another score. -/
theorem mem_of_mem_rerankedFrom {candidates : List SearchResult} {used : List Nat}
    {hits : List RerankHit} {r : SearchResult} (h : r ∈ rerankedFrom candidates used hits) :
    ∃ candidate ∈ candidates, r = { candidate with score := r.score } := by
  induction hits generalizing used with
  | nil => cases h
  | cons hit hits ih =>
    unfold rerankedFrom at h
    split at h
    · exact ih h
    · rename_i candidate hchosen
      rcases List.mem_cons.mp h with rfl | hrest
      · split at hchosen
        · cases hchosen
        · exact ⟨candidate, List.mem_of_getElem? hchosen, rfl⟩
      · exact ih hrest

/-- A search of schedules, answered with records of the user, ends with records of the user. -/
theorem keeps_listSchedules (huser : request.userId = user) :
    (request.listSchedules settings now).Keeps (.ofUser user) (OwnedBy user) := by
  unfold listSchedules
  apply Retrieval.keeps_ended_bind ownedBy_error
  intro checked
  apply Retrieval.keeps_call_bind huser ownedBy_error
  intro schedules hschedules
  apply Retrieval.keeps_ended
  apply ownedBy_ok
  intro r hr
  obtain ⟨s, hs, rfl⟩ := List.mem_map.mp hr
  exact hschedules s hs

/-- What goes on with the vector of the query and some hits keeps to the user if it does so for all
hits of the user. -/
theorem keeps_embed_search_bind {limit : Nat}
    {f : List Score → List Hit → Retrieval (List SearchResult)} (huser : request.userId = user)
    (hf : ∀ vector hits, (∀ hit ∈ hits, hit.entity.owner = user) →
      (f vector hits).Keeps (.ofUser user) (OwnedBy user)) :
    (issue settings (.embed request.query) >>= fun vector =>
      issue settings (.vectorSearch request.userId vector limit) >>= fun hits =>
        f vector hits).Keeps (.ofUser user) (OwnedBy user) :=
  Retrieval.keeps_call_bind trivial ownedBy_error fun vector _ =>
    Retrieval.keeps_call_bind huser ownedBy_error fun hits hhits => hf vector hits hhits

/-- A search for notes keeps to the user in both passes. -/
theorem keeps_searchMemos (huser : request.userId = user) :
    (request.searchMemos settings).Keeps (.ofUser user) (OwnedBy user) := by
  unfold searchMemos embedQuery memoPass
  simp only [bind_assoc, pure_bind]
  apply keeps_embed_search_bind huser
  intro vector first hfirst
  split
  · apply Retrieval.keeps_call_bind huser ownedBy_error
    intro second hsecond
    apply Retrieval.keeps_ended
    apply ownedBy_ok
    apply owner_of_mem_selectMemos
    intro r hr
    rcases SearchResult.mem_or_mem_of_mem_merge hr with hr | hr
    · exact owner_of_mem_memoResults hfirst r hr
    · exact owner_of_mem_memoResults hsecond r hr
  · apply Retrieval.keeps_ended
    exact ownedBy_ok (owner_of_mem_selectMemos (owner_of_mem_memoResults hfirst))

/-- The candidates of a hybrid search are the hits with other scores. -/
theorem owner_of_mem_weighted {hits : List Hit} (weight : Score)
    (h : ∀ hit ∈ hits, hit.entity.owner = user) :
    ∀ r ∈ hits.map fun hit => weighted weight (SearchResult.ofHit hit), r.entity.owner = user := by
  intro r hr
  obtain ⟨hit, hhit, rfl⟩ := List.mem_map.mp hr
  exact h hit hhit

/-- A hybrid search keeps to the user, filtered by a range or not. -/
theorem keeps_searchHybrid {weight : Score} {within : Option Range}
    (huser : request.userId = user) :
    (request.searchHybrid settings weight within).Keeps (.ofUser user) (OwnedBy user) := by
  unfold searchHybrid
  apply Retrieval.keeps_ended_bind ownedBy_error
  intro checked
  rw [candidates_bind]
  apply keeps_embed_search_bind huser
  intro vector hits hhits
  apply Retrieval.keeps_ended
  apply ownedBy_ok
  intro r hr
  exact owner_of_mem_weighted weight hhits r (List.mem_filter.mp (List.mem_of_mem_take hr)).1

/-- The full pipeline keeps to the user, as a reranker only chooses among the results. -/
theorem keeps_searchReranked (huser : request.userId = user) :
    (request.searchReranked settings rerankerReady).Keeps (.ofUser user) (OwnedBy user) := by
  unfold searchReranked
  simp only [candidates_bind]
  apply keeps_embed_search_bind huser
  intro vector hits hhits
  have hcandidates := owner_of_mem_weighted settings.scoring.semanticWeight hhits
  have hplain := ownedBy_ok fun r hr =>
    hcandidates r (List.mem_of_mem_take (i := request.resultLimit settings) hr)
  split
  · apply Retrieval.keeps_attempt_bind trivial
    intro outcome
    split
    · apply Retrieval.keeps_ended
      apply ownedBy_ok
      intro r hr
      obtain ⟨candidate, hcandidate, hr⟩ := mem_of_mem_rerankedFrom (List.mem_of_mem_take hr)
      rw [hr]
      exact hcandidates candidate hcandidate
    · split
      · exact Retrieval.keeps_ended (ownedBy_error _)
      · exact Retrieval.keeps_ended hplain
  · exact Retrieval.keeps_ended hplain

/-- Every request keeps to the contract of its user. -/
theorem keeps_retrieve (huser : request.userId = user) :
    (request.retrieve settings rerankerReady now).Keeps (.ofUser user) (OwnedBy user) := by
  unfold retrieve
  dsimp only
  split
  · exact Retrieval.keeps_ended (ownedBy_error _)
  · unfold byStrategy
    split
    · exact keeps_listSchedules huser
    · exact keeps_searchMemos huser
    · exact keeps_searchHybrid huser
    · exact keeps_searchHybrid huser
    · exact keeps_searchHybrid huser
    · exact keeps_searchReranked huser

end Request

namespace Store

/-- The collaborators of a retriever over a store. The store answers with what it holds;
how long it takes, and what the embedder and the reranker do, is up to `others`. -/
def among (store : Store) (others : Collaborators) : Collaborators
  | past, .vectorSearch user query limit =>
    ⟨(others past (.vectorSearch user query limit)).delay, store.search user query limit⟩
  | past, .listSchedules user range mode =>
    ⟨(others past (.listSchedules user range mode)).delay, .ok (store.schedules user range mode)⟩
  | past, .embed text => others past (.embed text)
  | past, .rerank query documents limit => others past (.rerank query documents limit)

variable {a b : Store}

/-- A store keeps its users apart. -/
theorem honor_among (store : Store) (others : Collaborators) (user : Int) :
    (store.among others).Honor (.ofUser user) := by
  intro past call answer hasks hanswer
  cases call with
  | embed text => trivial
  | rerank query documents limit => trivial
  | vectorSearch owner query limit =>
    cases hasks
    exact owner_of_mem_search hanswer
  | listSchedules owner range mode =>
    cases hasks
    cases hanswer
    exact fun s hs => creatorId_of_mem_schedules hs

/-- A listing reads no records but those of its user. -/
theorem schedules_congr (h : a.ownedBy user = b.ownedBy user) (range : Option Range)
    (mode : MatchMode) : a.schedules user range mode = b.schedules user range mode := by
  simp only [schedules, h]

/-- A search reads no records but those of its user. -/
theorem search_congr (h : a.ownedBy user = b.ownedBy user) (query : List Score) (limit : Nat) :
    a.search user query limit = b.search user query limit := by
  simp only [search, h]

/-- Stores with the same records of a user answer the calls for that user alike. -/
theorem among_congr (h : a.ownedBy user = b.ownedBy user) (others : Collaborators)
    (past : List Call) (call : Call) (hasks : (Contract.ofUser user).asks call) :
    b.among others past call = a.among others past call := by
  cases call with
  | embed text => rfl
  | rerank query documents limit => rfl
  | vectorSearch owner query limit =>
    cases hasks
    simp only [among, search_congr h]
  | listSchedules owner range mode =>
    cases hasks
    simp only [among, schedules_congr h]

/-- Where two stores hold the same records of a user in the same order, whatever else they
hold, they list and find the same for that user, and each request of the user has the same
calls and the same result over both. All that is listed, found or returned is the user's. -/
theorem retrieve_isolates_users (h : a.ownedBy user = b.ownedBy user) :
    (∀ range mode, a.schedules user range mode = b.schedules user range mode ∧
      ∀ s ∈ a.schedules user range mode, s.creatorId = user) ∧
    (∀ query limit, a.search user query limit = b.search user query limit ∧
      ∀ hits, a.search user query limit = .ok hits → ∀ hit ∈ hits, hit.entity.owner = user) ∧
    ∀ (request : Request) (settings : Settings) (rerankerReady : Bool) (now : Instant)
      (others : Collaborators) (cancelAt : Option Nat), request.userId = user →
      let retrieval := request.retrieve settings rerankerReady now
      let outcome := retrieval.run (a.among others) cancelAt
      retrieval.run (b.among others) cancelAt = outcome ∧
      ∀ results, outcome.result = .ok results → ∀ r ∈ results, r.entity.owner = user := by
  refine ⟨fun range mode => ⟨schedules_congr h range mode, fun s => creatorId_of_mem_schedules⟩,
    fun query limit => ⟨search_congr h query limit, fun hits => owner_of_mem_search⟩, ?_⟩
  intro request settings rerankerReady now others cancelAt huser retrieval outcome
  have hkeeps : retrieval.Keeps (.ofUser user) (OwnedBy user) := Request.keeps_retrieve huser
  have hhonor := a.honor_among others user
  exact ⟨Program.Keeps.runFrom_congr hkeeps hhonor (among_congr h others) cancelAt 0 [],
    Program.Keeps.runFrom hkeeps hhonor cancelAt 0 []⟩

/-- A store with one note. -/
def privateStore : Store :=
  ({} : Store).addMemo ⟨1, 1, "Minutes of the meeting", .midnight .first⟩ [1]

/-- A store with the same note, between records of another user whose vectors are of other
lengths. -/
def sharedStore : Store :=
  ((({} : Store).addMemo ⟨2, 2, "Shopping list", .midnight .first⟩ [1, 1]).addMemo
    ⟨1, 1, "Minutes of the meeting", .midnight .first⟩ [1]).addSchedule
    ⟨3, 2, "Meeting", "", .midnight .first, none⟩ (some [])

/-- The user finds the note in both stores, although a search for the other user fails. -/
theorem retrieve_isolates_users_in_shared_store :
    let request : Request := ⟨"meeting", 1, .memoSemantic, none, 0, 5, .standard, ""⟩
    let retrieval := request.retrieve (.default "") false (.midnight .first)
    let others : Collaborators
      | _, .embed _ => ⟨some 0, .ok [1]⟩
      | _, _ => ⟨some 0, .error (.unavailable "")⟩
    privateStore.ownedBy 1 = sharedStore.ownedBy 1 ∧ (sharedStore.search 2 [1] 5).isOk = false ∧
    ((retrieval.run (sharedStore.among others) none).result.toOption.map fun results =>
      results.map (·.id)) = some [1] := by
  intro request retrieval others
  have hrecords : privateStore.ownedBy 1 = sharedStore.ownedBy 1 := rfl
  refine ⟨hrecords, by decide +kernel, ?_⟩
  rw [((retrieve_isolates_users hrecords).2.2 request (.default "") false (.midnight .first)
    others none rfl).1]
  decide +kernel

end Store

end Daybook
