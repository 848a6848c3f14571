import Daybook.Proofs.Retrieval.CallOrder
import Mathlib.Data.List.Nodup

/-!
# What a reranker may choose

A reranker answers with indices of candidates and scores, in any order and of any sort. What it
names beyond the candidates, or names again, does not count. Its other hits choose candidates,
each once and with the score of the hit that names it first.
-/

namespace Daybook

/-- The hits with which a reranker has answered. -/
def Step.rerankHits? : Step → Option (List RerankHit)
  | ⟨.rerank .., _, ending⟩ => ending.outcome.toOption
  | _ => none

/-- Only a search is answered with hits. -/
theorem Step.stage_of_hits? {step : Step} {hits : List Hit} (h : step.hits? = some hits) :
    step.call.stage = .vectorSearch := by
  obtain ⟨call, start, ending⟩ := step
  cases call with
  | vectorSearch user vector limit => rfl
  | embed | listSchedules | rerank => cases h

/-- Only the reranker is answered with hits of its own. -/
theorem Step.stage_of_rerankHits? {step : Step} {hits : List RerankHit}
    (h : step.rerankHits? = some hits) : step.call.stage = .rerank := by
  obtain ⟨call, start, ending⟩ := step
  cases call with
  | rerank query documents limit => rfl
  | embed | vectorSearch | listSchedules => cases h

namespace RerankHit

/-- The position of the first hit with an index. -/
def position (hits : List RerankHit) (index : Nat) : Nat := hits.findIdx (·.index == index)

/-- Candidates, by their indices, with the scores that some hits give them: those that are named
and have not been taken before, each once, in the order in which they are named first and with
the scores that they have there. -/
structure IsChoice (count : Nat) (taken : List Nat) (hits : List RerankHit)
    (choices : List (Fin count × Score)) : Prop where
  mem_iff : ∀ index, index ∈ choices.map Prod.fst ↔
    index.val ∉ taken ∧ ∃ hit ∈ hits, hit.index = index
  ordered : choices.Pairwise fun a b => position hits a.1 < position hits b.1
  score_eq : ∀ choice ∈ choices,
    (hits.find? (·.index == choice.1.val)).map (·.score) = some choice.2

variable {count : Nat} {taken : List Nat} {hit : RerankHit} {hits : List RerankHit}
  {choices : List (Fin count × Score)}

/-- A hit for another index moves what is looked for one place back. -/
theorem position_cons_of_ne {index : Nat} (h : hit.index ≠ index) :
    position (hit :: hits) index = position hits index + 1 := by
  simp [position, List.findIdx_cons, beq_eq_false_iff_ne.mpr h]

/-- A candidate that is chosen has not been taken. -/
theorem IsChoice.not_mem_taken (h : IsChoice count taken hits choices) {choice : Fin count × Score}
    (hchoice : choice ∈ choices) : choice.1.val ∉ taken :=
  ((h.mem_iff choice.1).mp (List.mem_map_of_mem hchoice)).1

/-- The order and the scores of choices do not change by a hit before that names none of them. -/
theorem IsChoice.ordered_cons (h : IsChoice count taken hits choices)
    (hother : ∀ choice ∈ choices, hit.index ≠ choice.1) :
    choices.Pairwise fun a b => position (hit :: hits) a.1 < position (hit :: hits) b.1 := by
  refine h.ordered.imp_of_mem fun {a b} ha hb hab => ?_
  rw [position_cons_of_ne (hother a ha), position_cons_of_ne (hother b hb)]
  omega

/-- A hit for another index leaves the score of each choice, which is that of the first hit for its
index. -/
theorem IsChoice.score_eq_cons (h : IsChoice count taken hits choices)
    (hother : ∀ choice ∈ choices, hit.index ≠ choice.1) {choice : Fin count × Score}
    (hchoice : choice ∈ choices) :
    ((hit :: hits).find? (·.index == choice.1.val)).map (·.score) = some choice.2 := by
  rw [List.find?_cons_of_neg (by simpa using hother choice hchoice)]
  exact h.score_eq choice hchoice

/-- A hit does not count if it names no candidate, or one that has been taken. -/
theorem IsChoice.skip (h : IsChoice count taken hits choices)
    (hnone : hit.index ∈ taken ∨ count ≤ hit.index) :
    IsChoice count taken (hit :: hits) choices := by
  have hnew : ∀ index : Fin count, index.val ∉ taken → hit.index ≠ index := by
    rintro index hindex heq
    rcases hnone with htaken | hbeyond
    · exact hindex (heq ▸ htaken)
    · omega
  have hother : ∀ choice ∈ choices, hit.index ≠ choice.1 := fun choice hchoice =>
    hnew choice.1 (h.not_mem_taken hchoice)
  refine ⟨fun index => ?_, h.ordered_cons hother, fun choice => h.score_eq_cons hother⟩
  rw [h.mem_iff]
  refine and_congr_right fun hindex => ?_
  simp [hnew index hindex]

/-- A hit that names a candidate which has not been taken chooses it. -/
theorem IsChoice.take {index : Fin count} (h : IsChoice count (hit.index :: taken) hits choices)
    (hindex : hit.index = index) (hnew : hit.index ∉ taken) :
    IsChoice count taken (hit :: hits) ((index, hit.score) :: choices) := by
  have hother : ∀ choice ∈ choices, hit.index ≠ choice.1 := by
    intro choice hchoice heq
    exact h.not_mem_taken hchoice (heq ▸ List.mem_cons_self)
  refine ⟨fun other => ?_, ?_, ?_⟩
  · rw [List.map_cons, List.mem_cons, h.mem_iff]
    by_cases hsame : other = index
    · subst hsame
      simp [← hindex, hnew]
    · have hne : hit.index ≠ other := fun heq => hsame (Fin.ext (heq.symm.trans hindex))
      simp [hsame, hne, Ne.symm hne]
  · refine List.pairwise_cons.mpr ⟨fun choice hchoice => ?_, h.ordered_cons hother⟩
    rw [position_cons_of_ne (hother choice hchoice)]
    simp [position, List.findIdx_cons, hindex]
  · intro choice hchoice
    rcases List.mem_cons.mp hchoice with rfl | hrest
    · simp [hindex]
    · exact h.score_eq_cons hother hrest

/-- Choices are of different candidates. -/
theorem IsChoice.nodup (h : IsChoice count taken hits choices) : (choices.map Prod.fst).Nodup := by
  refine List.pairwise_map.mpr (h.ordered.imp fun {a b} hab heq => ?_)
  rw [heq] at hab
  omega

end RerankHit

namespace Request

variable {request : Request} {settings : Settings} {rerankerReady : Bool} {now : Instant}

/-- The candidates that are chosen, with their new scores. -/
def rescored (candidates : List SearchResult)
    (choices : List (Fin candidates.length × Score)) : List SearchResult :=
  choices.map fun choice => { candidates[choice.1] with score := choice.2 }

/-- What a reranker makes of some candidates is what its hits choose of them, whatever has been
taken before. -/
theorem exists_isChoice (candidates : List SearchResult) (taken : List Nat)
    (hits : List RerankHit) : ∃ choices, RerankHit.IsChoice candidates.length taken hits choices ∧
      rerankedFrom candidates taken hits = rescored candidates choices := by
  induction hits generalizing taken with
  | nil => exact ⟨[], ⟨by simp, .nil, by simp⟩, rfl⟩
  | cons hit hits ih =>
    unfold rerankedFrom
    by_cases htaken : hit.index ∈ taken
    · obtain ⟨choices, hchosen, hreranked⟩ := ih taken
      refine ⟨choices, hchosen.skip (.inl htaken), ?_⟩
      rw [if_pos (by simpa using htaken)]
      exact hreranked
    · rw [if_neg (by simpa using htaken)]
      by_cases hindex : hit.index < candidates.length
      · obtain ⟨choices, hchosen, hreranked⟩ := ih (hit.index :: taken)
        refine ⟨(⟨hit.index, hindex⟩, hit.score) :: choices, hchosen.take rfl htaken, ?_⟩
        rw [List.getElem?_eq_getElem hindex]
        simp only [hreranked, rescored, List.map_cons, Fin.getElem_fin]
      · obtain ⟨choices, hchosen, hreranked⟩ := ih taken
        refine ⟨choices, hchosen.skip (.inr (by omega)), ?_⟩
        rw [List.getElem?_eq_none (by omega)]
        exact hreranked

/-- The candidates that the hits of a search are to the reranker. -/
def rerankCandidates (settings : Settings) (found : List Hit) : List SearchResult :=
  found.map fun hit => weighted settings.scoring.semanticWeight (SearchResult.ofHit hit)

/-- The call by which the reranker is asked about some candidates. -/
def rerankCall (request : Request) (settings : Settings) (candidates : List SearchResult) : Call :=
  .rerank request.query
    (candidates.map fun r => Text.truncate r.content settings.retrieval.maxDocLength)
    (request.resultLimit settings)

/-- Where a search has found candidates that are worth it, the reranker is asked about them. If it
answers, the results are the first of those that it chooses. -/
def HeedsReranker (request : Request) (settings : Settings) (rerankerReady : Bool)
    (steps : List Step) (result : Except RetrievalError (List SearchResult)) : Prop :=
  ∀ search ∈ steps, ∀ found, search.hits? = some found →
    let candidates := rerankCandidates settings found
    (RerankPolicy.shouldRerank settings rerankerReady request.query (candidates.map (·.score)) →
      ∃ step ∈ steps, step.call = request.rerankCall settings candidates) ∧
    ∀ step ∈ steps, ∀ hits, step.rerankHits? = some hits →
      ∃ choices, RerankHit.IsChoice candidates.length [] hits choices ∧
        (choices.map Prod.fst).Nodup ∧
        result = .ok ((rescored candidates choices).take (request.resultLimit settings))

/-- Steps in which no search is answered leave nothing to rerank. -/
theorem heedsReranker_of_forall {steps : List Step}
    {result : Except RetrievalError (List SearchResult)}
    (hnone : ∀ step ∈ steps, ∀ hits, step.hits? ≠ some hits) :
    request.HeedsReranker settings rerankerReady steps result :=
  fun search hsearch found hfound => absurd hfound (hnone search hsearch found)

/-- After an answered search, only what comes then matters. -/
theorem heedsReranker_of_search {first search : Step} {found : List Hit} {rest : List Step}
    {result : Except RetrievalError (List SearchResult)}
    (hfirst : first.call.stage = .embedding) (hsearch : search.call.stage = .vectorSearch)
    (hfound : search.hits? = some found) (hrest : ∀ step ∈ rest, step.call.stage = .rerank)
    (hasks : RerankPolicy.shouldRerank settings rerankerReady request.query
        ((rerankCandidates settings found).map (·.score)) →
      ∃ step ∈ rest, step.call = request.rerankCall settings (rerankCandidates settings found))
    (hheeds : ∀ step ∈ rest, ∀ hits, step.rerankHits? = some hits →
      result = .ok ((rerankedFrom (rerankCandidates settings found) [] hits).take
        (request.resultLimit settings))) :
    request.HeedsReranker settings rerankerReady (first :: search :: rest) result := by
  intro step hstep hits hhits
  obtain rfl : search = step := by
    have hstage := Step.stage_of_hits? hhits
    simp only [List.mem_cons] at hstep
    rcases hstep with rfl | rfl | hlast
    · simp [hfirst] at hstage
    · rfl
    · simp [hrest step hlast] at hstage
  obtain rfl : found = hits := Option.some.inj (hfound.symm.trans hhits)
  refine ⟨fun hworth => ?_, fun step hstep hits hhits => ?_⟩
  · obtain ⟨last, hlast, hcall⟩ := hasks hworth
    exact ⟨last, List.mem_cons_of_mem _ (List.mem_cons_of_mem _ hlast), hcall⟩
  · have hlast : step ∈ rest := by
      have hstage := Step.stage_of_rerankHits? hhits
      simp only [List.mem_cons] at hstep
      rcases hstep with rfl | rfl | hlast
      · simp [hfirst] at hstage
      · simp [hsearch] at hstage
      · exact hlast
    obtain ⟨choices, hchosen, hreranked⟩ :=
      exists_isChoice (rerankCandidates settings found) [] hits
    exact ⟨choices, hchosen, hchosen.nodup, by rw [hheeds step hlast hits hhits, hreranked]⟩

/-- Whatever comes of a call of the reranker, only its answer matters. -/
theorem heedsReranker_of_rerank {first search : Step} {found : List Hit} {start : Nat}
    {ending : Ending (request.rerankCall settings (rerankCandidates settings found))}
    {result : Except RetrievalError (List SearchResult)}
    (hfirst : first.call.stage = .embedding) (hsearch : search.call.stage = .vectorSearch)
    (hfound : search.hits? = some found)
    (hresult : ∀ hits : List RerankHit, ending.outcome = .ok hits →
      result = .ok ((rerankedFrom (rerankCandidates settings found) [] hits).take
        (request.resultLimit settings))) :
    request.HeedsReranker settings rerankerReady [first, search, ⟨_, start, ending⟩] result := by
  refine heedsReranker_of_search hfirst hsearch hfound (by simp [rerankCall, Call.stage])
    (fun _ => ⟨_, List.mem_singleton_self _, rfl⟩) fun step hstep hits hhits => ?_
  obtain rfl := List.mem_singleton.mp hstep
  change ending.outcome.toOption = some hits at hhits
  cases houtcome : ending.outcome with
  | ok answer =>
    rw [houtcome] at hhits
    exact hresult hits (houtcome.trans (congrArg Except.ok (Option.some.inj hhits)))
  | error error =>
    rw [houtcome] at hhits
    cases hhits

/-- The full pipeline orders its results as the reranker has chosen. -/
theorem heedsReranker_searchReranked :
    (request.searchReranked settings rerankerReady).Always
      (request.HeedsReranker settings rerankerReady) := by
  unfold searchReranked
  simp only [candidates_bind]
  apply always_embed_search_bind
  · intro step error hembed
    refine heedsReranker_of_forall fun search hmem hits hhits => ?_
    obtain rfl := List.mem_singleton.mp hmem
    simp [Step.stage_of_hits? hhits] at hembed
  · intro first second error hembed hsearch hunanswered
    refine heedsReranker_of_forall fun search hmem hits hhits => ?_
    simp only [List.mem_cons, List.not_mem_nil, or_false] at hmem
    rcases hmem with rfl | rfl
    · simp [Step.stage_of_hits? hhits] at hembed
    · simp [hunanswered] at hhits
  · intro first second vector found hembed hsearch hfound
    split
    · apply Retrieval.always_attempt_bind
      intro start ending
      split
      · rename_i hits houtcome
        refine Retrieval.always_ended
          (heedsReranker_of_rerank hembed hsearch hfound fun hits' houtcome' => ?_)
        obtain rfl : hits = hits' := Except.ok.inj (houtcome.symm.trans houtcome')
        rfl
      · rename_i error houtcome
        have hvain : ∀ hits : List RerankHit, ending.outcome ≠ .ok hits :=
          fun hits hanswer => by simp [houtcome] at hanswer
        split <;> exact Retrieval.always_ended (heedsReranker_of_rerank hembed hsearch hfound
          fun hits hanswer => absurd hanswer (hvain hits))
    · rename_i hworthless
      exact Retrieval.always_ended (heedsReranker_of_search hembed hsearch hfound (by simp)
        (fun hworth => absurd hworth hworthless) (by simp))

/-- A retrieval with reranking heeds what the reranker answers, behind the checks of the request.
-/
theorem heedsReranker_retrieve (hstrategy : request.strategy = .reranked) :
    (request.retrieve settings rerankerReady now).Always
      (request.HeedsReranker settings rerankerReady) := by
  unfold retrieve byStrategy
  dsimp only
  split
  · exact Retrieval.always_ended (heedsReranker_of_forall (by simp))
  · simp only [hstrategy]
    exact heedsReranker_searchReranked

/-- A reranked request, under any settings and with any collaborators, whenever the caller
cancels. Where a search finds candidates that are worth it, the reranker is asked about them. If
it answers, the results are candidates with indices that its hits name: each candidate that is
named once, in the order in which the hits name them first, changed in nothing but the score,
which is that of the hit that names it first, and only as many as the limit allows. -/
theorem retrieve_reranked (request : Request) (settings : Settings) (rerankerReady : Bool)
    (now : Instant) (world : Collaborators) (cancelAt : Option Nat)
    (hstrategy : request.strategy = .reranked) :
    let outcome := (request.retrieve settings rerankerReady now).run world cancelAt
    ∀ search ∈ outcome.steps, ∀ found, search.hits? = some found →
      let candidates := rerankCandidates settings found
      (RerankPolicy.shouldRerank settings rerankerReady request.query (candidates.map (·.score)) →
        ∃ step ∈ outcome.steps, step.call = request.rerankCall settings candidates) ∧
      ∀ step ∈ outcome.steps, ∀ hits, step.rerankHits? = some hits →
        ∃ choices : List (Fin candidates.length × Score),
          RerankHit.IsChoice candidates.length [] hits choices ∧
          (choices.map Prod.fst).Nodup ∧
          outcome.result = .ok ((choices.map fun choice =>
            { candidates[choice.1] with score := choice.2 }).take
              (request.resultLimit settings)) :=
  (heedsReranker_retrieve hstrategy).run world cancelAt

/-- A store that finds five notes that are equally good, and a reranker that names one of them
twice and two that there are not. -/
def carelessReranker : Collaborators
  | _, .embed _ => ⟨some 0, .ok []⟩
  | _, .vectorSearch .. => ⟨some 0, .ok
      ([1, 2, 3, 4, 5].map fun id => ⟨.memo ⟨id, 1, "Traits", .midnight .first⟩, 1⟩)⟩
  | _, .rerank .. => ⟨some 0, .ok
      [⟨5, 1⟩, ⟨3, 0.25⟩, ⟨18446744073709551615, 1⟩, ⟨3, 0.75⟩, ⟨0, 0.5⟩, ⟨1, 1⟩]⟩
  | _, _ => ⟨none, .error (.unavailable "")⟩

/-- The fourth and the first note are chosen, with the scores that they are named with first. -/
theorem retrieve_reranked_with_care :
    let request : Request :=
      ⟨"how do lifetimes and traits interact", 1, .reranked, none, 0, 2, .standard, ""⟩
    let settings := Settings.default ""
    let outcome := (request.retrieve settings true (.midnight .first)).run carelessReranker none
    request.strategy = .reranked ∧
    (∃ search ∈ outcome.steps, ∃ found, search.hits? = some found ∧
      ∃ step ∈ outcome.steps, ∃ hits, step.rerankHits? = some hits ∧
        hits.map (·.index) = [5, 3, 18446744073709551615, 3, 0, 1] ∧
        ∃ choices : List (Fin (rerankCandidates settings found).length × Score),
          RerankHit.IsChoice (rerankCandidates settings found).length [] hits choices ∧
          outcome.result = .ok ((choices.map fun choice =>
            { (rerankCandidates settings found)[choice.1] with score := choice.2 }).take 2)) ∧
    (outcome.result.toOption.map fun results => results.map (·.id)) = some [4, 1] := by
  intro request settings outcome
  obtain ⟨search, hsearch, hanswered⟩ :
      ∃ search ∈ outcome.steps, search.hits?.isSome = true := by decide +kernel
  obtain ⟨found, hfound⟩ := Option.isSome_iff_exists.mp hanswered
  obtain ⟨step, hstep, hindices⟩ : ∃ step ∈ outcome.steps,
      (step.rerankHits?.map fun hits => hits.map (·.index)) =
        some [5, 3, 18446744073709551615, 3, 0, 1] := by decide +kernel
  obtain ⟨hits, hhits, hindices⟩ := Option.map_eq_some_iff.mp hindices
  obtain ⟨-, hheeds⟩ := retrieve_reranked request settings true (.midnight .first)
    carelessReranker none rfl search hsearch found hfound
  obtain ⟨choices, hchosen, -, hresult⟩ := hheeds step hstep hits hhits
  exact ⟨rfl, ⟨search, hsearch, found, hfound, step, hstep, hits, hhits, hindices, choices,
    hchosen, hresult⟩, by decide +kernel⟩

end Request

end Daybook
