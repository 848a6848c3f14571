import Daybook.Proofs.Records.Ranking
import Daybook.Records.Store

/-!
# What a search finds

A search ranks the records of a user that have a vector, by their similarity to the
query vector, and keeps the first ones. It fails for an empty query vector and for one
of another length, whatever its limit is.
-/

namespace Daybook

namespace Hit

/-- Hits by descending score; equal scores keep their order. -/
def byScore (hits : List Hit) : List Hit := hits.mergeSort fun a b => b.score ≤ a.score

variable {hits : List Hit}

/-- Sorting hits by score keeps each of them. -/
theorem perm_byScore (hits : List Hit) : (byScore hits).Perm hits := List.mergeSort_perm hits _

/-- A sorted list has the hits of the list. -/
@[simp] theorem mem_byScore {hit : Hit} : hit ∈ byScore hits ↔ hit ∈ hits := List.mem_mergeSort

/-- There are as many hits after sorting. -/
@[simp] theorem length_byScore : (byScore hits).length = hits.length := List.length_mergeSort hits

/-- If all scores are numbers, hits are ranked by the stable sort of the library. -/
theorem ranks_byScore (hnumbers : ∀ hit ∈ hits, hit.score.isNaN = false) :
    Score.Ranks Hit.score hits (byScore hits) :=
  Score.ranks_mergeSort hnumbers

/-- Ranking hits one by one then comes to the same as sorting them. -/
theorem rank_eq_byScore (hnumbers : ∀ hit ∈ hits, hit.score.isNaN = false) :
    Score.rank Hit.score hits = byScore hits :=
  Score.rank_eq_mergeSort hnumbers

/-- A filter may come before the hits are ordered or after. -/
theorem filter_byScore (hnumbers : ∀ hit ∈ hits, hit.score.isNaN = false) (p : Hit → Bool) :
    (byScore hits).filter p = byScore (hits.filter p) :=
  ((ranks_byScore hnumbers).filter p).unique
    (ranks_byScore fun hit hhit => hnumbers hit (List.mem_filter.mp hhit).1)

end Hit

namespace Store

variable {store : Store} {user : Int} {query : List Score}

/-- The records of a user that have a vector, with their similarity to a query vector, in
the order in which they were added. -/
def scored (store : Store) (user : Int) (query : List Score) : List Hit :=
  (store.ownedBy user).filterMap fun record =>
    record.vector.map fun vector => ⟨record.entity, Score.cosine query vector⟩

/-- The notes of a user. -/
def memos (store : Store) (user : Int) : List Entity :=
  ((store.ownedBy user).map (·.entity)).filter (·.kind == .memo)

/-- The notes among the hits of a user are notes of the user, in their order. -/
theorem filter_scored_sublist (store : Store) (user : Int) (query : List Score) :
    (((store.scored user query).map (·.entity)).filter (·.kind == .memo)).Sublist
      (store.memos user) := by
  refine List.Sublist.filter _ ?_
  unfold scored
  generalize store.ownedBy user = records
  induction records with
  | nil => exact .refl _
  | cons record records ih =>
    cases hvector : record.vector with
    | none =>
      rw [List.filterMap_cons_none (by simp [hvector])]
      exact ih.cons _
    | some vector =>
      rw [List.filterMap_cons_some (by rw [hvector]; rfl)]
      exact ih.cons_cons _

/-- Hits of a user are records of the user. -/
theorem owner_of_mem_scored {hit : Hit} (h : hit ∈ store.scored user query) :
    hit.entity.owner = user := by
  obtain ⟨record, hrecord, hhit⟩ := List.mem_filterMap.mp h
  obtain ⟨vector, -, rfl⟩ := Option.map_eq_some_iff.mp hhit
  exact beq_iff_eq.mp (List.mem_filter.mp hrecord).2

/-- Records that can all be compared to a query vector have the similarities of cosines. -/
theorem filterMap_of_mapM_scoreRecord {records : List Record} {hits : List (Option Hit)}
    (h : records.mapM (scoreRecord query) = .ok hits) :
    hits.filterMap id = records.filterMap fun record =>
      record.vector.map fun vector => ⟨record.entity, Score.cosine query vector⟩ := by
  induction records generalizing hits with
  | nil =>
    cases h
    rfl
  | cons record records ih =>
    rw [List.mapM_cons] at h
    cases hrecord : scoreRecord query record with
    | error error =>
      rw [hrecord] at h
      cases h
    | ok hit =>
      rw [hrecord] at h
      cases hrest : records.mapM (scoreRecord query) with
      | error error =>
        rw [hrest] at h
        cases h
      | ok rest =>
        rw [hrest] at h
        cases h
        have hhit : hit = record.vector.map fun vector =>
            ⟨record.entity, Score.cosine query vector⟩ := by
          unfold scoreRecord at hrecord
          split at hrecord
          · rename_i hnone
            cases hrecord
            simp [hnone]
          · rename_i vector hsome
            split at hrecord
            · cases hrecord
              simp [hsome]
            · cases hrecord
        rw [List.filterMap_cons, List.filterMap_cons, ih hrest, hhit]
        rfl

/-- A search that does not fail finds the first of all hits by rank. -/
theorem search_of_isOk {limit : Nat} (h : (store.search user query limit).isOk = true) :
    store.search user query limit =
      .ok ((Score.rank Hit.score (store.scored user query)).take limit) := by
  unfold search at h ⊢
  split at h
  · cases h
  · rename_i hempty
    cases hscored : (store.ownedBy user).mapM (scoreRecord query) with
    | error error =>
      rw [hscored] at h
      cases h
    | ok hits =>
      have hfilter := filterMap_of_mapM_scoreRecord hscored
      rw [if_neg hempty, scored, ← hfilter]
      rfl

/-- A search finds records of the user only. -/
theorem owner_of_mem_search {limit : Nat} {hits : List Hit}
    (h : store.search user query limit = .ok hits) : ∀ hit ∈ hits, hit.entity.owner = user := by
  have hisOk : (store.search user query limit).isOk = true := by
    rw [h]
    rfl
  have hfound := search_of_isOk hisOk
  rw [h] at hfound
  cases hfound
  intro hit hhit
  exact owner_of_mem_scored ((Score.rank_perm _ _).mem_iff.mp (List.mem_of_mem_take hhit))

end Store

end Daybook
