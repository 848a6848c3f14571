import Daybook.Proofs.Records.Search

/-!
# The best hits

The hits of a search are the best ones as long as scores can be compared. A score that is no
number cannot: its record stays where it was added, and a better record that was added later does
not get past it. So one such record among others may hide the best ones.
-/

namespace Daybook

namespace Score

variable {α : Type} {score : α → Score} {xs ys : List α} {x : α}

/-- An element without a number is put behind all that come before it. -/
theorem insertRanked_of_isNaN (hx : (score x).isNaN = true) :
    insertRanked score x ys = x :: ys := by
  cases ys with
  | nil => rfl
  | cons y ys => exact if_neg (not_lt_of_isNaN (.inr hx))

/-- No element that comes later gets past one without a number. -/
theorem insertRanked_append_cons {y : α} (hx : (score x).isNaN = true) :
    insertRanked score y (ys ++ x :: xs) = insertRanked score y ys ++ x :: xs := by
  induction ys with
  | nil => exact if_neg (not_lt_of_isNaN (.inl hx))
  | cons z ys ih =>
    simp only [List.cons_append, insertRanked, ih]
    split <;> rfl

/-- What is ranked behind an element without a number stays behind it, and what is added moves about
in front of it only. -/
theorem foldl_insertRanked_append_cons (hx : (score x).isNaN = true) (front back : List α) :
    ys.foldl (fun ranked y => insertRanked score y ranked) (front ++ x :: back) =
      ys.foldl (fun ranked y => insertRanked score y ranked) front ++ x :: back := by
  induction ys generalizing front with
  | nil => rfl
  | cons y ys ih => rw [List.foldl_cons, insertRanked_append_cons hx, ih, List.foldl_cons]

/-- An element without a number keeps its place, and those before it and behind it are ranked
by themselves. -/
theorem rank_append_cons (hx : (score x).isNaN = true) :
    rank score (xs ++ x :: ys) = rank score xs ++ x :: rank score ys := by
  let before := xs.foldl (fun ranked y => insertRanked score y ranked) []
  have hranked : ys.foldl (fun ranked y => insertRanked score y ranked) (x :: before) =
      ys.foldl (fun ranked y => insertRanked score y ranked) [] ++ x :: before :=
    foldl_insertRanked_append_cons hx [] before
  unfold rank
  rw [List.foldl_append, List.foldl_cons, insertRanked_of_isNaN hx, hranked, List.reverse_append,
    List.reverse_cons, List.append_assoc, List.singleton_append]

end Score

namespace Hit

variable {hits : List Hit} {limit : Nat}

/-- Some hits are the best of all, as many as there are or as the limit allows: those whose
scores are numbers descend, and no other hit has a greater score than one of them. -/
structure AreBest (all : List Hit) (limit : Nat) (hits : List Hit) : Prop where
  length_eq : hits.length = min limit all.length
  descends : (hits.filter fun hit => !hit.score.isNaN).Pairwise fun a b => b.score ≤ a.score
  unsurpassed : ∃ others, (hits ++ others).Perm all ∧
    ∀ hit ∈ hits, ∀ other ∈ others, ¬hit.score < other.score

/-- The scores of some hits can be compared: all are numbers, or no number among them is less
than another. -/
def Comparable (hits : List Hit) : Prop :=
  (∀ hit ∈ hits, hit.score.isNaN = false) ∨ ∀ a ∈ hits, ∀ b ∈ hits, ¬a.score < b.score

/-- Whether hits can be compared does not depend on their order. -/
theorem Comparable.perm {hits' : List Hit} (h : Comparable hits) (hperm : hits'.Perm hits) :
    Comparable hits' := by
  simpa only [Comparable, hperm.mem_iff] using h

/-- Where scores cannot be compared, two of them are numbers of which one is less than the other,
and another one is none. -/
theorem exists_of_not_comparable (h : ¬Comparable hits) :
    ∃ a ∈ hits, ∃ hit ∈ hits, ∃ b ∈ hits, a.score < b.score ∧ hit.score.isNaN = true := by
  obtain ⟨hnan, hless⟩ := not_or.mp h
  push Not at hnan hless
  obtain ⟨hit, hhit, hscore⟩ := hnan
  obtain ⟨a, ha, b, hb, hlt⟩ := hless
  exact ⟨a, ha, hit, hhit, b, hb, hlt, by simpa using hscore⟩

/-- In a ranking of scores that can be compared, none is less than one behind it. -/
theorem Comparable.pairwise_rank (h : Comparable hits) :
    (Score.rank Hit.score hits).Pairwise fun a b => ¬a.score < b.score := by
  have hmem : ∀ {hit}, hit ∈ Score.rank Hit.score hits → hit ∈ hits :=
    (Score.rank_perm Hit.score hits).mem_iff.mp
  rcases h with hnumbers | hequal
  · refine (Score.ranks_rank hnumbers).descends.imp_of_mem fun ha hb hab => ?_
    rw [Score.lt_iff_place (hnumbers _ (hmem ha)) (hnumbers _ (hmem hb))]
    exact not_lt.mpr hab
  · exact List.pairwise_of_forall_mem_list fun a ha b hb => hequal a (hmem ha) b (hmem hb)

/-- The first hits of a ranking are the best, if scores can be compared. -/
theorem Comparable.areBest (h : Comparable hits) (limit : Nat) :
    AreBest hits limit ((Score.rank Hit.score hits).take limit) := by
  have hrank := Score.rank_perm Hit.score hits
  have hpairwise := h.pairwise_rank
  rw [← List.take_append_drop limit (Score.rank Hit.score hits)] at hpairwise
  obtain ⟨hkept, -, hacross⟩ := List.pairwise_append.mp hpairwise
  refine ⟨by rw [List.length_take, hrank.length_eq], ?_, _, ?_, hacross⟩
  · refine (hkept.filter _).imp_of_mem fun {a b} ha hb hab => ?_
    have hnumber : ∀ {hit : Hit}, hit ∈ ((Score.rank Hit.score hits).take limit).filter
        (fun hit => !hit.score.isNaN) → hit.score.isNaN = false := by
      intro hit hhit
      simpa using (List.mem_filter.mp hhit).2
    rw [Score.lt_iff_place (hnumber ha) (hnumber hb), not_lt] at hab
    exact (Score.le_iff_place (hnumber hb) (hnumber ha)).mpr hab
  · rw [List.take_append_drop]
    exact hrank

/-- A hit does not stand before one with a greater score if both are among the best. -/
theorem not_areBest_one {a b : Hit} (hlt : a.score < b.score) {all : List Hit} (hb : b ∈ all) :
    ¬AreBest all 1 [a] := by
  rintro ⟨-, -, others, hperm, hunsurpassed⟩
  rcases List.mem_cons.mp (hperm.mem_iff.mpr hb) with rfl | hother
  · exact Score.not_lt_self _ hlt
  · exact hunsurpassed a List.mem_cons_self b hother hlt

end Hit

namespace Store

variable {store other : Store} {user : Int} {query : List Score}

/-- Records whose vectors all have the length of the query vector are compared to it. -/
theorem exists_mapM_scoreRecord {records : List Record}
    (hlengths : ∀ record ∈ records, ∀ vector, record.vector = some vector →
      vector.length = query.length) : ∃ hits, records.mapM (scoreRecord query) = .ok hits := by
  induction records with
  | nil => exact ⟨[], rfl⟩
  | cons record records ih =>
    obtain ⟨hits, hhits⟩ := ih fun r hr => hlengths r (List.mem_cons_of_mem record hr)
    have hrecord : ∃ hit, scoreRecord query record = .ok hit := by
      unfold scoreRecord
      cases hvector : record.vector with
      | none => exact ⟨none, rfl⟩
      | some vector => exact ⟨_, if_pos (hlengths record List.mem_cons_self vector hvector)⟩
    obtain ⟨hit, hhit⟩ := hrecord
    refine ⟨hit :: hits, ?_⟩
    rw [List.mapM_cons, hhit, hhits]
    rfl

/-- A search with a query vector of the right length finds the first of all hits by rank. -/
theorem search_eq (hquery : query ≠ []) (hlengths : ∀ record ∈ store.ownedBy user,
      ∀ vector, record.vector = some vector → vector.length = query.length) (limit : Nat) :
    store.search user query limit =
      .ok ((Score.rank Hit.score (store.scored user query)).take limit) := by
  refine search_of_isOk ?_
  obtain ⟨hits, hhits⟩ := exists_mapM_scoreRecord hlengths
  unfold search
  rw [if_neg (by simpa using hquery), hhits]
  rfl

/-- Stores with the same records score the same hits. -/
theorem scored_perm (hperm : other.records.Perm store.records) (user : Int) (query : List Score) :
    (other.scored user query).Perm (store.scored user query) :=
  (hperm.filter _).filterMap _

/-- Any two hits of a store are the first ones of another store with the same records. -/
theorem exists_scored_eq {a b : Hit} (ha : a ∈ store.scored user query)
    (hb : b ∈ store.scored user query) (hne : b ≠ a) : ∃ other : Store,
      other.records.Perm store.records ∧ ∃ rest, other.scored user query = a :: b :: rest := by
  let hit? (record : Record) : Option Hit :=
    if record.entity.owner == user then
      record.vector.map fun vector => ⟨record.entity, Score.cosine query vector⟩
    else none
  have hscored : ∀ store : Store, store.scored user query = store.records.filterMap hit? :=
    fun _ => List.filterMap_filter
  have hfirst : ∀ {records : List Record} {hit : Hit}, hit ∈ records.filterMap hit? →
      ∃ record rest, (record :: rest).Perm records ∧ hit? record = some hit := by
    intro records hit hhit
    obtain ⟨record, hrecord, hsome⟩ := List.mem_filterMap.mp hhit
    obtain ⟨front, back, rfl⟩ := List.append_of_mem hrecord
    exact ⟨record, front ++ back, List.perm_middle.symm, hsome⟩
  rw [hscored] at ha hb
  obtain ⟨first, rest, hperm, hfirsthit⟩ := hfirst ha
  have hrest : b ∈ rest.filterMap hit? := by
    have hmem := (hperm.filterMap hit?).mem_iff.mpr hb
    rw [List.filterMap_cons_some hfirsthit] at hmem
    exact List.mem_of_ne_of_mem hne hmem
  obtain ⟨second, rest', hperm', hsecondhit⟩ := hfirst hrest
  refine ⟨⟨first :: second :: rest'⟩, (hperm'.cons first).trans hperm,
    rest'.filterMap hit?, ?_⟩
  rw [hscored, List.filterMap_cons_some hfirsthit, List.filterMap_cons_some hsecondhit]

/-- A search finds the best of all hits, in whatever order the records were added, just if the
scores of the user's records can be compared. Added behind a worse one, a record without a number
keeps the better one from getting past it. -/
theorem search_best_iff (store : Store) (user : Int) (query : List Score) (hquery : query ≠ [])
    (hlengths : ∀ record ∈ store.ownedBy user, ∀ vector, record.vector = some vector →
      vector.length = query.length) :
    (∀ other : Store, other.records.Perm store.records → ∀ limit, ∃ hits,
      other.search user query limit = .ok hits ∧
        Hit.AreBest (other.scored user query) limit hits) ↔
    Hit.Comparable (store.scored user query) := by
  have hsearch : ∀ other : Store, other.records.Perm store.records → ∀ limit,
      other.search user query limit =
        .ok ((Score.rank Hit.score (other.scored user query)).take limit) := by
    intro other hperm limit
    exact search_eq hquery (fun record hrecord =>
      hlengths record ((hperm.filter _).mem_iff.mp hrecord)) limit
  constructor
  · intro hbest
    by_contra hcomparable
    obtain ⟨a, ha, hit, hhit, b, hb, hlt, hnan⟩ := Hit.exists_of_not_comparable hcomparable
    have hne : hit ≠ a := by
      rintro rfl
      exact Score.not_lt_of_isNaN (.inl hnan) hlt
    obtain ⟨other, hperm, rest, hscored⟩ := exists_scored_eq ha hhit hne
    obtain ⟨hits, hfound, hhits⟩ := hbest other hperm 1
    rw [hsearch other hperm, hscored, ← List.singleton_append,
      Score.rank_append_cons hnan] at hfound
    obtain rfl : [a] = hits := Except.ok.inj hfound
    exact Hit.not_areBest_one hlt ((scored_perm hperm user query).mem_iff.mpr hb) hhits
  · intro hcomparable other hperm limit
    exact ⟨_, hsearch other hperm limit,
      (hcomparable.perm (scored_perm hperm user query)).areBest limit⟩

/-- Three notes, of which the second one has a vector so long that its length is infinite. -/
def overflowStore : Store :=
  ((({} : Store).addMemo ⟨1, 1, "Shopping list", .midnight .first⟩ [0, 1]).addMemo
    ⟨2, 1, "Minutes", .midnight .first⟩ [3e38, 0]).addMemo
      ⟨3, 1, "Agenda", .midnight .first⟩ [1, 0]

/-- Each note of the store has a vector as long as the query. -/
theorem length_of_overflowStore : ∀ record ∈ overflowStore.ownedBy 1, ∀ vector,
    record.vector = some vector → vector.length = 2 := by
  intro record hrecord vector hvector
  have hmem : record ∈ overflowStore.records := (List.mem_filter.mp hrecord).1
  have hlengths : overflowStore.records.map (·.vector.map List.length) =
      [some 2, some 2, some 2] := rfl
  have hlength := List.mem_map_of_mem (f := (·.vector.map List.length)) hmem
  rw [hlengths] at hlength
  simpa [hvector] using hlength

/-- The third note, which is the most similar to the query, is left out for the first one, which
is not similar at all. -/
theorem best_hidden_by_overflow :
    let all := overflowStore.scored 1 [2, 0]
    (∀ record ∈ overflowStore.ownedBy 1, ∀ vector, record.vector = some vector →
      vector.length = 2) ∧
    all.map (·.entity.id) = [1, 2, 3] ∧ all.map (·.score.isNaN) = [false, true, false] ∧
    ∃ hits, overflowStore.search 1 [2, 0] 1 = .ok hits ∧ hits.map (·.entity.id) = [1] ∧
      ¬Hit.AreBest all 1 hits := by
  intro all
  let hit (id : Int) (content : String) (vector : List Score) : Hit :=
    ⟨.memo ⟨id, 1, content, .midnight .first⟩, Score.cosine [2, 0] vector⟩
  let first := hit 1 "Shopping list" [0, 1]
  let second := hit 2 "Minutes" [3e38, 0]
  let third := hit 3 "Agenda" [1, 0]
  have hall : overflowStore.scored 1 [2, 0] = [first] ++ second :: [third] := rfl
  have hnan : second.score.isNaN = true := by decide +kernel
  have hsearch : overflowStore.search 1 [2, 0] 1 = .ok [first] := by
    rw [search_eq (by simp) length_of_overflowStore, hall, Score.rank_append_cons hnan]
    rfl
  have hless : first.score < third.score := by decide +kernel
  refine ⟨length_of_overflowStore, rfl, ?_, [first], hsearch, rfl, ?_⟩
  · simp only [all, hall]
    decide +kernel
  · exact Hit.not_areBest_one hless (by simp [all, hall])

/-- A query vector that is too long itself makes all numbers among the scores zero, and so the
second note hides none. -/
theorem search_best_iff_of_long_query :
    [3e38, 0] ≠ ([] : List Score) ∧
    (∀ record ∈ overflowStore.ownedBy 1, ∀ vector, record.vector = some vector →
      vector.length = 2) ∧
    (overflowStore.scored 1 [3e38, 0]).map (·.score.isNaN) = [false, true, false] ∧
    ∃ hits, overflowStore.search 1 [3e38, 0] 2 = .ok hits ∧
      Hit.AreBest (overflowStore.scored 1 [3e38, 0]) 2 hits := by
  have hcomparable : Hit.Comparable (overflowStore.scored 1 [3e38, 0]) :=
    .inr (by decide +kernel)
  have hbest := (search_best_iff overflowStore 1 [3e38, 0] (by simp)
    length_of_overflowStore).mpr hcomparable
  exact ⟨by simp, length_of_overflowStore, by decide +kernel, hbest overflowStore (.refl _) 2⟩

end Store

end Daybook
