import Daybook.Proofs.Records.Ranking
import Daybook.Retrieval.Result
import Mathlib.Data.Finset.Card
import Mathlib.Data.List.Nodup

/-!
# Merging result lists

A result is dropped if its identifier has been seen before. Two initial parts of one
ranked list without repetitions therefore merge to the longer one. Of any two lists with
scores that are numbers, the best results are one list only, and they merge to it.
-/

namespace Daybook.SearchResult

variable {seen : List Int} {xs ys results merged : List SearchResult} {a b r s : SearchResult}

/-- Leaving out what has been seen keeps the order of the rest. -/
theorem distinctFrom_sublist (seen : List Int) (xs : List SearchResult) :
    (distinctFrom seen xs).Sublist xs := by
  induction xs generalizing seen with
  | nil => exact .slnil
  | cons r xs ih =>
    unfold distinctFrom
    split
    · exact (ih seen).cons r
    · exact (ih (r.id :: seen)).cons_cons r

/-- A merged result comes from one of the two lists. -/
theorem mem_or_mem_of_mem_merge {limit : Nat}
    (h : r ∈ merge xs ys limit) : r ∈ xs ∨ r ∈ ys := by
  have hranked : r ∈ Score.rank SearchResult.score (distinct (xs ++ ys)) := by
    unfold merge at h
    split at h
    · exact List.mem_of_mem_take h
    · exact h
  have hdistinct := (Score.rank_perm SearchResult.score _).mem_iff.mp hranked
  exact List.mem_append.mp ((distinctFrom_sublist [] _).subset hdistinct)

/-- Results that are all new are kept. -/
theorem distinctFrom_append_of_new (hnew : ∀ r ∈ xs, r.id ∉ seen) (hids : (xs.map id).Nodup) :
    distinctFrom seen (xs ++ ys) = xs ++ distinctFrom ((xs.map id).reverse ++ seen) ys := by
  induction xs generalizing seen with
  | nil => rfl
  | cons r xs ih =>
    obtain ⟨hr, hids⟩ := List.nodup_cons.mp hids
    have hrest : ∀ s ∈ xs, s.id ∉ r.id :: seen := by
      intro s hs hmem
      rcases List.mem_cons.mp hmem with heq | hold
      · exact hr (heq ▸ List.mem_map_of_mem hs)
      · exact hnew s (List.mem_cons_of_mem r hs) hold
    have hkept : ¬ seen.contains r.id = true := by
      simpa using hnew r List.mem_cons_self
    rw [List.cons_append, distinctFrom, if_neg hkept, ih hrest hids]
    simp

/-- Results that have all been seen are dropped. -/
theorem distinctFrom_append_of_seen (hseen : ∀ r ∈ xs, r.id ∈ seen) :
    distinctFrom seen (xs ++ ys) = distinctFrom seen ys := by
  induction xs with
  | nil => rfl
  | cons r xs ih =>
    have hdropped : seen.contains r.id = true := by
      simpa using hseen r List.mem_cons_self
    rw [List.cons_append, distinctFrom, if_pos hdropped]
    exact ih fun s hs => hseen s (List.mem_cons_of_mem r hs)

/-- Without repetitions, a list with an initial part before or behind it has its own
results only. -/
theorem distinct_append_of_isPrefix (hids : (ys.map id).Nodup) (h : xs <+: ys) :
    distinct (xs ++ ys) = ys ∧ distinct (ys ++ xs) = ys := by
  have hys : ∀ r ∈ ys, r.id ∉ ([] : List Int) := fun r _ => List.not_mem_nil
  have hxs : ∀ r ∈ xs, r.id ∉ ([] : List Int) := fun r _ => List.not_mem_nil
  have hxids : (xs.map id).Nodup := hids.sublist (h.sublist.map id)
  have hseen : ∀ r ∈ xs, r.id ∈ (xs.map id).reverse ++ [] := by
    intro r hr
    simpa using ⟨r, hr, rfl⟩
  constructor
  · obtain ⟨rest, rfl⟩ := h
    rw [List.map_append, List.nodup_append] at hids
    obtain ⟨-, hrestids, hdisjoint⟩ := hids
    have hrest : ∀ r ∈ rest, r.id ∉ (xs.map id).reverse ++ [] := by
      intro r hr hmem
      have hmem : r.id ∈ xs.map id := by simpa using hmem
      exact hdisjoint r.id hmem r.id (List.mem_map_of_mem hr) rfl
    have htail : distinctFrom ((xs.map id).reverse ++ []) (rest ++ []) =
        rest ++ distinctFrom _ [] :=
      distinctFrom_append_of_new hrest hrestids
    rw [distinct, distinctFrom_append_of_new hxs hxids, distinctFrom_append_of_seen hseen]
    simpa [distinctFrom] using htail
  · have hagain : ∀ r ∈ xs, r.id ∈ (ys.map id).reverse ++ [] := by
      intro r hr
      simpa using ⟨r, h.subset hr, rfl⟩
    have htail : distinctFrom ((ys.map id).reverse ++ []) (xs ++ []) = distinctFrom _ [] :=
      distinctFrom_append_of_seen hagain
    rw [distinct, distinctFrom_append_of_new hys hids]
    simpa [distinctFrom] using htail

/-- A ranked list without repetitions merges with an initial part of it to its own first
results. -/
theorem merge_of_isPrefix {limit : Nat} (hlimit : 0 < limit) (hids : (ys.map id).Nodup)
    (hnumbers : ∀ r ∈ ys, r.score.isNaN = false)
    (hdescends : ys.Pairwise fun a b => b.score.place ≤ a.score.place) (h : xs <+: ys) :
    merge xs ys limit = ys.take limit ∧ merge ys xs limit = ys.take limit := by
  have hranked : Score.rank SearchResult.score ys = ys :=
    Score.rank_of_descends hnumbers hdescends
  obtain ⟨hbefore, hbehind⟩ := distinct_append_of_isPrefix hids h
  simp only [merge, hbefore, hbehind, hranked, hlimit, if_true, and_self]

/-- The result is the first one of a list with its identifier. -/
def IsFirst (results : List SearchResult) (r : SearchResult) : Prop :=
  results.find? (·.id == r.id) = some r

/-- Where the first result of a list with the identifier of a given one stands. -/
def position (results : List SearchResult) (r : SearchResult) : Nat :=
  results.findIdx (·.id == r.id)

/-- Of two results of a list, the one has the greater score, or an equal score and the earlier
place. -/
def Outranks (results : List SearchResult) (a b : SearchResult) : Prop :=
  b.score < a.score ∨ (a.score == b.score) = true ∧ position results a < position results b

/-- The number of identifiers in a list, each counted once. -/
def idCount (results : List SearchResult) : Nat := (results.map id).toFinset.card

/-- A list holds the best results of another one: the first for each identifier, unchanged, by
descending score and in the old order among equal scores, as many as there are or as the limit
allows, and none that is worse than one left out. -/
structure IsBestOf (results : List SearchResult) (limit : Nat) (merged : List SearchResult) :
    Prop where
  ids_nodup : (merged.map id).Nodup
  isFirst : ∀ r ∈ merged, IsFirst results r
  ordered : merged.Pairwise (Outranks results)
  length_eq : merged.length = if 0 < limit then min limit (idCount results) else idCount results
  /-- A first result that is left out has a smaller score than those that are kept, or an equal
  one and a later place. -/
  outranked : ∀ s, IsFirst results s → s ∉ merged → ∀ r ∈ merged, Outranks results r s

/-- A result is kept if its identifier has not been seen before the list, and it is the first one
with it there. -/
theorem mem_distinctFrom_iff :
    r ∈ distinctFrom seen results ↔ r.id ∉ seen ∧ IsFirst results r := by
  unfold IsFirst
  induction results generalizing seen with
  | nil => simp [distinctFrom]
  | cons t results ih =>
    unfold distinctFrom
    by_cases hid : t.id = r.id
    · rw [List.find?_cons_of_pos (by simpa using hid), Option.some_inj]
      split
      · rename_i hseen
        have hseen : t.id ∈ seen := by simpa using hseen
        rw [ih, ← hid]
        exact ⟨fun h => absurd hseen h.1, fun h => absurd hseen h.1⟩
      · rename_i hnew
        have hnew : t.id ∉ seen := by simpa using hnew
        rw [List.mem_cons, ih, ← hid]
        simp [hnew, eq_comm]
    · rw [List.find?_cons_of_neg (by simpa using hid)]
      split
      · exact ih
      · have hne : r ≠ t := fun h => hid (h ▸ rfl)
        rw [List.mem_cons, ih]
        simp [hne, Ne.symm hid]

/-- The distinct results of a list are the first ones with their identifiers. -/
theorem mem_distinct_iff : r ∈ distinct results ↔ IsFirst results r := by
  simp [distinct, mem_distinctFrom_iff]

/-- The first result with an identifier is one of the list. -/
theorem IsFirst.mem (h : IsFirst results r) : r ∈ results := List.mem_of_find?_eq_some h

/-- There is one first result with each identifier. -/
theorem IsFirst.eq (ha : IsFirst results a) (hb : IsFirst results b) (h : a.id = b.id) : a = b := by
  rw [IsFirst, h] at ha
  exact Option.some.inj (ha.symm.trans hb)

/-- Each identifier has a first result. -/
theorem exists_isFirst (hr : r ∈ results) : ∃ s, IsFirst results s ∧ s.id = r.id := by
  obtain ⟨s, hs⟩ := Option.isSome_iff_exists.mp
    (List.find?_isSome (p := (·.id == r.id)).mpr ⟨r, hr, beq_self_eq_true r.id⟩)
  have hid : s.id = r.id := by simpa using List.find?_some hs
  exact ⟨s, by rw [IsFirst, hid, hs], hid⟩

/-- No identifier is kept twice. -/
theorem nodup_distinctFrom (seen : List Int) (results : List SearchResult) :
    ((distinctFrom seen results).map id).Nodup := by
  induction results generalizing seen with
  | nil => exact List.nodup_nil
  | cons r results ih =>
    unfold distinctFrom
    split
    · exact ih seen
    · refine List.nodup_cons.mpr ⟨fun hmem => ?_, ih (r.id :: seen)⟩
      obtain ⟨s, hs, hid⟩ := List.mem_map.mp hmem
      exact (mem_distinctFrom_iff.mp hs).1 (hid ▸ List.mem_cons_self)

/-- The first results stand in the order of the list, in which those of the rest stand one place
later. -/
theorem pairwise_distinctFrom (seen : List Int) (results : List SearchResult) :
    (distinctFrom seen results).Pairwise fun a b => position results a < position results b := by
  induction results generalizing seen with
  | nil => exact .nil
  | cons r results ih =>
    have hlater : ∀ {seen s}, r.id ∈ seen → s ∈ distinctFrom seen results →
        position (r :: results) s = position results s + 1 := by
      intro seen s hr hs
      have hother : (r.id == s.id) = false :=
        beq_eq_false_iff_ne.mpr fun hid => (mem_distinctFrom_iff.mp hs).1 (hid ▸ hr)
      simp [position, List.findIdx_cons, hother]
    have hrest : ∀ {seen}, r.id ∈ seen → (distinctFrom seen results).Pairwise fun a b =>
        position (r :: results) a < position (r :: results) b := by
      intro seen hr
      refine (ih seen).imp_of_mem fun ha hb hab => ?_
      rw [hlater hr ha, hlater hr hb]
      exact Nat.succ_lt_succ hab
    unfold distinctFrom
    split
    · rename_i hseen
      exact hrest (by simpa using hseen)
    · refine List.pairwise_cons.mpr ⟨fun s hs => ?_, hrest List.mem_cons_self⟩
      rw [hlater List.mem_cons_self hs]
      simp [position, List.findIdx_cons]

/-- There are as many distinct results as identifiers. -/
theorem length_distinct (results : List SearchResult) :
    (distinct results).length = idCount results := by
  have hids : ((distinct results).map id).toFinset = (results.map id).toFinset := by
    ext i
    simp only [List.mem_toFinset, List.mem_map, mem_distinct_iff]
    constructor
    · rintro ⟨r, hr, rfl⟩
      exact ⟨r, hr.mem, rfl⟩
    · rintro ⟨r, hr, rfl⟩
      exact exists_isFirst hr
  have hnodup : ((distinct results).map id).Nodup := nodup_distinctFrom [] results
  rw [idCount, ← hids, List.toFinset_card_of_nodup hnodup, List.length_map]

/-- Between numbers, a result outranks another one by its score, or by its position where the scores
are equal. -/
theorem outranks_iff (ha : a.score.isNaN = false) (hb : b.score.isNaN = false) :
    Outranks results a b ↔ b.score.place < a.score.place ∨
      a.score.place = b.score.place ∧ position results a < position results b := by
  rw [Outranks, Score.lt_iff_place hb ha, Score.beq_iff_place ha hb]

/-- Two results with numbers do not outrank each other. -/
theorem Outranks.asymm (ha : a.score.isNaN = false) (hb : b.score.isNaN = false)
    (hab : Outranks results a b) : ¬Outranks results b a := by
  rw [outranks_iff ha hb] at hab
  rw [outranks_iff hb ha]
  rintro (hlt | ⟨heq, hbefore⟩)
  · rcases hab with hlt' | ⟨heq, -⟩
    · exact lt_asymm hlt hlt'
    · exact hlt.ne heq
  · rcases hab with hlt | ⟨-, hbefore'⟩
    · exact hlt.ne heq
    · exact lt_asymm hbefore hbefore'

/-- The first results of a list, ranked. -/
def ranked (results : List SearchResult) : List SearchResult :=
  Score.rank SearchResult.score (distinct results)

/-- Ranking keeps the first result with each identifier. -/
theorem mem_ranked_iff : r ∈ ranked results ↔ IsFirst results r :=
  (Score.rank_perm SearchResult.score _).mem_iff.trans mem_distinct_iff

/-- There are as many ranked results as identifiers. -/
theorem length_ranked (results : List SearchResult) :
    (ranked results).length = idCount results :=
  (Score.rank_perm SearchResult.score _).length_eq.trans (length_distinct results)

/-- The ranked results have distinct identifiers. -/
theorem nodup_ranked (results : List SearchResult) : ((ranked results).map id).Nodup :=
  ((Score.rank_perm SearchResult.score _).map id).nodup_iff.mpr (nodup_distinctFrom [] results)

/-- The ranked results of a list whose identifiers are not among those of another one. -/
def leftOut (results merged : List SearchResult) : List SearchResult :=
  (ranked results).filter fun s => !(merged.map id).contains s.id

/-- Left out of a merged list are the first results whose identifiers it does not have. -/
theorem mem_leftOut_iff :
    s ∈ leftOut results merged ↔ IsFirst results s ∧ s.id ∉ merged.map id := by
  rw [leftOut, List.mem_filter, mem_ranked_iff]
  simp

/-- The best results and those that are left out are together the first results. -/
theorem IsBestOf.perm_append {limit : Nat} (h : IsBestOf results limit merged) :
    (merged ++ leftOut results merged).Perm (ranked results) := by
  have hnodup : (merged ++ leftOut results merged).Nodup := by
    refine List.nodup_append.mpr
      ⟨h.ids_nodup.of_map _, (nodup_ranked results).of_map.filter _, ?_⟩
    rintro r hr s hs rfl
    exact (mem_leftOut_iff.mp hs).2 (List.mem_map_of_mem hr)
  refine (List.perm_ext_iff_of_nodup hnodup (nodup_ranked results).of_map).mpr fun r => ?_
  rw [List.mem_append, mem_leftOut_iff, mem_ranked_iff]
  refine ⟨fun hr => hr.elim (h.isFirst r) And.left, fun hr => ?_⟩
  by_cases hid : r.id ∈ merged.map id
  · obtain ⟨s, hs, hsid⟩ := List.mem_map.mp hid
    exact .inl ((h.isFirst s hs).eq hr hsid ▸ hs)
  · exact .inr ⟨hr, hid⟩

section Numbers

variable (hnumbers : ∀ r ∈ results, r.score.isNaN = false)
include hnumbers

/-- The merged results are the distinct ones ranked by score. -/
theorem ranks_ranked : Score.Ranks SearchResult.score (distinct results) (ranked results) :=
  Score.ranks_rank fun r hr => hnumbers r (mem_distinct_iff.mp hr).mem

/-- Each ranked result outranks those behind it. -/
theorem pairwise_ranked : (ranked results).Pairwise (Outranks results) := by
  refine ((ranks_ranked hnumbers).pairwise (pairwise_distinctFrom [] results)).imp_of_mem ?_
  intro a b ha hb hab
  exact (outranks_iff (hnumbers a (mem_ranked_iff.mp ha).mem)
    (hnumbers b (mem_ranked_iff.mp hb).mem)).mpr hab

/-- The best results are the first of the ranked ones, since no result outranks one that outranks
it. -/
theorem IsBestOf.eq_take {limit : Nat} (h : IsBestOf results limit merged) :
    merged = (ranked results).take merged.length := by
  have hordered : (merged ++ leftOut results merged).Pairwise (Outranks results) := by
    refine List.pairwise_append.mpr ⟨h.ordered, (pairwise_ranked hnumbers).filter _, ?_⟩
    intro r hr s hs
    obtain ⟨hfirst, hnew⟩ := mem_leftOut_iff.mp hs
    exact h.outranked s hfirst (fun hmem => hnew (List.mem_map_of_mem hmem)) r hr
  have hequal : merged ++ leftOut results merged = ranked results := by
    refine h.perm_append.eq_of_pairwise (fun a b ha hb hab hba => ?_) hordered
      (pairwise_ranked hnumbers)
    have hnumber : ∀ {r}, r ∈ ranked results → r.score.isNaN = false := fun hr =>
      hnumbers _ (mem_ranked_iff.mp hr).mem
    exact absurd hba (hab.asymm (hnumber (h.perm_append.mem_iff.mp ha)) (hnumber hb))
  rw [← hequal, List.take_left]

end Numbers

/-- Merging ranks what both lists have, and cuts the ranking at the limit; a limit of zero is
none. -/
theorem merge_eq_take (limit : Nat) :
    merge xs ys limit = (ranked (xs ++ ys)).take
      (if 0 < limit then min limit (idCount (xs ++ ys)) else idCount (xs ++ ys)) := by
  have hlength := length_ranked (xs ++ ys)
  unfold merge
  dsimp only
  split
  · rw [← hlength, ← List.take_take, List.take_length]
    rfl
  · rw [← hlength, List.take_length]
    rfl

/-- The first of the ranked results are the best ones. -/
theorem isBestOf_merge (limit : Nat) (hnumbers : ∀ r ∈ xs ++ ys, r.score.isNaN = false) :
    IsBestOf (xs ++ ys) limit (merge xs ys limit) := by
  have hordered := pairwise_ranked hnumbers
  have hlength := length_ranked (xs ++ ys)
  rw [merge_eq_take]
  generalize hn : (if 0 < limit then min limit (idCount (xs ++ ys)) else idCount (xs ++ ys)) = n
  refine ⟨?_, fun r hr => mem_ranked_iff.mp (List.mem_of_mem_take hr),
    hordered.sublist (List.take_sublist n _), ?_, fun s hs hleft r hr => ?_⟩
  · exact (nodup_ranked (xs ++ ys)).sublist ((List.take_sublist n _).map id)
  · rw [List.length_take, hlength, ← hn]
    split <;> omega
  · have hs := mem_ranked_iff.mpr hs
    rw [← List.take_append_drop n (ranked (xs ++ ys))] at hordered hs
    exact (List.pairwise_append.mp hordered).2.2 r hr s ((List.mem_append.mp hs).resolve_left hleft)

/-- A list of numbers without repeated identifiers that descends stays as it is when nothing is
merged into it, if the limit allows so many. -/
theorem merge_nil {limit : Nat} (hids : (xs.map id).Nodup)
    (hnumbers : ∀ r ∈ xs, r.score.isNaN = false)
    (hdescends : xs.Pairwise fun a b => b.score.place ≤ a.score.place)
    (hlimit : 0 < limit → xs.length ≤ limit) : merge xs [] limit = xs := by
  have hdistinct : distinct (xs ++ []) = xs := by
    have hnew : distinctFrom [] (xs ++ []) = xs ++ distinctFrom _ [] :=
      distinctFrom_append_of_new (fun r _ => List.not_mem_nil) hids
    simpa [distinct, distinctFrom] using hnew
  unfold merge
  rw [hdistinct, Score.rank_of_descends hnumbers hdescends]
  dsimp only
  split
  · rename_i hpos
    exact List.take_of_length_le (hlimit hpos)
  · rfl

/-- Two lists of results whose scores are numbers merge to the best results of both, which are
one list only. Merging nothing into it leaves it as it is. -/
theorem merge_best_unique (first second : List SearchResult) (limit : Nat)
    (hnumbers : ∀ r ∈ first ++ second, r.score.isNaN = false) :
    IsBestOf (first ++ second) limit (merge first second limit) ∧
      (∀ merged, IsBestOf (first ++ second) limit merged → merged = merge first second limit) ∧
      merge (merge first second limit) [] limit = merge first second limit := by
  have hbest := isBestOf_merge limit hnumbers
  have hkept : ∀ r ∈ merge first second limit, r.score.isNaN = false := fun r hr =>
    hnumbers r (hbest.isFirst r hr).mem
  refine ⟨hbest, fun merged hmerged => ?_, ?_⟩
  · rw [hmerged.eq_take hnumbers, hbest.eq_take hnumbers, hmerged.length_eq, hbest.length_eq]
  · refine merge_nil hbest.ids_nodup hkept (hbest.ordered.imp_of_mem fun ha hb hab => ?_) ?_
    · rcases (outranks_iff (hkept _ ha) (hkept _ hb)).mp hab with hlt | ⟨heq, -⟩
      · exact hlt.le
      · exact heq.ge
    · intro hpos
      rw [hbest.length_eq, if_pos hpos]
      exact Nat.min_le_left _ _

/-- A result for a note of a given identifier. -/
def noteResult (id : Int) (score : Score) : SearchResult :=
  ofEntity (.memo ⟨id, 1, "", .midnight .first⟩) score

/-- The first note of identifier 1 stays with its score, and of the two zeros the one that
comes first. -/
theorem merge_best_unique_of_zeros :
    let first := [noteResult 1 0.5, noteResult 2 (-0.0), noteResult 2 0.75]
    let second := [noteResult 1 0.75, noteResult 3 0, noteResult 4 0.75]
    (∀ r ∈ first ++ second, r.score.isNaN = false) ∧
      IsBestOf (first ++ second) 3 [noteResult 4 0.75, noteResult 1 0.5, noteResult 2 (-0.0)] ∧
      merge [noteResult 4 0.75, noteResult 1 0.5, noteResult 2 (-0.0)] [] 3 =
        [noteResult 4 0.75, noteResult 1 0.5, noteResult 2 (-0.0)] := by
  intro first second
  have hnumbers : ∀ r ∈ first ++ second, r.score.isNaN = false := by decide +kernel
  have hmerge : merge first second 3 =
      [noteResult 4 0.75, noteResult 1 0.5, noteResult 2 (-0.0)] := by rfl
  obtain ⟨hbest, -, hagain⟩ := merge_best_unique first second 3 hnumbers
  rw [hmerge] at hbest hagain
  exact ⟨hnumbers, hbest, hagain⟩

end Daybook.SearchResult
