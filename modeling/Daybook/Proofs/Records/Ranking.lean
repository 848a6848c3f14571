import Daybook.Records.Similarity
import Mathlib.Data.Prod.Lex

/-!
# Ranking by score

Scores that are numbers are ordered in a line, in which the two zeros have one place.
A list of such scores is ranked in one way only: it descends, and equal scores keep
their order.
-/

namespace Daybook

namespace Score

open Float.Model (UnpackedFloat)

/-- The place of an unpacked float among all of them: its class, and within a class the
exponent and then the mantissa, both turned round for negative floats. -/
def placeOf : UnpackedFloat → ℤ ×ₗ ℤ ×ₗ ℤ
  | .infinity .negative => toLex (-2, toLex (0, 0))
  | .finite .negative mantissa exponent _ => toLex (-1, toLex (-exponent, -mantissa))
  | .notANumber | .zero _ => toLex (0, toLex (0, 0))
  | .finite .positive mantissa exponent _ => toLex (1, toLex (exponent, mantissa))
  | .infinity .positive => toLex (2, toLex (0, 0))

/-- The place of a score among all scores. -/
def place (s : Score) : ℤ ×ₗ ℤ ×ₗ ℤ := placeOf s.toModel.unpack

/-- Numbers are less as their places on a line of integers are. -/
theorem lt_iff_placeOf {x y : UnpackedFloat} (hx : x ≠ .notANumber) (hy : y ≠ .notANumber) :
    x.lt y = true ↔ placeOf x < placeOf y := by
  rcases x with (_ | _) | _ | _ | ⟨_ | _, m, e, _⟩ <;>
    rcases y with (_ | _) | _ | _ | ⟨_ | _, n, f, _⟩ <;>
    first
      | exact absurd rfl hx
      | exact absurd rfl hy
      | dsimp only [UnpackedFloat.lt, UnpackedFloat.compare, placeOf]
        simp [Prod.Lex.toLex_lt_toLex, Ordering.then_eq_lt, Ordering.then_eq_gt,
          Ordering.swap_eq_lt, Int.compare_eq_lt, Int.compare_eq_gt, Nat.compare_eq_lt,
          Nat.compare_eq_gt]
  rfl

/-- Numbers are at most each other as their places are. -/
theorem le_iff_placeOf {x y : UnpackedFloat} (hx : x ≠ .notANumber) (hy : y ≠ .notANumber) :
    x.le y = true ↔ placeOf x ≤ placeOf y := by
  rcases x with (_ | _) | _ | _ | ⟨_ | _, m, e, _⟩ <;>
    rcases y with (_ | _) | _ | _ | ⟨_ | _, n, f, _⟩ <;>
    first
      | exact absurd rfl hx
      | exact absurd rfl hy
      | dsimp only [UnpackedFloat.le, UnpackedFloat.compare, placeOf]
        simp [Prod.Lex.toLex_le_toLex, Ordering.isLE_then_iff_or, Ordering.isLE_swap,
          Ordering.isGE_iff_ne_lt, Ordering.then_eq_lt, Int.compare_eq_lt, Nat.compare_eq_lt,
          Nat.isLE_compare]
  all_goals first | rfl | omega

/-- Only numbers are compared with success. -/
theorem ne_notANumber_of_le {x y : UnpackedFloat} (h : x.le y = true) :
    x ≠ .notANumber ∧ y ≠ .notANumber := by
  refine ⟨?_, ?_⟩
  · rintro rfl
    cases h
  · rintro rfl
    cases x <;> cases h

variable {a b c : Score}

/-- Scores are compared by what their bits stand for. -/
theorem lt_iff_unpacked : a < b ↔ a.toModel.unpack.lt b.toModel.unpack = true := by
  change decide (a.toModel.lt b.toModel = true) = true ↔ _
  rw [decide_eq_true_iff]
  rfl

/-- Scores that may be equal are compared by what their bits stand for, too. -/
theorem le_iff_unpacked : a ≤ b ↔ a.toModel.unpack.le b.toModel.unpack = true := by
  change decide (a.toModel.le b.toModel = true) = true ↔ _
  rw [decide_eq_true_iff]
  rfl

/-- A score is a number if its bits stand for one. -/
theorem isNaN_eq_false_iff : a.isNaN = false ↔ a.toModel.unpack ≠ .notANumber := by
  change a.toModel.unpack.isNaN = false ↔ _
  generalize a.toModel.unpack = x
  constructor
  · rintro h rfl
    cases h
  · intro h
    cases x with
    | notANumber => exact absurd rfl h
    | infinity sign => rfl
    | zero sign => rfl
    | finite sign mantissa exponent hmantissa => rfl

/-- Scores that are numbers compare as their places do. -/
theorem lt_iff_place (ha : a.isNaN = false) (hb : b.isNaN = false) :
    a < b ↔ a.place < b.place :=
  lt_iff_unpacked.trans (lt_iff_placeOf (isNaN_eq_false_iff.mp ha) (isNaN_eq_false_iff.mp hb))

/-- Scores that are numbers are ordered as their places are. -/
theorem le_iff_place (ha : a.isNaN = false) (hb : b.isNaN = false) :
    a ≤ b ↔ a.place ≤ b.place :=
  le_iff_unpacked.trans (le_iff_placeOf (isNaN_eq_false_iff.mp ha) (isNaN_eq_false_iff.mp hb))

/-- Two numbers are equal if the first one is at most the second one without being less. -/
theorem beq_unpacked_iff {x y : UnpackedFloat} :
    x.beq y = true ↔ x.le y = true ∧ ¬x.lt y = true := by
  unfold UnpackedFloat.beq UnpackedFloat.le UnpackedFloat.lt
  cases x.compare y with
  | none => simp
  | some order => cases order <;> simp

/-- Scores that are numbers are equal if they have one place, as the two zeros do. -/
theorem beq_iff_place (ha : a.isNaN = false) (hb : b.isNaN = false) :
    (a == b) = true ↔ a.place = b.place := by
  have hle := le_iff_unpacked.symm.trans (le_iff_place ha hb)
  have hlt := lt_iff_unpacked.symm.trans (lt_iff_place ha hb)
  change a.toModel.unpack.beq b.toModel.unpack = true ↔ _
  rw [beq_unpacked_iff, hle, hlt, not_lt, le_antisymm_iff]

/-- Only numbers are at most as great as others, or at least. -/
theorem isNaN_of_le (h : a ≤ b) : a.isNaN = false ∧ b.isNaN = false := by
  rw [isNaN_eq_false_iff, isNaN_eq_false_iff]
  exact ne_notANumber_of_le (le_iff_unpacked.mp h)

/-- A lesser score is also at most the greater one. -/
theorem le_of_lt (h : a < b) : a ≤ b := by
  rw [lt_iff_unpacked] at h
  rw [le_iff_unpacked]
  unfold UnpackedFloat.lt at h
  unfold UnpackedFloat.le
  cases horder : a.toModel.unpack.compare b.toModel.unpack with
  | none => simp [horder] at h
  | some order => cases order <;> simp_all

/-- A score that is no number is neither less nor greater than another. -/
theorem not_lt_of_isNaN (h : a.isNaN = true ∨ b.isNaN = true) : ¬a < b := by
  intro hlt
  obtain ⟨ha, hb⟩ := isNaN_of_le (le_of_lt hlt)
  rw [ha, hb] at h
  rcases h with h | h <;> cases h

/-- No score is less than itself, also if it is no number. -/
theorem not_lt_self (a : Score) : ¬a < a := by
  cases hnan : a.isNaN with
  | false =>
    rw [lt_iff_place hnan hnan]
    exact lt_irrefl _
  | true => exact not_lt_of_isNaN (.inl hnan)

/-- The order of scores is transitive, as only numbers take part in it. -/
theorem le_trans (hab : a ≤ b) (hbc : b ≤ c) : a ≤ c := by
  obtain ⟨ha, hb⟩ := isNaN_of_le hab
  obtain ⟨-, hc⟩ := isNaN_of_le hbc
  rw [le_iff_place ha hc]
  exact ((le_iff_place ha hb).mp hab).trans ((le_iff_place hb hc).mp hbc)

variable {α : Type} {score : α → Score} {xs ys zs : List α}

/-- A list ranks another by score: it descends, and at each place it keeps the elements
of the other in their order. -/
structure Ranks (score : α → Score) (xs ys : List α) : Prop where
  descends : ys.Pairwise fun a b => (score b).place ≤ (score a).place
  keeps : ∀ place, ys.filter (fun a => (score a).place = place) =
    xs.filter fun a => (score a).place = place

namespace Ranks

/-- A ranking has the elements of the list that it ranks. -/
theorem mem_iff (h : Ranks score xs ys) {a : α} : a ∈ ys ↔ a ∈ xs := by
  have hmem : ∀ l : List α, a ∈ l ↔ a ∈ l.filter fun b => (score b).place = (score a).place := by
    simp
  rw [hmem ys, hmem xs, h.keeps]

/-- A list has one ranking only: the heads of two rankings have the greatest place of all elements,
which is therefore one. -/
theorem unique (hy : Ranks score xs ys) (hz : Ranks score xs zs) : ys = zs := by
  induction ys generalizing xs zs with
  | nil =>
    cases zs with
    | nil => rfl
    | cons b zs =>
      have hb := hy.mem_iff.mpr (hz.mem_iff.mp (List.mem_cons_self (a := b)))
      cases hb
  | cons a ys ih =>
    have ha : a ∈ zs := hz.mem_iff.mpr (hy.mem_iff.mp List.mem_cons_self)
    cases zs with
    | nil => cases ha
    | cons b zs =>
      have hb : b ∈ a :: ys := hy.mem_iff.mpr (hz.mem_iff.mp List.mem_cons_self)
      have hplace : (score a).place = (score b).place := by
        apply le_antisymm
        · rcases List.mem_cons.mp ha with rfl | htail
          · exact le_rfl
          · exact (List.pairwise_cons.mp hz.descends).1 a htail
        · rcases List.mem_cons.mp hb with rfl | htail
          · exact le_rfl
          · exact (List.pairwise_cons.mp hy.descends).1 b htail
      have hkeeps : ∀ place, (a :: ys).filter (fun c => (score c).place = place) =
          (b :: zs).filter fun c => (score c).place = place := by
        intro place
        rw [hy.keeps, hz.keeps]
      have hhead := hkeeps (score a).place
      rw [List.filter_cons_of_pos (by simp), List.filter_cons_of_pos (by simp [hplace])] at hhead
      obtain ⟨rfl, -⟩ := List.cons.inj hhead
      have htails : Ranks score ys zs := by
        refine ⟨(List.pairwise_cons.mp hz.descends).2, fun place => ?_⟩
        have h := hkeeps place
        by_cases ha : (score a).place = place
        · rw [List.filter_cons_of_pos (by simpa), List.filter_cons_of_pos (by simpa)] at h
          exact (List.cons.inj h).2.symm
        · rw [List.filter_cons_of_neg (by simpa), List.filter_cons_of_neg (by simpa)] at h
          exact h.symm
      rw [ih ⟨(List.pairwise_cons.mp hy.descends).2, fun _ => rfl⟩ htails]

/-- What is left of a ranking without some elements ranks the list without them. -/
theorem filter (h : Ranks score xs ys) (p : α → Bool) :
    Ranks score (xs.filter p) (ys.filter p) := by
  refine ⟨h.descends.filter p, fun place => ?_⟩
  simp only [List.filter_filter, Bool.and_comm _ (p _)]
  rw [← List.filter_filter, h.keeps, List.filter_filter]

/-- A ranking keeps the order of the elements wherever their scores have one place. -/
theorem pairwise {before : α → α → Prop} (h : Ranks score xs ys) (hxs : xs.Pairwise before) :
    ys.Pairwise fun a b => (score b).place < (score a).place ∨
      (score a).place = (score b).place ∧ before a b := by
  refine List.pairwise_iff_forall_sublist.mpr fun {a b} hab => ?_
  have hle := List.pairwise_iff_forall_sublist.mp h.descends hab
  rcases hle.lt_or_eq with hlt | heq
  · exact .inl hlt
  · have hkept := hab.filter fun c => decide ((score c).place = (score a).place)
    rw [h.keeps, List.filter_eq_self.mpr (by simp [heq])] at hkept
    exact .inr ⟨heq.symm, List.pairwise_iff_forall_sublist.mp hxs
      (hkept.trans List.filter_sublist)⟩

/-- A list that descends ranks itself. -/
theorem of_descends (h : xs.Pairwise fun a b => (score b).place ≤ (score a).place) :
    Ranks score xs xs :=
  ⟨h, fun _ => rfl⟩

end Ranks

/-- Inserting an element into a ranking adds it and drops nothing. -/
theorem insertRanked_perm (x : α) : (insertRanked score x ys).Perm (x :: ys) := by
  induction ys with
  | nil => exact .rfl
  | cons y ys ih =>
    unfold insertRanked
    split
    · exact (ih.cons y).trans (.swap x y ys)
    · exact .rfl

/-- Whatever the scores are, a list that is ranked has the same elements. -/
theorem rank_perm (score : α → Score) (xs : List α) : (rank score xs).Perm xs := by
  have hfold : ∀ ranked : List α,
      (xs.foldl (fun ranked x => insertRanked score x ranked) ranked).Perm (xs ++ ranked) := by
    induction xs with
    | nil => exact fun ranked => .rfl
    | cons x xs ih =>
      intro ranked
      exact (ih _).trans (((insertRanked_perm x).append_left xs).trans List.perm_middle)
  exact (List.reverse_perm _).trans (by simpa using hfold [])

/-- Insertion passes smaller scores only, so that each place keeps its order. -/
theorem filter_insertRanked {x : α} (hx : (score x).isNaN = false)
    (hys : ∀ y ∈ ys, (score y).isNaN = false) (place : ℤ ×ₗ ℤ ×ₗ ℤ) :
    (insertRanked score x ys).filter (fun a => (score a).place = place) =
      (x :: ys).filter fun a => (score a).place = place := by
  induction ys with
  | nil => rfl
  | cons y ys ih =>
    unfold insertRanked
    split
    · rename_i hlt
      have hplace := (lt_iff_place (hys y List.mem_cons_self) hx).mp hlt
      rw [List.filter_cons, ih fun a ha => hys a (List.mem_cons_of_mem y ha)]
      by_cases hy : (score y).place = place
      · have hother : (score x).place ≠ place := hy ▸ hplace.ne'
        simp [hy, hother]
      · simp [List.filter_cons, hy]
    · rfl

/-- Insertion into an ascending list leaves an ascending list. -/
theorem pairwise_insertRanked {x : α} (hx : (score x).isNaN = false)
    (hys : ∀ y ∈ ys, (score y).isNaN = false)
    (h : ys.Pairwise fun a b => (score a).place ≤ (score b).place) :
    (insertRanked score x ys).Pairwise fun a b => (score a).place ≤ (score b).place := by
  induction ys with
  | nil => exact List.pairwise_singleton _ x
  | cons y ys ih =>
    obtain ⟨hhead, htail⟩ := List.pairwise_cons.mp h
    have hlt := lt_iff_place (hys y List.mem_cons_self) hx
    unfold insertRanked
    split
    · rename_i hpass
      refine List.pairwise_cons.mpr
        ⟨fun b hb => ?_, ih (fun a ha => hys a (List.mem_cons_of_mem y ha)) htail⟩
      rcases List.mem_cons.mp ((insertRanked_perm x).mem_iff.mp hb) with rfl | hb
      · exact (hlt.mp hpass).le
      · exact hhead b hb
    · rename_i hstay
      have hle : (score x).place ≤ (score y).place := not_lt.mp (hstay ∘ hlt.mpr)
      refine List.pairwise_cons.mpr ⟨fun b hb => ?_, h⟩
      rcases List.mem_cons.mp hb with rfl | hb
      · exact hle
      · exact hle.trans (hhead b hb)

/-- One more element ranks among those that are ranked already. -/
theorem Ranks.insert {x : α} (h : Ranks score xs ys.reverse)
    (hnumbers : ∀ a ∈ xs ++ [x], (score a).isNaN = false) :
    Ranks score (xs ++ [x]) (insertRanked score x ys).reverse := by
  have hx : (score x).isNaN = false := hnumbers x (by simp)
  have hys : ∀ y ∈ ys, (score y).isNaN = false := fun y hy =>
    hnumbers y (List.mem_append_left _ (h.mem_iff.mp (List.mem_reverse.mpr hy)))
  refine ⟨?_, fun place => ?_⟩
  · exact List.pairwise_reverse.mpr
      (pairwise_insertRanked hx hys (List.pairwise_reverse.mp h.descends))
  · rw [List.filter_reverse, filter_insertRanked hx hys, ← List.filter_reverse,
      List.reverse_cons, List.filter_append, h.keeps, List.filter_append]

/-- Insertion one by one ranks a list of numbers. -/
theorem ranks_rank (hnumbers : ∀ a ∈ xs, (score a).isNaN = false) :
    Ranks score xs (rank score xs) := by
  have hfold : ∀ seen ranked : List α, Ranks score seen ranked.reverse →
      (∀ a ∈ seen ++ xs, (score a).isNaN = false) →
      Ranks score (seen ++ xs)
        (xs.foldl (fun ranked x => insertRanked score x ranked) ranked).reverse := by
    clear hnumbers
    induction xs with
    | nil => exact fun seen ranked hranked _ => by simpa using hranked
    | cons x xs ih =>
      intro seen ranked hranked hnumbers
      rw [List.append_cons] at hnumbers ⊢
      exact ih _ _ (hranked.insert fun a ha => hnumbers a (List.mem_append_left _ ha)) hnumbers
  exact hfold [] [] (.of_descends .nil) hnumbers

/-- A stable sort by descending place ranks a list, as it leaves elements of one place in their
order. -/
theorem ranks_mergeSort_place (score : α → Score) (xs : List α) :
    Ranks score xs (xs.mergeSort fun a b => (score b).place ≤ (score a).place) := by
  have htrans : ∀ a b c : α, decide ((score b).place ≤ (score a).place) = true →
      decide ((score c).place ≤ (score b).place) = true →
      decide ((score c).place ≤ (score a).place) = true := by
    simp only [decide_eq_true_eq]
    exact fun a b c hab hbc => hbc.trans hab
  have htotal : ∀ a b : α, (decide ((score b).place ≤ (score a).place) ||
      decide ((score a).place ≤ (score b).place)) = true := by
    simpa only [Bool.or_eq_true, decide_eq_true_eq] using fun a b => le_total _ _
  refine ⟨?_, fun place => ?_⟩
  · simpa only [decide_eq_true_eq] using List.pairwise_mergeSort htrans htotal xs
  · have hordered : (xs.filter fun a => (score a).place = place).Pairwise fun a b =>
        decide ((score b).place ≤ (score a).place) = true := by
      refine List.pairwise_of_forall_mem_list fun a ha b hb => ?_
      have ha := of_decide_eq_true (List.mem_filter.mp ha).2
      have hb := of_decide_eq_true (List.mem_filter.mp hb).2
      exact decide_eq_true (hb.trans ha.symm).le
    have hsublist := (List.sublist_mergeSort htrans htotal hordered List.filter_sublist).filter
      fun a => decide ((score a).place = place)
    rw [List.filter_filter] at hsublist
    simp only [Bool.and_self] at hsublist
    have hlength := ((List.mergeSort_perm xs fun a b => (score b).place ≤ (score a).place).filter
      fun a => decide ((score a).place = place)).length_eq
    exact (hsublist.eq_of_length hlength.symm).symm

/-- A stable sort by descending score ranks a list of numbers. -/
theorem ranks_mergeSort (hnumbers : ∀ a ∈ xs, (score a).isNaN = false) :
    Ranks score xs (xs.mergeSort fun a b => score b ≤ score a) := by
  have hplaces := List.map_mergeSort (f := id) (l := xs)
    (r := fun a b => decide (score b ≤ score a))
    (s := fun a b => decide ((score b).place ≤ (score a).place)) fun a ha b hb => by
      simp [le_iff_place (hnumbers b hb) (hnumbers a ha)]
  simp only [List.map_id] at hplaces
  rw [hplaces]
  exact ranks_mergeSort_place score xs

/-- Insertion one by one is a stable sort of a list of numbers. -/
theorem rank_eq_mergeSort (hnumbers : ∀ a ∈ xs, (score a).isNaN = false) :
    rank score xs = xs.mergeSort fun a b => score b ≤ score a :=
  (ranks_rank hnumbers).unique (ranks_mergeSort hnumbers)

/-- A list of numbers that descends is ranked already. -/
theorem rank_of_descends (hnumbers : ∀ a ∈ xs, (score a).isNaN = false)
    (h : xs.Pairwise fun a b => (score b).place ≤ (score a).place) : rank score xs = xs :=
  (ranks_rank hnumbers).unique (.of_descends h)

/-- The elements of a descending list with a least score come first. -/
theorem filter_least_isPrefix (hnumbers : ∀ a ∈ xs, (score a).isNaN = false)
    (h : xs.Pairwise fun a b => (score b).place ≤ (score a).place) (least : Score) :
    (xs.filter fun a => least ≤ score a) <+: xs := by
  induction xs with
  | nil => exact List.prefix_rfl
  | cons a xs ih =>
    obtain ⟨hhead, htail⟩ := List.pairwise_cons.mp h
    have hrest := ih (fun b hb => hnumbers b (List.mem_cons_of_mem a hb)) htail
    by_cases ha : least ≤ score a
    · rw [List.filter_cons_of_pos (by simpa), List.prefix_cons_inj]
      exact hrest
    · have hnone : (xs.filter fun b => least ≤ score b) = [] := by
        rw [List.filter_eq_nil_iff]
        intro b hb hleast
        have hb' := hnumbers b (List.mem_cons_of_mem a hb)
        have hle : score b ≤ score a := (le_iff_place hb' (hnumbers a List.mem_cons_self)).mpr
          (hhead b hb)
        exact ha (le_trans (of_decide_eq_true hleast) hle)
      rw [List.filter_cons_of_neg (by simpa), hnone]
      exact List.nil_prefix

/-- Where a filter keeps the first elements of a list, a cut before it that is not
shorter than the cut after it makes no difference. -/
theorem take_filter_take {p : α → Bool} (h : xs.filter p <+: xs) {k n : Nat} (hk : k ≤ n) :
    ((xs.take n).filter p).take k = (xs.filter p).take k := by
  obtain ⟨rest, hrest⟩ := h
  have hnone : rest.filter p = [] := by
    have hfilter := congrArg (List.filter p) hrest
    rw [List.filter_append, List.filter_filter] at hfilter
    simpa using hfilter
  have hwanted : ∀ j, ((xs.filter p).take j).filter p = (xs.filter p).take j := fun j =>
    List.filter_eq_self.mpr fun a ha => (List.mem_filter.mp (List.mem_of_mem_take ha)).2
  have hrestless : ∀ j, (rest.take j).filter p = [] := fun j =>
    List.eq_nil_of_sublist_nil (hnone ▸ (List.take_sublist j rest).filter p)
  calc ((xs.take n).filter p).take k
      = (((xs.filter p ++ rest).take n).filter p).take k := by rw [hrest]
    _ = ((xs.filter p).take n).take k := by
      rw [List.take_append, List.filter_append, hwanted, hrestless, List.append_nil]
    _ = (xs.filter p).take k := by rw [List.take_take, Nat.min_eq_left hk]

end Score

end Daybook
