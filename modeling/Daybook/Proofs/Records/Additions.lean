import Daybook.Proofs.Records.Listing
import Mathlib.Data.List.Nodup

/-!
# Listings after some additions

A store is made by additions, one after the other. A listing has the schedules that were added
for a user and match, each as often as it was added. Where no two of the user's schedules have
both their start and their identifier in common, the order of the additions does not show.
-/

namespace Daybook

/-- An addition to a store. -/
inductive Addition where
  | memo (memo : Memo) (vector : List Score)
  | schedule (schedule : Schedule) (vector : Option (List Score))

namespace Addition

/-- The schedule that is added for a user, if one is. -/
def scheduleFor? (user : Int) : Addition → Option Schedule
  | memo .. => none
  | schedule s _ => if s.creatorId = user then some s else none

/-- Whether a given schedule is added, with or without a vector. -/
def adds (s : Schedule) : Addition → Bool
  | memo .. => false
  | schedule added _ => added == s

end Addition

namespace Store

variable {store : Store} {user : Int} {mode : MatchMode} {s : Schedule}

/-- The store after an addition. -/
def add (store : Store) : Addition → Store
  | .memo memo vector => store.addMemo memo vector
  | .schedule schedule vector => store.addSchedule schedule vector

/-- The store after some additions in order. -/
def addAll (store : Store) (additions : List Addition) : Store := additions.foldl add store

/-- The schedules of a user in the order in which they were added. -/
def ownedSchedules (store : Store) (user : Int) : List Schedule :=
  (store.ownedBy user).filterMap (·.entity.schedule?)

/-- An addition puts its schedule behind those that the user has, and does nothing else to
them. -/
theorem ownedSchedules_add (store : Store) (user : Int) (addition : Addition) :
    (store.add addition).ownedSchedules user =
      store.ownedSchedules user ++ (addition.scheduleFor? user).toList := by
  cases addition with
  | memo memo vector =>
    by_cases howner : memo.creatorId = user <;>
      simp [ownedSchedules, ownedBy, add, addMemo, insert, Addition.scheduleFor?, Entity.owner,
        Entity.schedule?, howner]
  | schedule schedule vector =>
    by_cases howner : schedule.creatorId = user <;>
      simp [ownedSchedules, ownedBy, add, addSchedule, insert, Addition.scheduleFor?,
        Entity.owner, Entity.schedule?, howner]

/-- Additions leave the schedules of a user that were there, and append the user's new ones in their
order. -/
theorem ownedSchedules_addAll (store : Store) (user : Int) (additions : List Addition) :
    (store.addAll additions).ownedSchedules user =
      store.ownedSchedules user ++ additions.filterMap (Addition.scheduleFor? user) := by
  induction additions generalizing store with
  | nil => simp [addAll]
  | cons addition additions ih =>
    have hrest : store.addAll (addition :: additions) = (store.add addition).addAll additions := by
      simp only [addAll, List.foldl_cons]
    rw [hrest, ih, ownedSchedules_add, List.append_assoc, List.filterMap_cons]
    cases addition.scheduleFor? user <;> simp

/-- A user has a schedule as often as it was added, if it is one of the user. -/
theorem count_filterMap_scheduleFor (additions : List Addition) (user : Int) (s : Schedule) :
    (additions.filterMap (Addition.scheduleFor? user)).count s =
      if s.creatorId = user then additions.countP (Addition.adds s) else 0 := by
  induction additions with
  | nil => simp
  | cons addition additions ih =>
    rw [List.filterMap_cons, List.countP_cons]
    cases addition with
    | memo memo vector => simpa [Addition.scheduleFor?, Addition.adds] using ih
    | schedule added vector =>
      by_cases hsame : added = s
      · subst hsame
        by_cases howner : added.creatorId = user <;>
          simp_all [Addition.scheduleFor?, Addition.adds]
      · by_cases howner : added.creatorId = user <;>
          simp_all [Addition.scheduleFor?, Addition.adds]

/-- Whether a schedule belongs in a listing. -/
def isWanted (range : Option Range) (mode : MatchMode) (s : Schedule) : Bool :=
  range.all fun r => isMatch s r mode

/-- A listing is a stable sort of the schedules that belong in it. -/
theorem schedules_eq (store : Store) (user : Int) (range : Option Range) (mode : MatchMode) :
    store.schedules user range mode =
      ((store.ownedSchedules user).filter (isWanted range mode)).mergeSort listedBefore := rfl

/-- A listing has the wanted schedules of its user, each as often as the store, in some order. -/
theorem perm_schedules (store : Store) (user : Int) (range : Option Range) (mode : MatchMode) :
    (store.schedules user range mode).Perm
      ((store.ownedSchedules user).filter (isWanted range mode)) := by
  rw [schedules_eq]
  exact List.mergeSort_perm _ _

/-- A listing is ordered by start, and where starts are equal by identifier. -/
theorem pairwise_schedules (store : Store) (user : Int) (range : Option Range)
    (mode : MatchMode) : (store.schedules user range mode).Pairwise fun a b =>
      a.start < b.start ∨ a.start = b.start ∧ a.id ≤ b.id := by
  rw [schedules_eq]
  refine (List.pairwise_mergeSort listedBefore_trans listedBefore_total _).imp ?_
  intro a b hab
  simpa [listedBefore] using hab

/-- Two stores with the same schedules of a user, in whatever order, have the same listings, if
start and identifier tell these schedules apart. -/
theorem schedules_eq_of_perm {other : Store} {range : Option Range}
    (hperm : (other.ownedSchedules user).Perm (store.ownedSchedules user))
    (hdistinct : ((store.ownedSchedules user).map fun s => (s.start, s.id)).Nodup) :
    other.schedules user range mode = store.schedules user range mode := by
  have hlistings : (other.schedules user range mode).Perm (store.schedules user range mode) :=
    (perm_schedules ..).trans ((hperm.filter _).trans (perm_schedules ..).symm)
  refine hlistings.eq_of_pairwise (fun a b ha hb hab hba => ?_) (pairwise_schedules ..)
    (pairwise_schedules ..)
  have howned : ∀ {s}, s ∈ store.schedules user range mode → s ∈ store.ownedSchedules user :=
    fun hs => (List.mem_filter.mp ((perm_schedules ..).mem_iff.mp hs)).1
  have hkey : (a.start, a.id) = (b.start, b.id) := by
    simp only [Instant.lt_iff_rank, ← Instant.rank_inj, Prod.mk.injEq] at hab hba ⊢
    omega
  exact List.inj_on_of_nodup_map hdistinct (howned (hlistings.mem_iff.mp ha)) (howned hb) hkey

/-- A listing after some additions. It has each matching schedule of the user as often as that
was added, and is ordered by start and then by identifier. Notes, and the schedules of others,
make no difference, and neither does the order of the additions if start and identifier tell
the schedules of the user apart. -/
theorem schedules_addAll (additions : List Addition) (user : Int) (range : Option Range)
    (mode : MatchMode) :
    let listing (additions : List Addition) :=
      (({} : Store).addAll additions).schedules user range mode
    let added (additions : List Addition) := additions.filterMap (Addition.scheduleFor? user)
    (∀ s, (listing additions).count s =
      if s.creatorId = user ∧ range.all (fun r => isMatch s r mode) then
        additions.countP (Addition.adds s)
      else 0) ∧
    (listing additions).Pairwise
      (fun a b => a.start < b.start ∨ a.start = b.start ∧ a.id ≤ b.id) ∧
    (∀ others, added others = added additions → listing others = listing additions) ∧
    (((added additions).map fun s => (s.start, s.id)).Nodup →
      ∀ others, others.Perm additions → listing others = listing additions) := by
  intro listing added
  have howned : ∀ additions, (({} : Store).addAll additions).ownedSchedules user =
      added additions := ownedSchedules_addAll {} user
  refine ⟨fun s => ?_, pairwise_schedules .., fun others hadded => ?_,
    fun hdistinct others hperm => ?_⟩
  · rw [(perm_schedules ..).count_eq, howned]
    by_cases hwanted : isWanted range mode s = true
    · rw [List.count_filter hwanted, count_filterMap_scheduleFor]
      unfold isWanted at hwanted
      simp only [hwanted, and_true]
    · rw [List.count_eq_zero.mpr fun hs => hwanted (List.mem_filter.mp hs).2,
        if_neg fun h => hwanted h.2]
  · simp only [listing, schedules_eq, howned, hadded]
  · refine schedules_eq_of_perm ?_ ?_
    · rw [howned, howned]
      exact hperm.filterMap _
    · rwa [howned]

/-- Two schedules of a user that start together, the later identifier first, among a note and a
schedule of another user. -/
def mixedAdditions : List Addition :=
  [.schedule ⟨2, 1, "Dinner", "", wholeDay.stop, none⟩ none,
    .memo ⟨3, 1, "Shopping list", wholeDay.start⟩ [1, 0],
    .schedule ⟨1, 2, "Concert", "", wholeDay.stop, none⟩ none,
    .schedule ⟨1, 1, "Party", "", wholeDay.stop, none⟩ (some [0, 1])]

/-- Added in any order, the schedules of the user are listed by their identifiers. -/
theorem schedules_addAll_in_reverse :
    let listing (additions : List Addition) :=
      (({} : Store).addAll additions).schedules 1 none .auto
    ((mixedAdditions.filterMap (Addition.scheduleFor? 1)).map fun s => (s.start, s.id)).Nodup ∧
    listing mixedAdditions.reverse = listing mixedAdditions ∧
    (listing mixedAdditions).map (·.id) = [1, 2] := by
  intro listing
  have hdistinct : ((mixedAdditions.filterMap (Addition.scheduleFor? 1)).map
      fun s => (s.start, s.id)).Nodup := by decide +kernel
  obtain ⟨-, -, -, hpermuted⟩ := schedules_addAll mixedAdditions 1 none .auto
  have hreverse : listing mixedAdditions.reverse = listing mixedAdditions :=
    hpermuted hdistinct _ (List.reverse_perm _)
  have hsorted : listing mixedAdditions.reverse =
      (mixedAdditions.reverse.filterMap (Addition.scheduleFor? 1)) :=
    List.mergeSort_of_pairwise (by decide +kernel)
  exact ⟨hdistinct, hreverse, by rw [← hreverse, hsorted]; decide +kernel⟩

end Store

end Daybook
