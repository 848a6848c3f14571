import Daybook.Records.Store

/-!
# Which schedules are listed

Strict mode lists the schedules that lie in a range, and the other modes those that
overlap it. Where no schedule ends before it starts, a schedule in the range also overlaps
it, with one exception: a schedule that starts and ends just where the range starts.
-/

namespace Daybook

section StableSort

variable {α : Type} {le : α → α → Bool}

/-- Two lists that agree have the same parts, if an element belongs between the parts of
each of them. -/
theorem eq_of_append_eq_append {a : α} {front back front' back' : List α}
    (h : front ++ back = front' ++ back')
    (hfront : ∀ b ∈ front, le a b = false) (hback : ∀ b ∈ back, le a b = true)
    (hfront' : ∀ b ∈ front', le a b = false) (hback' : ∀ b ∈ back', le a b = true) :
    front = front' ∧ back = back' := by
  have hlater : ∀ {front back : List α}, (∀ b ∈ front, le a b = false) →
      (∀ b ∈ back, le a b = true) → (front ++ back).filter (le a) = back := by
    intro front back hfront hback
    rw [List.filter_append, List.filter_eq_nil_iff.mpr fun b hb => by simp [hfront b hb],
      List.filter_eq_self.mpr hback, List.nil_append]
  have hbacks : back = back' := by
    rw [← hlater hfront hback, h, hlater hfront' hback']
  subst hbacks
  exact ⟨List.append_cancel_right h, rfl⟩

/-- A stable sort may come before a filter or after: it puts an element behind just those that must
come before it. -/
theorem filter_mergeSort (htrans : ∀ a b c, le a b = true → le b c = true → le a c = true)
    (htotal : ∀ a b, (le a b || le b a) = true) (p : α → Bool) (xs : List α) :
    (xs.mergeSort le).filter p = (xs.filter p).mergeSort le := by
  induction xs with
  | nil => simp
  | cons a xs ih =>
    obtain ⟨front, back, hsort, hrest, hfront⟩ := List.mergeSort_cons htrans htotal a xs
    rw [hrest, List.filter_append] at ih
    cases ha : p a with
    | false =>
      rw [hsort, List.filter_append, List.filter_cons_of_neg (by simp [ha]),
        List.filter_cons_of_neg (by simp [ha]), ih]
    | true =>
      obtain ⟨front', back', hsort', hrest', hfront'⟩ :=
        List.mergeSort_cons htrans htotal a (xs.filter p)
      have hsorted := List.pairwise_mergeSort htrans htotal (a :: xs)
      have hsorted' := List.pairwise_mergeSort htrans htotal (a :: xs.filter p)
      rw [hsort] at hsorted
      rw [hsort'] at hsorted'
      have hback := (List.pairwise_cons.mp (List.pairwise_append.mp hsorted).2.1).1
      have hback' := (List.pairwise_cons.mp (List.pairwise_append.mp hsorted').2.1).1
      obtain ⟨hfronts, hbacks⟩ := eq_of_append_eq_append (ih.trans hrest')
        (fun b hb => by simpa using hfront b (List.mem_filter.mp hb).1)
        (fun b hb => hback b (List.mem_filter.mp hb).1)
        (fun b hb => by simpa using hfront' b hb) hback'
      rw [hsort, List.filter_append, List.filter_cons_of_pos ha, List.filter_cons_of_pos ha,
        hsort', hfronts, hbacks]

end StableSort

namespace Store

variable {store : Store} {user : Int} {range : Range} {mode : MatchMode} {s : Schedule}

/-- The order of a listing is transitive, as sorting by it demands. -/
theorem listedBefore_trans (a b c : Schedule) (hab : listedBefore a b = true)
    (hbc : listedBefore b c = true) : listedBefore a c = true := by
  simp only [listedBefore, Bool.or_eq_true, Bool.and_eq_true, decide_eq_true_eq, beq_iff_eq,
    Instant.lt_iff_rank, ← Instant.rank_inj] at hab hbc ⊢
  omega

/-- Of two schedules one may always be listed before the other. -/
theorem listedBefore_total (a b : Schedule) : (listedBefore a b || listedBefore b a) = true := by
  simp only [listedBefore, Bool.or_eq_true, Bool.and_eq_true, decide_eq_true_eq, beq_iff_eq,
    Instant.lt_iff_rank, ← Instant.rank_inj]
  omega

/-- The schedules of a user in the order of listings. -/
def agenda (store : Store) (user : Int) : List Schedule :=
  ((store.ownedBy user).filterMap (·.entity.schedule?)).mergeSort listedBefore

/-- A listing is the part of the agenda that matches the range. -/
theorem schedules_some (store : Store) (user : Int) (range : Range) (mode : MatchMode) :
    store.schedules user (some range) mode =
      (store.agenda user).filter fun s => isMatch s range mode := by
  simp only [schedules, agenda, Option.all_some]
  exact (filter_mergeSort listedBefore_trans listedBefore_total _ _).symm

/-- The schedules of an agenda are those of the user's records. -/
theorem mem_agenda : s ∈ store.agenda user ↔
    ∃ record ∈ store.records, record.entity = .schedule s ∧ s.creatorId = user := by
  have hschedule : ∀ entity : Entity, entity.schedule? = some s ↔ entity = .schedule s := by
    intro entity
    cases entity <;> simp [Entity.schedule?]
  simp only [agenda, List.mem_mergeSort, List.mem_filterMap, hschedule, ownedBy, List.mem_filter,
    beq_iff_eq, and_assoc]
  refine exists_congr fun record => and_congr_right fun _ => ?_
  constructor
  · rintro ⟨howner, hentity⟩
    exact ⟨hentity, by simpa [hentity, Entity.owner] using howner⟩
  · rintro ⟨hentity, howner⟩
    exact ⟨by simpa [hentity, Entity.owner] using howner, hentity⟩

/-- A listing has schedules of the user only. -/
theorem creatorId_of_mem_schedules {range : Option Range}
    (h : s ∈ store.schedules user range mode) : s.creatorId = user := by
  have hagenda : s ∈ store.agenda user := by
    simp only [schedules, List.mem_mergeSort] at h
    exact List.mem_mergeSort.mpr (List.mem_filter.mp h).1
  obtain ⟨record, -, -, howner⟩ := mem_agenda.mp hagenda
  exact howner

/-- Without a time spoken of, schedules are matched as for a phrase. -/
theorem isMatch_auto (s : Schedule) (range : Range) :
    isMatch s range .auto = isMatch s range .standard := by
  cases hstop : s.stop <;> simp only [isMatch, hstop]

/-- A schedule that lies in a range overlaps it, unless it ends where the range starts. -/
theorem isMatch_standard_of_strict (hends : s.start ≤ s.effectiveEnd)
    (hstrict : isMatch s range .strict = true) :
    isMatch s range .standard = true ↔ s.stop ≠ some range.start := by
  unfold Schedule.effectiveEnd at hends
  cases hstop : s.stop with
  | none =>
    simp only [isMatch, hstop, Bool.and_eq_true] at hstrict ⊢
    simp [hstrict.1]
  | some stop =>
    simp only [isMatch, hstop, Range.contains, Bool.and_eq_true, decide_eq_true_eq,
      Option.getD_some, Instant.lt_iff_rank, Instant.le_iff_rank, ne_eq, Option.some.injEq,
      ← Instant.rank_inj] at hends hstrict ⊢
    omega

/-- What strict mode lists for a range, the other modes list too and in the same order, as
far as it does not end where the range starts. So strict mode lists a part of what the
other modes do just if no schedule in the range ends there. -/
theorem schedules_strict_sublist (store : Store) (user : Int) (range : Range)
    (hends : ∀ record ∈ store.records, ∀ s, record.entity = .schedule s →
      s.start ≤ s.effectiveEnd) :
    let strict := store.schedules user (some range) .strict
    let standard := store.schedules user (some range) .standard
    store.schedules user (some range) .auto = standard ∧
    (strict.filter fun s => s.stop ≠ some range.start).Sublist standard ∧
    (∀ s ∈ strict, s ∈ standard ↔ s.stop ≠ some range.start) ∧
    (strict.Sublist standard ↔ ∀ s ∈ strict, s.stop ≠ some range.start) := by
  intro strict standard
  have hstrict : strict = (store.agenda user).filter fun s => isMatch s range .strict :=
    schedules_some ..
  have hstandard : standard = (store.agenda user).filter fun s => isMatch s range .standard :=
    schedules_some ..
  have hmatch : ∀ s ∈ strict, isMatch s range .standard = true ↔ s.stop ≠ some range.start := by
    intro s hs
    rw [hstrict, List.mem_filter] at hs
    obtain ⟨record, hrecord, hentity, -⟩ := mem_agenda.mp hs.1
    exact isMatch_standard_of_strict (hends record hrecord s hentity) hs.2
  have hmem : ∀ s ∈ strict, s ∈ standard ↔ s.stop ≠ some range.start := by
    intro s hs
    rw [← hmatch s hs, hstandard, List.mem_filter]
    exact and_iff_right (List.mem_filter.mp (hstrict ▸ hs)).1
  have hsublist : (strict.filter fun s => s.stop ≠ some range.start).Sublist standard := by
    have hboth : (strict.filter fun s => s.stop ≠ some range.start) =
        strict.filter fun s => isMatch s range .standard := by
      refine List.filter_congr fun s hs => ?_
      rw [Bool.eq_iff_iff, decide_eq_true_iff]
      exact (hmatch s hs).symm
    rw [hboth, hstrict, hstandard]
    exact List.filter_sublist.filter _
  refine ⟨?_, hsublist, hmem, fun hsub s hs => (hmem s hs).mp (hsub.subset hs), fun hall => ?_⟩
  · simp only [standard, schedules_some, isMatch_auto]
  · rwa [List.filter_eq_self.mpr fun s hs => decide_eq_true (hall s hs)] at hsublist

/-- A whole day. -/
def wholeDay : Range := ⟨.midnight { day := 19737 }, .midnight { day := 19738 }, "day"⟩

/-- A store with two schedules at the first moment of that day, one of which says that it
ends there, and with a third that goes on. -/
def midnightStore : Store :=
  let midnight := wholeDay.start
  ((({} : Store).addSchedule ⟨1, 1, "Reminder", "", midnight, some midnight⟩ none).addSchedule
    ⟨2, 1, "Backup", "", midnight, none⟩ none).addSchedule
    ⟨3, 1, "Party", "", midnight, some wholeDay.stop⟩ none

/-- No schedule of the store ends before it starts. -/
theorem start_le_effectiveEnd_midnightStore : ∀ record ∈ midnightStore.records, ∀ s,
    record.entity = .schedule s → s.start ≤ s.effectiveEnd := by
  simp only [midnightStore, addSchedule, insert, List.nil_append, List.cons_append,
    List.forall_mem_cons, Entity.schedule.injEq]
  refine ⟨?_, ?_, ?_, by simp⟩ <;> rintro s rfl <;> decide

/-- The agenda of the store is in the order in which it was filled. -/
theorem agenda_midnightStore : midnightStore.agenda 1 =
    (midnightStore.ownedBy 1).filterMap (·.entity.schedule?) :=
  List.mergeSort_of_pairwise (by decide +kernel)

/-- A schedule lies in the range and is not listed as one that overlaps it, although it
does not end before it starts. The one beside it without an end is listed. -/
theorem moment_missed_by_overlap :
    let strict := midnightStore.schedules 1 (some wholeDay) .strict
    let standard := midnightStore.schedules 1 (some wholeDay) .standard
    wholeDay.isWellFormed = true ∧
    (∀ record ∈ midnightStore.records, ∀ s, record.entity = .schedule s →
      s.start ≤ s.effectiveEnd) ∧
    strict.map (·.id) = [1, 2, 3] ∧ standard.map (·.id) = [2, 3] ∧ ¬strict.Sublist standard := by
  intro strict standard
  have hstrict : strict.map (·.id) = [1, 2, 3] := by
    simp only [strict, schedules_some, agenda_midnightStore]
    decide +kernel
  have hstandard : standard.map (·.id) = [2, 3] := by
    simp only [standard, schedules_some, agenda_midnightStore]
    decide +kernel
  refine ⟨by decide, start_le_effectiveEnd_midnightStore, hstrict, hstandard, fun hsub => ?_⟩
  have hids := hsub.map (·.id)
  rw [hstrict, hstandard] at hids
  simpa using hids.length_le

/-- What strict mode lists beside that schedule, the other modes list as well. -/
theorem schedules_strict_sublist_at_midnight :
    let strict := midnightStore.schedules 1 (some wholeDay) .strict
    let standard := midnightStore.schedules 1 (some wholeDay) .standard
    let rest := strict.filter fun s => s.stop ≠ some wholeDay.start
    (∀ record ∈ midnightStore.records, ∀ s, record.entity = .schedule s →
      s.start ≤ s.effectiveEnd) ∧
    rest.map (·.id) = [2, 3] ∧ rest.Sublist standard := by
  intro strict standard rest
  have hends := start_le_effectiveEnd_midnightStore
  have hrest : rest.map (·.id) = [2, 3] := by
    simp only [rest, strict, schedules_some, agenda_midnightStore]
    decide +kernel
  exact ⟨hends, hrest, (schedules_strict_sublist midnightStore 1 wholeDay hends).2.1⟩

end Store

end Daybook
