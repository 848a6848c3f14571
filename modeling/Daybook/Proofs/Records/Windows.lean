import Daybook.Proofs.Records.Listing
import Daybook.Proofs.Time.Hours

/-!
# Listings of neighbouring ranges

A range may be cut into two that follow each other. What overlaps it overlaps one of the two;
what lies in it lies in one of the two as well, or goes on across the cut. A wider range lists
no less.
-/

namespace Daybook

/-- A range is cut into two that follow each other, neither of which is empty. -/
structure Range.IsCutInto (whole first second : Range) : Prop where
  start_eq : first.start = whole.start
  meet : first.stop = second.start
  stop_eq : second.stop = whole.stop
  first_lt : first.start < first.stop
  second_lt : second.start < second.stop

/-- Both parts of a range lie in it. -/
theorem Range.IsCutInto.within {whole first second : Range} (h : whole.IsCutInto first second) :
    first.Within whole ∧ second.Within whole := by
  obtain ⟨hstart, hmeet, hstop, hfirst, hsecond⟩ := h
  simp only [Range.Within, hstart, hmeet, ← hstop, Instant.lt_iff_rank, Instant.le_iff_rank]
    at hfirst hsecond ⊢
  omega

/-- A schedule has no end, or ends after it starts. -/
def Schedule.IsOrdered (s : Schedule) : Prop := ∀ stop, s.stop = some stop → s.start < stop

namespace Store

variable {store : Store} {user : Int} {range wider whole first second : Range} {mode : MatchMode}
  {s : Schedule}

/-- In strict mode a schedule is listed if it begins inside the range and does not go on behind its
end. -/
theorem isMatch_strict_iff : isMatch s range .strict = true ↔
    range.start ≤ s.start ∧ s.start < range.stop ∧ s.effectiveEnd ≤ range.stop := by
  simp [isMatch, Range.contains, and_assoc]

/-- A schedule without end is a point in time, and any other one is matched by what it overlaps. -/
theorem isMatch_iff_of_ne_strict (hmode : mode ≠ .strict) : isMatch s range mode = true ↔
    s.start < range.stop ∧
      match s.stop with
      | none => range.start ≤ s.start
      | some stop => range.start < stop := by
  cases mode with
  | strict => exact absurd rfl hmode
  | standard | auto => cases hstop : s.stop <;> simp [isMatch, Range.contains, hstop, and_comm]

/-- What matches a range matches a wider one. -/
theorem isMatch_of_within (hwithin : range.Within wider) (hmatch : isMatch s range mode = true) :
    isMatch s wider mode = true := by
  obtain ⟨hstart, hstop⟩ := hwithin
  by_cases hmode : mode = .strict
  · subst hmode
    rw [isMatch_strict_iff] at hmatch ⊢
    simp only [Instant.lt_iff_rank, Instant.le_iff_rank] at *
    omega
  · rw [isMatch_iff_of_ne_strict hmode] at hmatch ⊢
    cases hend : s.stop <;>
      simp only [hend, Instant.lt_iff_rank, Instant.le_iff_rank] at * <;>
      omega

/-- What overlaps a range overlaps one of its parts: a schedule that does not start before the cut
goes on behind it. -/
theorem isMatch_of_isCutInto (hcut : whole.IsCutInto first second) (hordered : s.IsOrdered)
    (hmode : mode ≠ .strict) :
    isMatch s whole mode = true ↔ isMatch s first mode = true ∨ isMatch s second mode = true := by
  constructor
  · intro hmatch
    obtain ⟨hstart, hmeet, hstop, -, -⟩ := hcut
    simp only [isMatch_iff_of_ne_strict hmode, ← hstart, ← hstop, ← hmeet] at hmatch ⊢
    cases hend : s.stop with
    | none =>
      simp only [hend, Instant.lt_iff_rank, Instant.le_iff_rank] at *
      omega
    | some stop =>
      have hlasts := hordered stop hend
      simp only [hend, Instant.lt_iff_rank] at *
      omega
  · rintro (hmatch | hmatch)
    · exact isMatch_of_within hcut.within.1 hmatch
    · exact isMatch_of_within hcut.within.2 hmatch

/-- No schedule lies in both parts of a range. -/
theorem not_isMatch_strict_both (hcut : whole.IsCutInto first second)
    (hfirst : isMatch s first .strict = true) : ¬isMatch s second .strict = true := by
  intro hsecond
  rw [isMatch_strict_iff] at hfirst hsecond
  have hmeet := hcut.meet
  simp only [Instant.lt_iff_rank, Instant.le_iff_rank] at *
  rw [hmeet] at hfirst
  omega

/-- What lies in a range and in none of its parts goes on across the cut. -/
theorem isMatch_strict_across_iff (hcut : whole.IsCutInto first second) :
    (isMatch s whole .strict = true ∧ ¬isMatch s first .strict = true ∧
      ¬isMatch s second .strict = true) ↔
    s.start < second.start ∧ second.start < s.effectiveEnd ∧
      whole.start ≤ s.start ∧ s.effectiveEnd ≤ whole.stop := by
  obtain ⟨hstart, hmeet, hstop, hfirst, hsecond⟩ := hcut
  simp only [isMatch_strict_iff, hstart, hmeet, hstop, Instant.lt_iff_rank,
    Instant.le_iff_rank] at *
  omega

/-- Without a range, the whole agenda is listed. -/
theorem schedules_none (store : Store) (user : Int) (mode : MatchMode) :
    store.schedules user none mode = store.agenda user := by
  simp only [schedules, agenda, Option.all_none, List.filter_true]

/-- A listing for a range has those of all schedules that match the range. -/
theorem mem_schedules_some : s ∈ store.schedules user (some range) mode ↔
    s ∈ store.schedules user none mode ∧ isMatch s range mode = true := by
  rw [schedules_some, schedules_none, List.mem_filter]

/-- A wider range lists what a narrower one does, in the same order. -/
theorem schedules_sublist_of_within (hwithin : range.Within wider) :
    (store.schedules user (some range) mode).Sublist (store.schedules user (some wider) mode) := by
  rw [schedules_some, schedules_some]
  exact List.monotone_filter_right _ fun s => isMatch_of_within hwithin

/-- The listings of a range and of the two parts into which it is cut. Where schedules last for
some time if they have an end, those that overlap the range are those that overlap a part of it.
No schedule lies in both parts, and what lies in a part lies in the range. What else lies in the
range starts before the cut and ends after it. And whatever the mode is, a wider range lists what
a narrower one does, in the same order. -/
theorem schedules_cut (store : Store) (user : Int) {whole first second : Range}
    (hcut : whole.IsCutInto first second) :
    let listed (range : Range) (mode : MatchMode) (s : Schedule) :=
      s ∈ store.schedules user (some range) mode
    ((∀ record ∈ store.records, ∀ s, record.entity = .schedule s → s.IsOrdered) →
      ∀ mode ≠ .strict, ∀ s, listed whole mode s ↔ listed first mode s ∨ listed second mode s) ∧
    (∀ s, ¬(listed first .strict s ∧ listed second .strict s)) ∧
    (∀ s, listed first .strict s ∨ listed second .strict s → listed whole .strict s) ∧
    (∀ s, (listed whole .strict s ∧ ¬listed first .strict s ∧ ¬listed second .strict s) ↔
      s ∈ store.schedules user none .strict ∧ s.start < second.start ∧
        second.start < s.effectiveEnd ∧ whole.start ≤ s.start ∧ s.effectiveEnd ≤ whole.stop) ∧
    ∀ (range wider : Range) (mode : MatchMode), range.Within wider →
      (store.schedules user (some range) mode).Sublist
        (store.schedules user (some wider) mode) := by
  intro listed
  refine ⟨fun hordered mode hmode s => ?_, fun s => ?_, fun s => ?_, fun s => ?_,
    fun range wider mode => schedules_sublist_of_within⟩
  · simp only [listed, mem_schedules_some, ← and_or_left]
    refine and_congr_right fun hs => isMatch_of_isCutInto hcut ?_ hmode
    rw [schedules_none] at hs
    obtain ⟨record, hrecord, hentity, -⟩ := mem_agenda.mp hs
    exact hordered record hrecord s hentity
  · simp only [listed, mem_schedules_some]
    rintro ⟨⟨-, hfirst⟩, -, hsecond⟩
    exact not_isMatch_strict_both hcut hfirst hsecond
  · rintro (hs | hs)
    · exact (schedules_sublist_of_within hcut.within.1).subset hs
    · exact (schedules_sublist_of_within hcut.within.2).subset hs
  · rw [← isMatch_strict_across_iff hcut]
    simp only [listed, mem_schedules_some]
    tauto

/-- The day after the whole day. -/
def nextDay : Range := ⟨wholeDay.stop, .midnight { day := 19739 }, "day"⟩

/-- The whole day and the next one. -/
def bothDays : Range := ⟨wholeDay.start, nextDay.stop, "days"⟩

/-- A conference that goes on over midnight. -/
def conference : Schedule :=
  ⟨1, 1, "Conference", "", wholeDay.start, some nextDay.stop⟩

/-- The conference overlaps both days, and lies in none of them but in the two together. -/
theorem schedules_cut_at_midnight :
    let store := ({} : Store).addSchedule conference none
    let listed (range : Range) (mode : MatchMode) :=
      conference ∈ store.schedules 1 (some range) mode
    bothDays.IsCutInto wholeDay nextDay ∧
    (∀ record ∈ store.records, ∀ s, record.entity = .schedule s → s.IsOrdered) ∧
    listed bothDays .standard ∧ listed wholeDay .standard ∧
    listed bothDays .strict ∧ ¬listed wholeDay .strict ∧ ¬listed nextDay .strict := by
  intro store listed
  have hcut : bothDays.IsCutInto wholeDay nextDay :=
    ⟨rfl, rfl, rfl, by decide, by decide⟩
  have hordered : ∀ record ∈ store.records, ∀ s, record.entity = .schedule s → s.IsOrdered := by
    intro record hrecord s hentity
    obtain rfl : record = ⟨.schedule conference, none⟩ := List.mem_singleton.mp hrecord
    cases hentity
    rintro stop ⟨⟩
    decide
  have hagenda : conference ∈ store.schedules 1 none .strict := by
    rw [schedules_none]
    exact mem_agenda.mpr ⟨_, List.mem_singleton_self _, rfl, rfl⟩
  obtain ⟨hoverlap, -, -, hacross, -⟩ := schedules_cut store 1 hcut
  have hfirst : listed wholeDay .standard := mem_schedules_some.mpr ⟨hagenda, by decide⟩
  have honly := (hacross conference).mpr ⟨hagenda, by decide⟩
  exact ⟨hcut, hordered, (hoverlap hordered .standard (by decide) conference).mpr (.inl hfirst),
    hfirst, honly⟩

end Store

end Daybook
