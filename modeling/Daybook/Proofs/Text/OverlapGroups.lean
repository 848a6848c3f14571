import Daybook.Proofs.Text.Bytes

/-!
# Groups of overlapping spans

Spans fall into groups: two of them are in one group if they overlap, or if other spans link
them by overlaps. The spans of a group cover one part of the text without a gap, the parts of
different groups have no position in common, and blanking puts one space in place of each part.
-/

namespace Daybook.Text

variable {cs front back : List Char} {spans group : List Span} {groups : List (List Span)}
  {span a b : Span} {offset n : ℕ}

/-- Two spans share a position: each begins before the other one ends. -/
def Span.Overlaps (a b : Span) : Prop := a.start < b.stop ∧ b.start < a.stop

/-- Two spans are the same, or some of the spans lead from one to the other, each of which overlaps
the next one. -/
def Linked (spans : List Span) : Span → Span → Prop :=
  Relation.ReflTransGen fun a b => a ∈ spans ∧ b ∈ spans ∧ a.Overlaps b

/-- Spans that are linked by some spans are linked by more of them. -/
theorem Linked.mono {spans' : List Span} (hsub : spans ⊆ spans') (h : Linked spans a b) :
    Linked spans' a b :=
  Relation.ReflTransGen.mono (fun _ _ ⟨ha, hb, hover⟩ => ⟨hsub ha, hsub hb, hover⟩) a b h

/-- Links lead both ways, as overlaps do. -/
theorem Linked.symm (h : Linked spans a b) : Linked spans b a := by
  induction h with
  | refl => exact .refl
  | tail _ hstep ih =>
    obtain ⟨ha, hb, hbefore, hbehind⟩ := hstep
    exact .head ⟨hb, ha, hbehind, hbefore⟩ ih

/-- Links from before a position to behind it pass it inside a span. Otherwise each span would end
before the position, and so the next one begin before it. -/
theorem Linked.exists_crossing (h : Linked group a b) (ha : a ∈ group) (hstart : a.start < n)
    (hstop : n < b.stop) : ∃ span ∈ group, span.start < n ∧ n < span.stop := by
  by_contra! hnone
  refine absurd hstop (Nat.not_lt_of_le ?_)
  clear hstop
  induction h with
  | refl => exact hnone a ha hstart
  | tail _ hstep ih =>
    obtain ⟨-, hb, -, hover⟩ := hstep
    exact hnone _ hb (Nat.lt_of_lt_of_le hover ih)

/-- Groups of linked spans, one behind the other: no span of a group begins before all those of
the groups before it have ended. -/
structure IsRow (groups : List (List Span)) : Prop where
  ne_nil : ∀ group ∈ groups, group ≠ []
  lt : ∀ group ∈ groups, ∀ span ∈ group, span.start < span.stop
  linked : ∀ group ∈ groups, ∀ a ∈ group, ∀ b ∈ group, Linked group a b
  apart : groups.Pairwise fun g h => ∀ a ∈ g, ∀ b ∈ h, a.stop ≤ b.start

/-- Whether one of the spans of a group begins before a position. -/
def beginsBefore (n : ℕ) (group : List Span) : Bool := group.any (·.start < n)

/-- A group begins before a position if one of its spans does. -/
theorem beginsBefore_eq_true_iff :
    beginsBefore n group = true ↔ ∃ span ∈ group, span.start < n := by
  simp [beginsBefore]

/-- A group does not begin before a position if each of its spans begins there or later. -/
theorem beginsBefore_eq_false_iff :
    beginsBefore n group = false ↔ ∀ span ∈ group, n ≤ span.start := by
  simp [beginsBefore]

/-- The spans, which come in the order of their starts, by groups: each span is put before the
groups of those behind it, and joined with the groups that begin before it ends. -/
def groupsOf : List Span → List (List Span)
  | [] => []
  | span :: spans =>
    (span :: ((groupsOf spans).takeWhile (beginsBefore span.stop)).flatten) ::
      (groupsOf spans).dropWhile (beginsBefore span.stop)

/-- The groups hold the spans in their order. -/
@[simp] theorem flatten_groupsOf (spans : List Span) : (groupsOf spans).flatten = spans := by
  induction spans with
  | nil => rfl
  | cons span spans ih =>
    rw [groupsOf, List.flatten_cons, List.cons_append, ← List.flatten_append,
      List.takeWhile_append_dropWhile, ih]

/-- Some groups of a row are a row. -/
theorem IsRow.sublist {groups' : List (List Span)} (h : IsRow groups)
    (hsub : groups'.Sublist groups) : IsRow groups' :=
  ⟨fun group hgroup => h.ne_nil group (hsub.subset hgroup),
    fun group hgroup => h.lt group (hsub.subset hgroup),
    fun group hgroup => h.linked group (hsub.subset hgroup), h.apart.sublist hsub⟩

/-- If the first group does not begin before a position, no group does. -/
theorem IsRow.le_start {next : List Span} (h : IsRow (next :: groups))
    (hnext : ∀ a ∈ next, n ≤ a.start) : ∀ group ∈ next :: groups, ∀ b ∈ group, n ≤ b.start := by
  refine List.forall_mem_cons.mpr ⟨hnext, fun group hgroup b hb => ?_⟩
  obtain ⟨a, ha⟩ := List.exists_mem_of_ne_nil next (h.ne_nil next List.mem_cons_self)
  have hlt := h.lt next List.mem_cons_self a ha
  have hle := (List.pairwise_cons.mp h.apart).1 group hgroup a ha b hb
  have := hnext a ha
  omega

/-- Behind the groups that begin before a position, no group begins before it. -/
theorem IsRow.le_start_of_dropWhile (h : IsRow groups) :
    ∀ group ∈ groups.dropWhile (beginsBefore n), ∀ b ∈ group, n ≤ b.start := by
  cases hfar : groups.dropWhile (beginsBefore n) with
  | nil => simp
  | cons next far =>
    have hnext := List.head?_dropWhile_not (beginsBefore n) groups
    rw [hfar] at hnext
    exact (h.sublist (hfar ▸ List.dropWhile_sublist _)).le_start
      (beginsBefore_eq_false_iff.mp (by simpa using hnext))

/-- A span is linked to each span of the groups behind it that begin before it ends. -/
theorem IsRow.linked_of_takeWhile (h : IsRow groups)
    (hfirst : ∀ b ∈ groups.flatten, span.start ≤ b.start)
    (hb : b ∈ span :: (groups.takeWhile (beginsBefore span.stop)).flatten) :
    Linked (span :: (groups.takeWhile (beginsBefore span.stop)).flatten) span b := by
  rcases List.mem_cons.mp hb with rfl | hb
  · exact .refl
  · obtain ⟨group, hnear, hb⟩ := List.mem_flatten.mp hb
    have hgroup := (List.takeWhile_sublist _).subset hnear
    have hmem : group ⊆ span :: (groups.takeWhile (beginsBefore span.stop)).flatten := fun c hc =>
      List.mem_cons_of_mem _ (List.mem_flatten.mpr ⟨group, hnear, hc⟩)
    obtain ⟨a, ha, hbegun⟩ := beginsBefore_eq_true_iff.mp (List.mem_takeWhile_imp hnear)
    have hstart := hfirst a (List.mem_flatten.mpr ⟨group, hgroup, ha⟩)
    have hover : span.Overlaps a := ⟨Nat.lt_of_le_of_lt hstart (h.lt group hgroup a ha), hbegun⟩
    exact .head ⟨List.mem_cons_self, hmem ha, hover⟩ ((h.linked group hgroup a ha b hb).mono hmem)

/-- A span that begins before a row of groups, with the groups that begin before it ends, is the
first group of a row. -/
theorem IsRow.cons (h : IsRow groups) (hspan : span.start < span.stop)
    (hfirst : ∀ b ∈ groups.flatten, span.start ≤ b.start) :
    IsRow ((span :: (groups.takeWhile (beginsBefore span.stop)).flatten) ::
      groups.dropWhile (beginsBefore span.stop)) := by
  have hfar := h.sublist (List.dropWhile_sublist (beginsBefore span.stop))
  have happart := h.apart
  rw [← List.takeWhile_append_dropWhile (p := beginsBefore span.stop) (l := groups),
    List.pairwise_append] at happart
  refine ⟨?_, ?_, ?_, ?_⟩
  · exact List.forall_mem_cons.mpr ⟨List.cons_ne_nil _ _, hfar.ne_nil⟩
  · refine List.forall_mem_cons.mpr ⟨List.forall_mem_cons.mpr ⟨hspan, fun b hb => ?_⟩, hfar.lt⟩
    obtain ⟨group, hnear, hb⟩ := List.mem_flatten.mp hb
    exact h.lt group ((List.takeWhile_sublist _).subset hnear) b hb
  · exact List.forall_mem_cons.mpr ⟨fun a ha b hb =>
      (h.linked_of_takeWhile hfirst ha).symm.trans (h.linked_of_takeWhile hfirst hb), hfar.linked⟩
  · refine List.pairwise_cons.mpr ⟨fun group hgroup => ?_, hfar.apart⟩
    refine List.forall_mem_cons.mpr ⟨h.le_start_of_dropWhile group hgroup, fun a ha b hb => ?_⟩
    obtain ⟨near, hnear, ha⟩ := List.mem_flatten.mp ha
    exact happart.2.2 near hnear group hgroup a ha b hb

/-- Spans in the order of their starts are put in a row of groups. -/
theorem isRow_groupsOf (hsorted : spans.Pairwise fun a b => a.start ≤ b.start)
    (hspans : ∀ span ∈ spans, span.start < span.stop) : IsRow (groupsOf spans) := by
  induction spans with
  | nil => exact ⟨by simp [groupsOf], by simp [groupsOf], by simp [groupsOf], .nil⟩
  | cons span spans ih =>
    obtain ⟨hfirst, hsorted⟩ := List.pairwise_cons.mp hsorted
    obtain ⟨hspan, hspans⟩ := List.forall_mem_cons.mp hspans
    exact (ih hsorted hspans).cons hspan (by rwa [flatten_groupsOf])

/-- A span that begins where others end is in a group of its own. -/
example : groupsOf [⟨0, 2⟩, ⟨0, 2⟩, ⟨2, 3⟩, ⟨5, 8⟩, ⟨6, 7⟩, ⟨7, 9⟩] =
    [[⟨0, 2⟩, ⟨0, 2⟩], [⟨2, 3⟩], [⟨5, 8⟩, ⟨6, 7⟩, ⟨7, 9⟩]] := by
  decide

/-- The groups hold the spans, each as often as it is given, and two spans are in one group if and
only if they are linked. -/
structure IsGrouping (spans : List Span) (groups : List (List Span)) : Prop where
  perm : groups.flatten.Perm spans
  ne_nil : ∀ group ∈ groups, group ≠ []
  linked : ∀ group ∈ groups, ∀ a ∈ group, ∀ b ∈ group, Linked spans a b
  apart : groups.Pairwise fun g h => ∀ a ∈ g, ∀ b ∈ h, ¬Linked spans a b

/-- Spans of a row of groups that overlap are in the same group. -/
theorem IsRow.mem_of_overlaps (h : IsRow groups) (hgroup : group ∈ groups) (ha : a ∈ group)
    (hb : b ∈ groups.flatten) (hover : a.Overlaps b) : b ∈ group := by
  induction groups with
  | nil => cases hgroup
  | cons next groups ih =>
    have hnext := (List.pairwise_cons.mp h.apart).1
    rw [List.flatten_cons, List.mem_append] at hb
    rcases List.mem_cons.mp hgroup with rfl | hrest <;> rcases hb with hb | hb
    · exact hb
    · obtain ⟨group', hgroup', hb⟩ := List.mem_flatten.mp hb
      exact absurd (hnext group' hgroup' a ha b hb) (Nat.not_le_of_lt hover.2)
    · exact absurd (hnext group hrest b hb a ha) (Nat.not_le_of_lt hover.1)
    · exact ih (h.sublist (List.sublist_cons_self _ _)) hrest hb

/-- What is linked to a span of a group belongs to the group. -/
theorem IsRow.mem_of_linked (h : IsRow groups) (hgroup : group ∈ groups) (ha : a ∈ group)
    (hlinked : Linked groups.flatten a b) : b ∈ group := by
  induction hlinked with
  | refl => exact ha
  | tail _ hstep ih => exact h.mem_of_overlaps hgroup ih hstep.2.1 hstep.2.2

/-- A row of groups puts two spans in one group if they are linked, and only then. -/
theorem IsRow.isGrouping (h : IsRow groups) (hperm : groups.flatten.Perm spans) :
    IsGrouping spans groups := by
  refine ⟨hperm, h.ne_nil, fun group hgroup a ha b hb => ?_, ?_⟩
  · exact (h.linked group hgroup a ha b hb).mono fun c hc =>
      hperm.subset (List.mem_flatten.mpr ⟨group, hgroup, hc⟩)
  · refine h.apart.imp_of_mem fun {g g'} hg hg' hapart a ha b hb hlinked => ?_
    have hmem : b ∈ g := h.mem_of_linked hg ha (hlinked.mono hperm.symm.subset)
    exact absurd (hapart b hmem b hb) (Nat.not_le_of_lt (h.lt g hg b hmem))

/-- The span from the first position of a group to its end, which the group covers without a gap:
one of its spans goes on at each position between. -/
structure Span.IsHull (hull : Span) (group : List Span) : Prop where
  within : ∀ span ∈ group, hull.start ≤ span.start ∧ span.start < span.stop ∧
    span.stop ≤ hull.stop
  begins : ∃ span ∈ group, span.start = hull.start
  ends : ∃ span ∈ group, span.stop = hull.stop
  crossed : ∀ n, hull.start < n → n < hull.stop → ∃ span ∈ group, span.start < n ∧ n < span.stop

/-- Linked spans have a hull. -/
theorem exists_isHull (hne : group ≠ []) (hlt : ∀ span ∈ group, span.start < span.stop)
    (hlinked : ∀ a ∈ group, ∀ b ∈ group, Linked group a b) : ∃ hull : Span, hull.IsHull group := by
  obtain ⟨first, hfirst⟩ := Option.ne_none_iff_exists'.mp
    (mt (List.argmin_eq_none (f := Span.start)).mp hne)
  obtain ⟨last, hlast⟩ := Option.ne_none_iff_exists'.mp
    (mt (List.argmax_eq_none (f := Span.stop)).mp hne)
  have hfirstMem := List.argmin_mem hfirst
  have hlastMem := List.argmax_mem hlast
  refine ⟨⟨first.start, last.stop⟩, fun span hspan => ?_, ⟨first, hfirstMem, rfl⟩,
    ⟨last, hlastMem, rfl⟩, fun n hstart hstop => ?_⟩
  · have hleast : first.start ≤ span.start := List.le_of_mem_argmin hspan hfirst
    have hgreatest : span.stop ≤ last.stop := List.le_of_mem_argmax hspan hlast
    exact ⟨hleast, hlt span hspan, hgreatest⟩
  · exact (hlinked first hfirstMem last hlastMem).exists_crossing hfirstMem hstart hstop

section Hull

variable {hull : Span} (h : hull.IsHull group)
include h

/-- The hull of a group is not empty. -/
theorem Span.IsHull.lt : hull.start < hull.stop := by
  obtain ⟨span, hspan, hstart⟩ := h.begins
  have := h.within span hspan
  omega

/-- A span of the group goes on across a position if the hull does. -/
theorem Span.IsHull.crossed_iff : (∃ span ∈ group, span.start < n ∧ n < span.stop) ↔
    hull.start < n ∧ n < hull.stop := by
  refine ⟨?_, fun ⟨hstart, hstop⟩ => h.crossed n hstart hstop⟩
  rintro ⟨span, hspan, hstart, hstop⟩
  have := h.within span hspan
  omega

/-- The group covers what its hull covers. -/
theorem Span.IsHull.isCovered_iff :
    isCovered group n = true ↔ hull.start ≤ n ∧ n < hull.stop := by
  rw [isCovered_eq_true_iff]
  constructor
  · rintro ⟨span, hspan, hstart, hstop⟩
    have := h.within span hspan
    omega
  · rintro ⟨hstart, hstop⟩
    rcases Nat.eq_or_lt_of_le hstart with rfl | hbehind
    · obtain ⟨span, hspan, hbegins⟩ := h.begins
      exact ⟨span, hspan, hbegins.le, hbegins ▸ (h.within span hspan).2.1⟩
    · obtain ⟨span, hspan, hcrossed⟩ := h.crossed n hbehind hstop
      exact ⟨span, hspan, hcrossed.1.le, hcrossed.2⟩

/-- Before the hull, neither the group nor spans behind it cover anything. -/
theorem Span.IsHull.not_covered_before (hspans : ∀ span ∈ spans, hull.stop ≤ span.start)
    (hn : n < hull.start) : isCovered (group ++ spans) n = false := by
  refine isCovered_eq_false_iff.mpr (List.forall_mem_append.mpr ⟨fun span hspan => ?_, ?_⟩)
  · have := h.within span hspan
    omega
  · intro span hspan
    have := hspans span hspan
    have := h.lt
    omega

/-- Behind the hull, the group covers nothing. -/
theorem Span.IsHull.isCovered_behind (hn : hull.stop ≤ n) :
    isCovered (group ++ spans) n = isCovered spans n := by
  have hgroup : isCovered group n = false := by
    rw [← Bool.not_eq_true, h.isCovered_iff]
    omega
  rw [isCovered, List.any_append]
  exact (congrArg (· || isCovered spans n) hgroup).trans (Bool.false_or _)

/-- At a position that no span of the group passes, a span of it begins only if the hull does. -/
theorem Span.IsHull.begins_iff (hnone : ∀ span ∈ group, span.start < n → span.stop ≤ n) :
    (∃ span ∈ group, span.start = n) ↔ hull.start = n := by
  constructor
  · rintro ⟨span, hspan, rfl⟩
    have hwithin := h.within span hspan
    by_contra hne
    obtain ⟨other, hother, hcrossed⟩ := h.crossed span.start (by omega) (by omega)
    exact absurd (hnone other hother hcrossed.1) (Nat.not_le_of_lt hcrossed.2)
  · rintro rfl
    exact h.begins

/-- For what is left of a text, a group is as good as its hull. -/
theorem Span.IsHull.blanked_append :
    blanked (group ++ spans) offset cs = blanked (hull :: spans) offset cs := by
  refine blanked_congr fun n _ => ⟨?_, ?_⟩
  · rw [Bool.eq_iff_iff]
    simp only [isCovered, List.any_append, List.any_cons, Bool.or_eq_true, Bool.and_eq_true,
      decide_eq_true_eq]
    exact or_congr_left h.isCovered_iff
  · have hcrossed : (∀ span ∈ group, span.start < n → span.stop ≤ n) ↔
        (hull.start < n → hull.stop ≤ n) := by
      simpa using not_congr (h.crossed_iff (n := n))
    rw [Bool.eq_iff_iff, isOpened_eq_true_iff, isOpened_eq_true_iff, List.forall_mem_append,
      List.forall_mem_cons, hcrossed]
    refine and_congr_left fun hnone => ?_
    have hbegins := h.begins_iff (hcrossed.mpr hnone.1)
    simp only [List.mem_append, List.mem_cons, or_and_right, exists_or, exists_eq_left, hbegins]

/-- A group whose spans stand in a text covers a part of it, behind any front of the text that ends
before the group begins. -/
theorem Span.IsHull.exists_part (hspans : ∀ span ∈ group, span.StandsIn cs)
    (hcs : cs = front ++ back) (hfront : ∀ span ∈ group, byteLength front ≤ span.start) :
    ∃ kept gone back', back = kept ++ (gone ++ back') ∧
      hull.start = byteLength front + byteLength kept ∧
      hull.stop = byteLength front + byteLength (kept ++ gone) := by
  obtain ⟨first, hfirst, hbegins⟩ := h.begins
  obtain ⟨last, hlast, hends⟩ := h.ends
  have hhull : hull.StandsIn cs := Span.standsIn_iff.mpr ⟨h.lt,
    hbegins ▸ (Span.standsIn_iff.mp (hspans first hfirst)).2.1,
    hends ▸ (Span.standsIn_iff.mp (hspans last hlast)).2.2⟩
  obtain ⟨before, gone, back', hcs', -, hstart, hstop⟩ := hhull
  rw [List.append_assoc] at hcs'
  obtain ⟨kept, rfl, rfl⟩ := exists_of_byteLength_le (hcs.symm.trans hcs')
    (hstart ▸ hbegins ▸ hfront first hfirst)
  refine ⟨kept, gone, back', rfl, by rw [hstart, byteLength_append], ?_⟩
  rw [hstop, List.append_assoc, byteLength_append]

/-- In a row, the spans of the groups behind a group begin behind its hull. -/
theorem Span.IsHull.stop_le_start (hrow : IsRow (group :: groups)) :
    ∀ next ∈ groups, ∀ span ∈ next, hull.stop ≤ span.start := by
  obtain ⟨last, hlast, hends⟩ := h.ends
  intro next hnext span hspan
  exact hends ▸ (List.pairwise_cons.mp hrow.apart).1 next hnext last hlast span hspan

end Hull

/-- A text from position `offset` on is blanked: in place of what each group covers, there is one
space, and what none of the spans covers stays. -/
inductive Blanks (spans : List Span) :
    ℕ → List (List Span) → List Char → List Char → Prop
  | done {offset : ℕ} {cs : List Char} (hkept : ∀ n, offset ≤ n → isCovered spans n = false) :
      Blanks spans offset [] cs cs
  | group {offset : ℕ} {group : List Span} {groups : List (List Span)}
      {kept gone back out : List Char}
      (hkept : ∀ n, offset ≤ n → n < offset + byteLength kept → isCovered spans n = false)
      (hgone : ∀ n, isCovered group n = true ↔
        offset + byteLength kept ≤ n ∧ n < offset + byteLength (kept ++ gone))
      (hback : Blanks spans (offset + byteLength (kept ++ gone)) groups back out) :
      Blanks spans offset (group :: groups) (kept ++ gone ++ back) (kept ++ ' ' :: out)

/-- What is left of a text is blanked by groups that stand in a row. -/
theorem IsRow.blanks (h : IsRow groups) (front : List Char) (hcs : cs = front ++ back)
    (hspans : ∀ group ∈ groups, ∀ span ∈ group, span.StandsIn cs)
    (hfront : ∀ group ∈ groups, ∀ span ∈ group, byteLength front ≤ span.start)
    (hcovered : ∀ n, byteLength front ≤ n → isCovered spans n = isCovered groups.flatten n) :
    Blanks spans (byteLength front) groups back
      (blanked groups.flatten (byteLength front) back) := by
  induction groups generalizing front back with
  | nil =>
    rw [List.flatten_nil, blanked_none]
    exact .done hcovered
  | cons group groups ih =>
    obtain ⟨hgroup, hspans⟩ := List.forall_mem_cons.mp hspans
    obtain ⟨hull, hhull⟩ := exists_isHull (h.ne_nil group List.mem_cons_self)
      (h.lt group List.mem_cons_self) (h.linked group List.mem_cons_self)
    obtain ⟨kept, gone, back', rfl, hstart, hstop⟩ :=
      hhull.exists_part hgroup hcs (hfront group List.mem_cons_self)
    have hbehind := hhull.stop_le_start h
    have hrest : ∀ span ∈ groups.flatten, hull.stop ≤ span.start := fun span hspan => by
      obtain ⟨next, hnext, hspan⟩ := List.mem_flatten.mp hspan
      exact hbehind next hnext span hspan
    have hback := ih (h.sublist (List.sublist_cons_self _ _)) (front ++ (kept ++ gone))
      (by simpa using hcs) hspans (by rwa [byteLength_append, ← hstop]) fun n hn => by
        rw [byteLength_append, ← hstop] at hn
        rw [hcovered n (by omega), List.flatten_cons, hhull.isCovered_behind hn]
    rw [byteLength_append, ← hstop] at hback
    rw [List.flatten_cons, hhull.blanked_append, blanked_append_cons hhull.lt _ hstart,
      ← List.append_assoc]
    · refine .group (fun n hn hlt => ?_) (fun n => ?_) (hstop ▸ hback)
      · rw [hcovered n hn]
        exact hhull.not_covered_before hrest (hstart ▸ hlt)
      · rw [hhull.isCovered_iff, hstart, hstop]
    · rw [hstop, hstart, byteLength_append, Nat.add_assoc]
    · exact fun span hspan => Nat.le_trans hhull.lt.le (hrest span hspan)

/-- Blanking spans that are not empty and have their ends at ends of characters meets no fault. The
order of the spans does not matter, and what is left is the text with one space in place of the
part that each group of linked spans covers. -/
theorem blankSpans_blanks (h : ∀ span ∈ spans,
    span.start < span.stop ∧ IsBoundary cs span.start ∧ IsBoundary cs span.stop) :
    ∃ groups out, IsGrouping spans groups ∧ Blanks spans 0 groups cs out ∧
      ∀ spans', spans'.Perm spans → blankSpans cs spans' = .ok out := by
  have hstands : ∀ span ∈ spans, span.StandsIn cs := fun span hspan =>
    Span.standsIn_iff.mpr (h span hspan)
  have hperm := List.mergeSort_perm spans Span.le
  have hrow : IsRow (groupsOf (spans.mergeSort Span.le)) :=
    isRow_groupsOf (pairwise_mergeSort_le spans) fun span hspan => (h span (hperm.subset hspan)).1
  have hflatten : (groupsOf (spans.mergeSort Span.le)).flatten.Perm spans := by
    rwa [flatten_groupsOf]
  refine ⟨_, _, hrow.isGrouping hflatten, hrow.blanks [] rfl ?_ ?_ ?_, ?_⟩
  · intro group hgroup span hspan
    exact hstands span (hflatten.subset (List.mem_flatten.mpr ⟨group, hgroup, hspan⟩))
  · exact fun _ _ _ _ => Nat.zero_le _
  · exact fun n _ => hflatten.any_eq.symm
  · intro spans' hspans'
    rw [blankSpans_eq fun span hspan => hstands span (hspans'.subset hspan), byteLength_nil,
      blanked_perm hflatten, blanked_perm hspans']

/-- Two of the spans are the same, one begins where they end, and one holds another and reaches into
a third. -/
theorem blankSpans_blanks_beside_accent :
    let text := "été-bref".toList
    let spans : List Span := [⟨7, 9⟩, ⟨5, 8⟩, ⟨0, 2⟩, ⟨2, 3⟩, ⟨0, 2⟩, ⟨6, 7⟩]
    (∀ span ∈ spans,
      span.start < span.stop ∧ IsBoundary text span.start ∧ IsBoundary text span.stop) ∧
    ∃ groups out, IsGrouping spans groups ∧ Blanks spans 0 groups text out ∧
      (∀ spans', spans'.Perm spans → blankSpans text spans' = .ok out) ∧
      out = "  é f".toList := by
  intro text spans
  have hends : ∀ span ∈ spans,
      span.start < span.stop ∧ IsBoundary text span.start ∧ IsBoundary text span.stop := by
    simp only [spans, List.forall_mem_cons]
    refine ⟨?_, ?_, ?_, ?_, ?_, ?_, by simp⟩
    all_goals
      exact ⟨by decide, exists_splitAtByte_iff.mp ⟨_, rfl⟩, exists_splitAtByte_iff.mp ⟨_, rfl⟩⟩
  obtain ⟨groups, out, hgroups, hblanks, hout⟩ := blankSpans_blanks hends
  have hleft : blankSpans text spans = .ok (blanked spans 0 text) :=
    blankSpans_eq fun span hspan => Span.standsIn_iff.mpr (hends span hspan)
  have hsame : out = blanked spans 0 text :=
    Except.ok.inj ((hout spans (List.Perm.refl _)).symm.trans hleft)
  exact ⟨hends, groups, out, hgroups, hblanks, hout, hsame.trans (by decide)⟩

end Daybook.Text
