import Daybook.Time.Resolution
import Mathlib.Data.List.Induction

/-!
# The preferred phrase

The phrase that is chosen of some phrases in table order outranks all those before it, and
is outranked by none after it. There is one such phrase, unless there are no phrases at all.
-/

namespace Daybook.Phrase

variable {p q r : Phrase} {phrases : List Phrase}

/-- A phrase outranks another one if it is more specific, or as specific and longer. -/
def Outranks (p q : Phrase) : Prop :=
  p.anchor.tier < q.anchor.tier ∨ p.anchor.tier = q.anchor.tier ∧ q.size < p.size

/-- The test for precedence tells which phrase outranks the other. -/
theorem precedes_iff : p.precedes q = true ↔ p.Outranks q := by
  simp [precedes, Outranks]

/-- What outranks a phrase outranks all phrases that do not outrank it. -/
theorem Outranks.of_not (h : p.Outranks q) (hr : ¬r.Outranks q) : p.Outranks r := by
  unfold Outranks at *
  omega

/-- Outranking is transitive. -/
theorem Outranks.trans (hp : p.Outranks q) (hq : q.Outranks r) : p.Outranks r := by
  unfold Outranks at *
  omega

/-- The preferred one of some phrases in table order: the first of those that no phrase
outranks. -/
def IsPreferred (p : Phrase) (phrases : List Phrase) : Prop :=
  ∃ before after, phrases = before ++ p :: after ∧
    (∀ q ∈ before, p.Outranks q) ∧ ∀ q ∈ after, ¬q.Outranks p

/-- The preferred phrase is one of the phrases. -/
theorem IsPreferred.mem (h : p.IsPreferred phrases) : p ∈ phrases := by
  obtain ⟨before, after, rfl, -, -⟩ := h
  simp

/-- No two phrases are preferred. -/
theorem IsPreferred.unique (hp : p.IsPreferred phrases) (hq : q.IsPreferred phrases) : p = q := by
  obtain ⟨before, after, rfl, hbefore, hafter⟩ := hp
  obtain ⟨before', after', heq, hbefore', hafter'⟩ := hq
  rcases List.append_eq_append_iff.mp heq with ⟨between, rfl, hrest⟩ | ⟨between, rfl, hrest⟩
  · cases between with
    | nil => exact (List.cons.inj hrest).1
    | cons r between =>
      obtain ⟨rfl, rfl⟩ := List.cons.inj hrest
      exact absurd (hbefore' p (by simp)) (hafter q (by simp))
  · cases between with
    | nil => exact (List.cons.inj hrest).1.symm
    | cons r between =>
      obtain ⟨rfl, rfl⟩ := List.cons.inj hrest
      exact absurd (hbefore q (by simp)) (hafter' p (by simp))

/-- One phrase after the others is preferred if it outranks the one that was. -/
theorem IsPreferred.concat (h : p.IsPreferred phrases) (q : Phrase) :
    (if q.precedes p then q else p).IsPreferred (phrases ++ [q]) := by
  have hmem := h.mem
  obtain ⟨before, after, rfl, hbefore, hafter⟩ := h
  split
  · rename_i hprecedes
    have houtranks := precedes_iff.mp hprecedes
    refine ⟨before ++ p :: after, [], rfl, fun r hr => ?_, by simp⟩
    rcases List.mem_append.mp hr with hr | hr
    · exact houtranks.trans (hbefore r hr)
    · rcases List.mem_cons.mp hr with rfl | hr
      · exact houtranks
      · exact houtranks.of_not (hafter r hr)
  · rename_i hprecedes
    refine ⟨before, after ++ [q], by simp, hbefore, fun r hr => ?_⟩
    rcases List.mem_append.mp hr with hr | hr
    · exact hafter r hr
    · rw [List.mem_singleton.mp hr, ← precedes_iff]
      exact hprecedes

/-- Which of two phrases is kept when the second is met. -/
def keep (chosen : Option Phrase) (p : Phrase) : Option Phrase :=
  match chosen with
  | none => some p
  | some q => some (if p.precedes q then p else q)

/-- The best phrase is kept while the phrases are gone through in their order. -/
theorem best?_eq_foldl (phrases : List Phrase) : best? phrases = phrases.foldl keep none := by
  unfold best?
  congr 1
  funext chosen p
  cases chosen <;> rfl

/-- A last phrase is kept only if it outranks the best one before it. -/
theorem best?_concat (phrases : List Phrase) (p : Phrase) :
    best? (phrases ++ [p]) = keep (best? phrases) p := by
  rw [best?_eq_foldl, best?_eq_foldl, List.foldl_append, List.foldl_cons, List.foldl_nil]

/-- Of some phrases, the preferred one is chosen. -/
theorem exists_best? (h : phrases ≠ []) : ∃ p, best? phrases = some p ∧ p.IsPreferred phrases := by
  induction phrases using List.reverseRecOn with
  | nil => exact absurd rfl h
  | append_singleton phrases q ih =>
    rw [best?_concat]
    cases phrases with
    | nil => exact ⟨q, rfl, [], [], rfl, by simp, by simp⟩
    | cons r phrases =>
      obtain ⟨p, hbest, hpreferred⟩ := ih (List.cons_ne_nil _ _)
      rw [hbest]
      exact ⟨_, rfl, hpreferred.concat q⟩

/-- Only of no phrases there is no best one. -/
theorem best?_eq_none_iff : best? phrases = none ↔ phrases = [] := by
  constructor
  · intro hnone
    by_contra hne
    obtain ⟨p, hbest, -⟩ := exists_best? hne
    rw [hnone] at hbest
    cases hbest
  · rintro rfl
    rfl

/-- The chosen phrase is the preferred one. -/
theorem best?_eq_some_iff : best? phrases = some p ↔ p.IsPreferred phrases := by
  constructor
  · intro hbest
    have hne : phrases ≠ [] := by
      rintro rfl
      cases hbest
    obtain ⟨q, hbest', hpreferred⟩ := exists_best? hne
    rw [hbest] at hbest'
    cases hbest'
    exact hpreferred
  · intro hpreferred
    obtain ⟨q, hbest, hpreferred'⟩ := exists_best? (List.ne_nil_of_mem hpreferred.mem)
    rw [hbest, hpreferred.unique hpreferred']

/-- Of the phrases that an anchor is wanted of, one is preferred if there are any. -/
theorem exists_isPreferred_filter {wants : Anchor → Bool} (hp : p ∈ phrases)
    (hwants : wants p.anchor = true) :
    ∃ q : Phrase, q.IsPreferred (phrases.filter (wants ·.anchor)) ∧ wants q.anchor = true := by
  have hmem : p ∈ phrases.filter (wants ·.anchor) := List.mem_filter.mpr ⟨hp, hwants⟩
  obtain ⟨q, -, hpreferred⟩ := exists_best? (List.ne_nil_of_mem hmem)
  exact ⟨q, hpreferred, (List.mem_filter.mp hpreferred.mem).2⟩

/-- There is no best phrase of a kind only if none is of the kind. -/
theorem best?_filter_eq_none_iff {wants : Anchor → Bool} :
    best? (phrases.filter (wants ·.anchor)) = none ↔ ∀ p ∈ phrases, wants p.anchor = false := by
  rw [best?_eq_none_iff, List.filter_eq_nil_iff]
  simp

/-- The chosen part of a day is that of the preferred phrase for one. -/
theorem bestDayPart?_eq_some_iff {part : DayPart} {label : String} :
    bestDayPart? phrases = some (part, label) ↔
      ∃ p : Phrase, p.IsPreferred (phrases.filter (·.anchor.isDayPart)) ∧
        p.anchor = .dayPart part ∧ p.label = label := by
  simp only [← best?_eq_some_iff]
  unfold bestDayPart?
  constructor
  · intro h
    split at h
    · rename_i hbest
      cases h
      exact ⟨_, hbest, rfl, rfl⟩
    · cases h
  · rintro ⟨⟨text, label, anchor, notAfter, notBefore⟩, hbest, rfl, rfl⟩
    rw [hbest]

/-- There is no best part of a day only if no phrase names one. -/
theorem bestDayPart?_eq_none_iff :
    bestDayPart? phrases = none ↔ ∀ p ∈ phrases, p.anchor.isDayPart = false := by
  constructor
  · intro hnone p hp
    by_contra hsome
    rw [Bool.not_eq_false] at hsome
    obtain ⟨q, hpreferred, hpart⟩ := exists_isPreferred_filter hp hsome
    cases hanchor : q.anchor with
    | dayPart part =>
      rw [bestDayPart?_eq_some_iff.mpr ⟨q, hpreferred, hanchor, rfl⟩] at hnone
      cases hnone
    | _ => simp [hanchor, Anchor.isDayPart] at hpart
  · intro hnone
    unfold bestDayPart?
    rw [best?_filter_eq_none_iff.mpr hnone]

/-- The chosen week is that of the preferred phrase for one. -/
theorem bestWeek?_eq_some_iff {offset : Int} {label : String} :
    bestWeek? phrases = some (offset, label) ↔
      ∃ p : Phrase, p.IsPreferred (phrases.filter (·.anchor.isWeek)) ∧
        p.anchor = .week offset ∧ p.label = label := by
  simp only [← best?_eq_some_iff]
  unfold bestWeek?
  constructor
  · intro h
    split at h
    · rename_i hbest
      cases h
      exact ⟨_, hbest, rfl, rfl⟩
    · cases h
  · rintro ⟨⟨text, label, anchor, notAfter, notBefore⟩, hbest, rfl, rfl⟩
    rw [hbest]

/-- There is no best week only if no phrase names one. -/
theorem bestWeek?_eq_none_iff :
    bestWeek? phrases = none ↔ ∀ p ∈ phrases, p.anchor.isWeek = false := by
  constructor
  · intro hnone p hp
    by_contra hsome
    rw [Bool.not_eq_false] at hsome
    obtain ⟨q, hpreferred, hweek⟩ := exists_isPreferred_filter hp hsome
    cases hanchor : q.anchor with
    | week offset =>
      rw [bestWeek?_eq_some_iff.mpr ⟨q, hpreferred, hanchor, rfl⟩] at hnone
      cases hnone
    | _ => simp [hanchor, Anchor.isWeek] at hweek
  · intro hnone
    unfold bestWeek?
    rw [best?_filter_eq_none_iff.mpr hnone]

end Daybook.Phrase
