import Daybook.Proofs.Time.Places
import Daybook.Proofs.Time.Preference
import Mathlib.Data.List.Infix

/-!
# Phrases that stand alone

A text that is a phrase of the table holds no phrases but that one and parts of it, which are
shorter and equally specific. So it is resolved by what the phrase itself refers to.
-/

namespace Daybook

namespace Phrase

variable {p q : Phrase} {phrases : List Phrase}

/-- The text of a phrase as numbers, which are quicker to compare. -/
def codes (p : Phrase) : List Nat := p.text.toList.map Char.toNat

/-- A phrase of the table that is part of another one is shorter and equally specific. -/
theorem part_of_mem_table (hp : p ∈ table) (hq : q ∈ table)
    (h : q.text.toList <:+: p.text.toList) :
    q = p ∨ (q.size < p.size ∧ q.anchor.tier = p.anchor.tier) := by
  have hall : ∀ p ∈ table, ∀ q ∈ table, p.codes.tails.any q.codes.isPrefixOf = true →
      q = p ∨ (q.size < p.size ∧ q.anchor.tier = p.anchor.tier) := by
    decide +kernel
  obtain ⟨front, back, htext⟩ := h
  refine hall p hp q hq (List.any_eq_true.mpr ⟨(q.text.toList ++ back).map Char.toNat, ?_, ?_⟩)
  · rw [List.mem_tails, codes, ← htext, List.append_assoc]
    exact (List.suffix_append front _).map _
  · rw [List.isPrefixOf_iff_prefix, codes, List.map_append]
    exact List.prefix_append _ _

/-- A text that is a phrase of the table is not blank, and holds no written date. -/
theorem holds_itself : ∀ p ∈ table, Text.allBlank p.text.toList = false ∧
    Resolution.writtenDate? p.text.toList = none := by
  decide +kernel

/-- One of some phrases goes before all others: they are shorter and equally specific. -/
structure Leads (p : Phrase) (phrases : List Phrase) : Prop where
  mem : p ∈ phrases
  others : ∀ q ∈ phrases, q = p ∨ (q.size < p.size ∧ q.anchor.tier = p.anchor.tier)

/-- Of the phrases that a phrase of the table holds, it goes before all others. -/
theorem leads_mentioned (hp : p ∈ table) : p.Leads (mentioned p.text.toList) := by
  refine ⟨mem_mentioned_text hp, fun q hq => part_of_mem_table hp (List.mem_filter.mp hq).1 ?_⟩
  exact infix_of_mem_mentioned (isPlain_of_mem_table p hp).lower hq

/-- A phrase leads where it is alone. -/
theorem leads_singleton (p : Phrase) : p.Leads [p] :=
  ⟨List.mem_singleton_self p, fun _ hq => .inl (List.mem_singleton.mp hq)⟩

/-- A phrase that goes before all others is the preferred one. -/
theorem Leads.isPreferred (h : p.Leads phrases) : p.IsPreferred phrases := by
  obtain ⟨before, after, rfl, hfirst⟩ := List.eq_append_cons_of_mem h.mem
  refine ⟨before, after, rfl, fun q hq => ?_, fun q hq => ?_⟩
  · rcases h.others q (List.mem_append_left _ hq) with rfl | ⟨hsize, htier⟩
    · exact absurd hq hfirst
    · exact .inr ⟨htier.symm, hsize⟩
  · rcases h.others q (List.mem_append_right _ (List.mem_cons_of_mem _ hq)) with rfl | hothers
    · unfold Outranks
      omega
    · unfold Outranks
      omega

/-- The phrase that leads is the preferred one. -/
theorem Leads.best? (h : p.Leads phrases) : best? phrases = some p :=
  best?_eq_some_iff.mpr h.isPreferred

/-- A choice by what an equally specific phrase has in common is a choice of all or none. -/
theorem Leads.best?_filter (h : p.Leads phrases) {wants : Anchor → Bool}
    (hwants : ∀ a, a.tier = p.anchor.tier → wants a = wants p.anchor) :
    Phrase.best? (phrases.filter fun q => wants q.anchor) =
      if wants p.anchor then some p else none := by
  have hall : ∀ q ∈ phrases, wants q.anchor = wants p.anchor := by
    intro q hq
    rcases h.others q hq with rfl | ⟨-, htier⟩
    · rfl
    · exact hwants _ htier
  split
  · rename_i hp
    rw [List.filter_eq_self.mpr fun q hq => (hall q hq).trans hp, h.best?]
  · rename_i hp
    rw [List.filter_eq_nil_iff.mpr fun q hq => by rw [hall q hq]; exact hp]
    rfl

end Phrase

/-- Equally specific anchors are of one kind. -/
theorem Anchor.kinds_of_tier_eq {a b : Anchor} (h : a.tier = b.tier) :
    a.isDay = b.isDay ∧ a.isDayPart = b.isDayPart ∧ a.isWeek = b.isWeek := by
  cases a <;> cases b <;> simp_all [tier, isDay, isDayPart, isWeek]

namespace Resolution

open Phrase

variable {p : Phrase} {phrases others : List Phrase}

/-- Phrases that one of them leads speak of the range that it speaks of alone. -/
theorem ofPhrases_eq_of_leads (h : p.Leads phrases) (h' : p.Leads others) (now : Instant) :
    ofPhrases phrases now = ofPhrases others now := by
  have hkinds : ∀ a : Anchor, a.tier = p.anchor.tier → a.isDay = p.anchor.isDay ∧
      a.isDayPart = p.anchor.isDayPart ∧ a.isWeek = p.anchor.isWeek :=
    fun _ => Anchor.kinds_of_tier_eq
  have hday : best? (phrases.filter (·.anchor.isDay)) = best? (others.filter (·.anchor.isDay)) :=
    (h.best?_filter fun a ha => (hkinds a ha).1).trans
      (h'.best?_filter fun a ha => (hkinds a ha).1).symm
  have hpart : bestDayPart? phrases = bestDayPart? others := by
    unfold bestDayPart?
    rw [h.best?_filter fun a ha => (hkinds a ha).2.1, h'.best?_filter fun a ha => (hkinds a ha).2.1]
  have hweek : bestWeek? phrases = bestWeek? others := by
    unfold bestWeek?
    rw [h.best?_filter fun a ha => (hkinds a ha).2.2, h'.best?_filter fun a ha => (hkinds a ha).2.2]
  unfold ofPhrases
  rw [hday, hpart, hweek, h.best?, h'.best?]

/-- A phrase of the table that stands alone is resolved by itself. -/
theorem resolve_alone (hp : p ∈ table) (now : Instant) :
    resolve p.text now = (ofPhrases [p] now).map (·.map fun range => ⟨range, .relative⟩) := by
  obtain ⟨hblank, hdate⟩ := holds_itself p hp
  have habsolute : absoluteDate? p.text.toList now.date = none := by
    rw [absoluteDate?, hdate]
    rfl
  unfold resolve
  simp only [hblank, Bool.false_eq_true, if_false, habsolute]
  rw [ofPhrases_eq_of_leads (leads_mentioned hp) (leads_singleton p)]
  cases ofPhrases [p] now <;> rfl

end Resolution

end Daybook
