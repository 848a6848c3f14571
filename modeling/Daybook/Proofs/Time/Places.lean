import Daybook.Proofs.Time.Stripping

/-!
# Where phrases stand

A phrase of the table is found in a text just where it stands: where the text is the phrase up
to case, no letter or digit is beside it if it is an ASCII phrase, and no character beside it
makes it part of a longer word.
-/

namespace Daybook.Phrase

open Text

variable {p : Phrase} {cs front part back : List Char} {o : Occurrence}

/-- A phrase stands at a part of a text, between two others. -/
structure StandsAt (p : Phrase) (front part back : List Char) : Prop where
  spells : lower part = p.text.toList
  isolated : isAsciiWord p.text.toList = true →
    (Occurrence.between front part back).isolated = true
  accepted : p.accepts front.getLast? back.head? = true

/-- No phrase of the table hides another occurrence of itself. -/
theorem hidesNoOther_of_mem_table : ∀ p ∈ table, HidesNoOther p.text.toList := by
  decide +kernel

/-- Where a phrase of the table is found, it stands. -/
theorem exists_standsAt (hp : p ∈ table) (ho : o ∈ p.occurrences cs) :
    ∃ front part back, cs = front ++ part ++ back ∧ o = .between front part back ∧
      p.StandsAt front part back := by
  obtain ⟨hmem, haccepts⟩ := List.mem_filter.mp ho
  obtain ⟨front, part, back, hcs, -, hpart, rfl, hisolated⟩ := parts_of_mem_occurrences hp hmem
  exact ⟨front, part, back, hcs, rfl, hpart, hisolated, haccepts⟩

/-- Where a phrase of the table stands, it is found. -/
theorem StandsAt.mem_occurrences (hp : p ∈ table) (h : p.StandsAt front part back) :
    .between front part back ∈ p.occurrences (front ++ part ++ back) := by
  have hplain := isPlain_of_mem_table p hp
  have hne : part ≠ [] := by
    rintro rfl
    exact hplain.ne_nil h.spells.symm
  refine List.mem_filter.mpr ⟨Text.mem_occurrences ?_ ?_ hne ?_, h.accepted⟩
  · rw [hplain.lower]
    exact hidesNoOther_of_mem_table p hp
  · rw [hplain.lower, h.spells]
  · rw [hplain.lower]
    exact h.isolated

/-- A phrase covers as many bytes of a text as it has. -/
theorem stop_of_mem_occurrences (hp : p ∈ table) (ho : o ∈ p.occurrences cs) :
    o.span.stop = o.span.start + byteLength p.text.toList := by
  obtain ⟨front, part, back, -, rfl, hstands⟩ := exists_standsAt hp ho
  rw [← hstands.spells, byteLength_lower]
  rfl

/-- A phrase that a text mentions is one of the table, and is found in it. -/
theorem exists_mem_occurrences (h : p ∈ mentioned cs) : p ∈ table ∧ ∃ o, o ∈ p.occurrences cs := by
  obtain ⟨hp, hsome⟩ := List.mem_filter.mp h
  rw [Bool.not_eq_true', List.isEmpty_eq_false_iff] at hsome
  exact ⟨hp, List.exists_mem_of_ne_nil _ hsome⟩

/-- A text mentions the phrases of the table that stand in it. -/
theorem mem_mentioned_iff : p ∈ mentioned cs ↔
    p ∈ table ∧ ∃ front part back, cs = front ++ part ++ back ∧ p.StandsAt front part back := by
  constructor
  · intro hmentioned
    obtain ⟨hp, o, ho⟩ := exists_mem_occurrences hmentioned
    obtain ⟨front, part, back, hcs, -, hstands⟩ := exists_standsAt hp ho
    exact ⟨hp, front, part, back, hcs, hstands⟩
  · rintro ⟨hp, front, part, back, rfl, hstands⟩
    refine List.mem_filter.mpr ⟨hp, ?_⟩
    rw [Bool.not_eq_true', List.isEmpty_eq_false_iff]
    exact List.ne_nil_of_mem (hstands.mem_occurrences hp)

/-- A phrase that a text in lower case mentions is part of it. -/
theorem infix_of_mem_mentioned (hlower : lower cs = cs) (hp : p ∈ mentioned cs) :
    p.text.toList <:+: cs := by
  obtain ⟨-, front, part, back, rfl, hstands⟩ := mem_mentioned_iff.mp hp
  refine ⟨front, back, ?_⟩
  rw [← hstands.spells]
  simp only [lower, List.map_append] at hlower
  have hfront := List.append_inj_left' hlower (by simp)
  rw [lower, List.append_inj_right hfront (by simp)]

/-- A text that is a phrase of the table mentions it. -/
theorem mem_mentioned_text (hp : p ∈ table) : p ∈ mentioned p.text.toList := by
  refine mem_mentioned_iff.mpr ⟨hp, [], p.text.toList, [], by simp, ?_⟩
  exact ⟨(isPlain_of_mem_table p hp).lower, fun _ => rfl, rfl⟩

end Daybook.Phrase
