import Daybook.Proofs.Time.Places
import Daybook.Proofs.Time.Preference

/-!
# Phrases that share a character

Where two parts of a text overlap, the end of one of them is the beginning of the other, or
one stands within the other. Of the phrases for weeks and for parts of a day, only 上周 begins
as others end, which are 早上 and 晚上. Any other two stand apart wherever they stand.
-/

namespace Daybook

namespace Text

variable {front part back front' part' back' : List Char}

/-- Two spans share no character. -/
def Span.Apart (a b : Span) : Prop := a.stop ≤ b.start ∨ b.stop ≤ a.start

/-- Whether two spans share no character can be evaluated. -/
instance (a b : Span) : Decidable (a.Apart b) := inferInstanceAs (Decidable (_ ∨ _))

/-- A part of a text that does not end before a later one begins goes on with the beginning
of it, or with all of it. -/
theorem exists_overlap (h : front ++ part ++ back = front' ++ part' ++ back')
    (hle : byteLength front ≤ byteLength front')
    (hlt : byteLength front' < byteLength front + byteLength part) :
    ∃ k < part.length, front' = front ++ part.take k ∧
      part.drop k ++ back = part' ++ back' := by
  rw [List.append_assoc, List.append_assoc] at h
  obtain ⟨between, rfl, hrest⟩ := exists_of_byteLength_le h hle
  rw [byteLength_append] at hlt
  obtain ⟨rest, rfl, hback⟩ := exists_of_byteLength_le hrest.symm (by omega)
  have hne : rest ≠ [] := by
    rintro rfl
    simp at hlt
  refine ⟨between.length, ?_, by simp, ?_⟩
  · have := List.length_pos_of_ne_nil hne
    rw [List.length_append]
    omega
  · rw [List.drop_left]
    exact hback.symm

/-- The characters on which two parts of a text overlap are the same up to case. -/
theorem prefix_or_prefix_lower {k : Nat} (h : part.drop k ++ back = part' ++ back') :
    (lower part).drop k <+: lower part' ∨ lower part' <+: (lower part).drop k := by
  have hdrop : (lower part).drop k = lower (part.drop k) := List.map_drop.symm
  rw [hdrop]
  rcases List.prefix_or_prefix_of_prefix (List.prefix_append (part.drop k) back)
    (h ▸ List.prefix_append part' back') with hshort | hlong
  · exact .inl (hshort.map Char.toLower)
  · exact .inr (hlong.map Char.toLower)

end Text

namespace Phrase

open Text

variable {p q week part : Phrase} {cs : List Char} {o o' : Occurrence}

/-- The last character of 早上 and of 晚上 is the first one of 上周. -/
def SharesCharacter (week part : Phrase) : Prop :=
  week.text = "上周" ∧ (part.text = "早上" ∨ part.text = "晚上")

/-- Whether two phrases share a character can be evaluated. -/
instance (week part : Phrase) : Decidable (week.SharesCharacter part) :=
  inferInstanceAs (Decidable (_ ∧ _))

/-- No week ends as a part of a day begins. -/
theorem not_prefix_of_week : ∀ week ∈ table, week.anchor.isWeek = true →
    ∀ part ∈ table, part.anchor.isDayPart = true → ∀ k < week.text.toList.length,
      ¬(week.text.toList.drop k <+: part.text.toList ∨
        part.text.toList <+: week.text.toList.drop k) := by
  decide +kernel

/-- A part of a day that ends as a week begins shares a character with it, or would be followed
by a letter, which an ASCII phrase is not. -/
theorem of_prefix_of_dayPart : ∀ part ∈ table, part.anchor.isDayPart = true →
    ∀ week ∈ table, week.anchor.isWeek = true → ∀ k < part.text.toList.length,
      (part.text.toList.drop k <+: week.text.toList ∨
        week.text.toList <+: part.text.toList.drop k) →
      (week.SharesCharacter part ∧ k = 1) ∨
        (isAsciiWord part.text.toList = true ∧ part.text.toList.drop k <+: week.text.toList ∧
          ((week.text.toList.drop (part.text.toList.length - k)).head?.any
            Char.isAlphanum) = true) := by
  decide +kernel

/-- What 早上 or 晚上 shares with 上周 is a character of three bytes. -/
theorem SharesCharacter.byteLength_last (h : week.SharesCharacter part) :
    byteLength (part.text.toList.drop 1) = 3 := by
  rcases h.2 with htext | htext
  · rw [htext]
    decide
  · rw [htext]
    decide

section Overlap

variable {front part back front' part' back' : List Char} (hp : p.StandsAt front part back)
  (hq : q.StandsAt front' part' back')
include hp

/-- Behind some characters of the place of a phrase stands the rest of the phrase, up to case. -/
theorem StandsAt.lower_drop (k : Nat) : lower (part.drop k) = p.text.toList.drop k := by
  rw [← hp.spells]
  exact List.map_drop

/-- The place of a phrase is as long as the phrase. -/
theorem StandsAt.length_eq : part.length = p.text.toList.length := by
  rw [← hp.spells, length_lower]

include hq

/-- Where a phrase does not end before a later one begins, what is left of it is the beginning
of the other, or begins with all of it. -/
theorem StandsAt.exists_overlap (h : front ++ part ++ back = front' ++ part' ++ back')
    (hle : byteLength front ≤ byteLength front')
    (hlt : byteLength front' < byteLength front + byteLength part) :
    ∃ k < p.text.toList.length, front' = front ++ part.take k ∧
      part.drop k ++ back = part' ++ back' ∧
      (p.text.toList.drop k <+: q.text.toList ∨ q.text.toList <+: p.text.toList.drop k) := by
  obtain ⟨k, hk, hfront, hrest⟩ := Text.exists_overlap h hle hlt
  have hmeet := prefix_or_prefix_lower hrest
  rw [hp.spells, hq.spells] at hmeet
  exact ⟨k, hp.length_eq ▸ hk, hfront, hrest, hmeet⟩

/-- A phrase that goes on behind an ASCII phrase does not go on with a letter or a digit. -/
theorem StandsAt.isAlphanum_behind {k : Nat} (hword : isAsciiWord p.text.toList = true)
    (hrest : part.drop k ++ back = part' ++ back')
    (hshort : p.text.toList.drop k <+: q.text.toList) :
    (q.text.toList.drop (p.text.toList.length - k)).head?.any Char.isAlphanum = false := by
  have hshorter : (part.drop k).length ≤ part'.length := by
    have := hshort.length_le
    rwa [← hp.lower_drop, length_lower, ← hq.length_eq] at this
  obtain ⟨rest, rfl⟩ := List.prefix_of_prefix_length_le (List.prefix_append (part.drop k) back)
    (hrest ▸ List.prefix_append part' back') hshorter
  have hbehind : q.text.toList.drop (p.text.toList.length - k) = lower rest := by
    rw [← hq.lower_drop, ← hp.length_eq, ← List.length_drop, List.drop_left]
  rw [List.append_assoc] at hrest
  have hback := List.append_cancel_left hrest
  have hafter := (Bool.and_eq_true_iff.mp (hp.isolated hword)).2
  rw [hbehind]
  cases rest with
  | nil => rfl
  | cons c rest =>
    rw [lower, List.map_cons, List.head?_cons, Option.any_some, isAlphanum_toLower]
    simpa [Occurrence.between, hback] using hafter

end Overlap

/-- A part of a day that does not end before a week begins shares a character with it. -/
theorem StandsAt.sharesCharacter {front part' back front' part'' back' : List Char}
    (hpart : part ∈ table) (hisPart : part.anchor.isDayPart = true)
    (hweek : week ∈ table) (hisWeek : week.anchor.isWeek = true)
    (hstands : part.StandsAt front part' back) (hstands' : week.StandsAt front' part'' back')
    (h : front ++ part' ++ back = front' ++ part'' ++ back')
    (hle : byteLength front ≤ byteLength front')
    (hlt : byteLength front' < byteLength front + byteLength part') :
    week.SharesCharacter part ∧
      byteLength front' + 3 = byteLength front + byteLength part' := by
  obtain ⟨k, hk, rfl, hrest, hmeet⟩ := hstands.exists_overlap hstands' h hle hlt
  rcases of_prefix_of_dayPart part hpart hisPart week hweek hisWeek k hk hmeet with
    ⟨hshares, rfl⟩ | ⟨hword, hshort, hnext⟩
  · have hlast := hshares.byteLength_last
    rw [← hstands.lower_drop, byteLength_lower] at hlast
    have hsplit := congrArg byteLength (List.take_append_drop 1 part')
    rw [byteLength_append] at hsplit ⊢
    exact ⟨hshares, by omega⟩
  · rw [hstands.isAlphanum_behind hstands' hword hrest hshort] at hnext
    cases hnext

/-- A week and a part of a day stand apart, unless the week is 上周 and begins with the last
character of 早上 or 晚上. -/
theorem apart_or_sharesCharacter (hweek : week ∈ table) (hisWeek : week.anchor.isWeek = true)
    (hpart : part ∈ table) (hisPart : part.anchor.isDayPart = true)
    (ho : o ∈ week.occurrences cs) (ho' : o' ∈ part.occurrences cs) :
    o.span.Apart o'.span ∨
      (week.SharesCharacter part ∧ o.span.start + 3 = o'.span.stop) := by
  obtain ⟨front, part', back, rfl, rfl, hstands⟩ := exists_standsAt hweek ho
  obtain ⟨front', part'', back', h, rfl, hstands'⟩ := exists_standsAt hpart ho'
  simp only [Occurrence.between, Span.Apart]
  by_cases hle : byteLength front ≤ byteLength front'
  · left
    left
    by_contra hlt
    obtain ⟨k, hk, -, -, hmeet⟩ := hstands.exists_overlap hstands' h hle (Nat.not_le.mp hlt)
    exact not_prefix_of_week week hweek hisWeek part hpart hisPart k hk hmeet
  · by_cases hlt : byteLength front < byteLength front' + byteLength part''
    · right
      exact hstands'.sharesCharacter hpart hisPart hweek hisWeek hstands h.symm (by omega) hlt
    · left
      right
      omega

end Phrase

namespace Resolution

open Text

variable {text : String} {now : Instant} {day week part : Phrase}

/-- A text is resolved by its phrases, of which a day of the week is preferred, with a week and
a part of a day that narrow it. -/
structure IsNarrowed (text : String) (now : Instant) (day week part : Phrase) : Prop where
  relative : ∃ range, resolve text now = .ok (some ⟨range, .relative⟩)
  preferredDay : day.IsPreferred ((Phrase.mentioned text.toList).filter (·.anchor.isDay))
  weekday : ∃ index, day.anchor = .weekday index
  preferredWeek : week.IsPreferred ((Phrase.mentioned text.toList).filter (·.anchor.isWeek))
  preferredPart : part.IsPreferred ((Phrase.mentioned text.toList).filter (·.anchor.isDayPart))

/-- The week and the part of a day by which a text is narrowed stand somewhere without sharing a
character, unless each 上周 of the text begins with the last character of each 早上 or 晚上. -/
theorem isNarrowed_apart_iff (h : IsNarrowed text now day week part) :
    (∃ o ∈ week.occurrences text.toList, ∃ o' ∈ part.occurrences text.toList,
      o.span.Apart o'.span) ↔
    ¬(week.SharesCharacter part ∧ ∀ o ∈ week.occurrences text.toList,
      ∀ o' ∈ part.occurrences text.toList, o.span.start + 3 = o'.span.stop) := by
  obtain ⟨hmem, hisWeek⟩ := List.mem_filter.mp h.preferredWeek.mem
  obtain ⟨hmem', hisPart⟩ := List.mem_filter.mp h.preferredPart.mem
  obtain ⟨hweek, o, ho⟩ := Phrase.exists_mem_occurrences hmem
  obtain ⟨hpart, o', ho'⟩ := Phrase.exists_mem_occurrences hmem'
  constructor
  · rintro ⟨o, ho, o', ho', hapart⟩ ⟨⟨htext, -⟩, hall⟩
    have hshared := hall o ho o' ho'
    have hstop := Phrase.stop_of_mem_occurrences hweek ho
    have hstop' := Phrase.stop_of_mem_occurrences hpart ho'
    have hlong : byteLength week.text.toList = 6 := by
      rw [htext]
      decide
    unfold Span.Apart at hapart
    omega
  · intro hnot
    by_contra hnone
    refine hnot ?_
    have hshares : ∀ o ∈ week.occurrences text.toList, ∀ o' ∈ part.occurrences text.toList,
        week.SharesCharacter part ∧ o.span.start + 3 = o'.span.stop := by
      intro o ho o' ho'
      exact (Phrase.apart_or_sharesCharacter hweek hisWeek hpart hisPart ho ho').resolve_left
        fun hapart => hnone ⟨o, ho, o', ho', hapart⟩
    exact ⟨(hshares o ho o' ho').1, fun o ho o' ho' => (hshares o ho o' ho').2⟩

/-- Behind 早上 stands a 上周 with a first character of its own. -/
theorem isNarrowed_apart_iff_side_by_side :
    let text := "早上上周五开会"
    let now : Instant := ⟨⟨20103, by decide, by decide⟩, 37800, 0, by decide, by decide⟩
    let day : Phrase := ⟨"周五", "周五", .weekday 4, [], Phrase.timesAWeek⟩
    let week : Phrase := ⟨"上周", "上周", .week (-1), [], []⟩
    let part : Phrase := ⟨"早上", "上午", .dayPart .morning, [], []⟩
    IsNarrowed text now day week part ∧
    ((∃ o ∈ week.occurrences text.toList, ∃ o' ∈ part.occurrences text.toList,
      o.span.Apart o'.span) ↔
    ¬(week.SharesCharacter part ∧ ∀ o ∈ week.occurrences text.toList,
      ∀ o' ∈ part.occurrences text.toList, o.span.start + 3 = o'.span.stop)) := by
  intro text now day week part
  have hnarrowed : IsNarrowed text now day week part := by
    refine ⟨⟨⟨⟨⟨20098, by decide, by decide⟩, 0, 0, by decide, by decide⟩,
      ⟨⟨20098, by decide, by decide⟩, 43200, 0, by decide, by decide⟩, "上周五上午"⟩, ?_⟩,
      ?_, ⟨4, rfl⟩, ?_, ?_⟩
    · decide +kernel
    · exact Phrase.best?_eq_some_iff.mp (by decide +kernel)
    · exact Phrase.best?_eq_some_iff.mp (by decide +kernel)
    · exact Phrase.best?_eq_some_iff.mp (by decide +kernel)
  exact ⟨hnarrowed, isNarrowed_apart_iff hnarrowed⟩

/-- The last character of 晚上 is read as the first one of a week, so that an evening of this week
becomes one of last week. -/
theorem week_read_out_of_evening :
    let text := "晚上周五"
    let now : Instant := ⟨⟨20103, by decide, by decide⟩, 37800, 0, by decide, by decide⟩
    let day : Phrase := ⟨"周五", "周五", .weekday 4, [], Phrase.timesAWeek⟩
    let week : Phrase := ⟨"上周", "上周", .week (-1), [], []⟩
    let part : Phrase := ⟨"晚上", "晚上", .dayPart .evening, [], []⟩
    IsNarrowed text now day week part ∧
    ¬∃ o ∈ week.occurrences text.toList, ∃ o' ∈ part.occurrences text.toList,
      o.span.Apart o'.span := by
  intro text now day week part
  refine ⟨⟨⟨⟨⟨⟨20098, by decide, by decide⟩, 64800, 0, by decide, by decide⟩,
    ⟨⟨20099, by decide, by decide⟩, 0, 0, by decide, by decide⟩, "上周五晚上"⟩, ?_⟩,
    ?_, ⟨4, rfl⟩, ?_, ?_⟩, ?_⟩
  · decide +kernel
  · exact Phrase.best?_eq_some_iff.mp (by decide +kernel)
  · exact Phrase.best?_eq_some_iff.mp (by decide +kernel)
  · exact Phrase.best?_eq_some_iff.mp (by decide +kernel)
  · decide +kernel

end Resolution

end Daybook
