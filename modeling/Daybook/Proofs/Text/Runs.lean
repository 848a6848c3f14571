import Daybook.Text.Shape
import Mathlib.Data.List.TakeWhile
import Mathlib.Data.Set.Card

/-!
# Runs of a text

A run is a part of a text that consists of ASCII letters, digits and underscores, with none of
these directly before it or behind it. No run goes across a place where such a character does not
stand on both sides, so that the runs of a text are those of its parts on either side.
-/

namespace Daybook.Text

variable {cs front part back : List Char} {c x : Char} {property : List Char → Prop}

/-- The ASCII letters, the ASCII digits and the underscore. -/
def IsWordCharacter (c : Char) : Prop := c.isAlpha = true ∨ c.isDigit = true ∨ c = '_'

/-- A part of a text, with what stands before it and behind it. -/
structure Excerpt where
  front : List Char
  part : List Char
  back : List Char

/-- The text of which an excerpt is a part. -/
def Excerpt.text (p : Excerpt) : List Char := p.front ++ p.part ++ p.back

/-- A run is not empty and goes on as far as it can on both sides. -/
structure Excerpt.IsRun (p : Excerpt) : Prop where
  ne_nil : p.part ≠ []
  inside : ∀ c ∈ p.part, IsWordCharacter c
  before : ∀ c ∈ p.front.getLast?, ¬IsWordCharacter c
  behind : ∀ c ∈ p.back.head?, ¬IsWordCharacter c

/-- The runs of a text that have a property, each at its place in the text. -/
def runsWith (property : List Char → Prop) (cs : List Char) : Set Excerpt :=
  {p | p.text = cs ∧ p.IsRun ∧ property p.part}

/-- The test for the characters of words, said with the kinds of characters. -/
theorem continuesWord_iff : continuesWord c = true ↔ IsWordCharacter c := by
  simp only [continuesWord, Char.isAlphanum, IsWordCharacter, Bool.or_eq_true, beq_iff_eq, or_assoc]

/-- The empty text has no runs. -/
theorem runsWith_nil : runsWith property [] = ∅ := by
  refine Set.eq_empty_of_forall_notMem ?_
  rintro ⟨front, part, back⟩ ⟨htext, hrun, -⟩
  have hpart : part = [] := (List.append_eq_nil_iff.mp (List.append_eq_nil_iff.mp htext).1).2
  exact hrun.ne_nil hpart

/-- A character of another kind has no run. -/
theorem runsWith_singleton (hx : ¬IsWordCharacter x) : runsWith property [x] = ∅ := by
  refine Set.eq_empty_of_forall_notMem ?_
  rintro ⟨front, part, back⟩ ⟨htext, hrun, -⟩
  obtain ⟨c, hc⟩ := List.exists_mem_of_ne_nil part hrun.ne_nil
  have hmem : c ∈ [x] := htext ▸ List.mem_append_left back (List.mem_append_right front hc)
  exact hx (List.mem_singleton.mp hmem ▸ hrun.inside c hc)

/-- A text without characters of other kinds is its only run. -/
theorem runsWith_of_inside (hne : part ≠ []) (h : ∀ c ∈ part, IsWordCharacter c) :
    runsWith property part = {p | p = ⟨[], part, []⟩ ∧ property part} := by
  ext ⟨front, run, back⟩
  constructor
  · rintro ⟨htext, hrun, hproperty⟩
    have htext : front ++ run ++ back = part := htext
    have hfront : front = [] := by
      by_contra hfront
      have hlast := List.getLast_mem hfront
      have hmem : front.getLast hfront ∈ part :=
        htext ▸ List.mem_append_left back (List.mem_append_left run hlast)
      exact hrun.before _ (List.getLast?_eq_some_getLast hfront) (h _ hmem)
    have hback : back = [] := by
      by_contra hback
      have hhead := List.head_mem hback
      have hmem : back.head hback ∈ part := htext ▸ List.mem_append_right _ hhead
      exact hrun.behind _ (List.head?_eq_some_head hback) (h _ hmem)
    subst hfront hback
    rw [List.nil_append, List.append_nil] at htext
    subst htext
    exact ⟨rfl, hproperty⟩
  · rintro ⟨heq, hproperty⟩
    cases heq
    exact ⟨by simp [Excerpt.text], ⟨hne, h, by simp, by simp⟩, hproperty⟩

/-- Characters of runs do not stand on both sides. -/
def IsBorder (front back : List Char) : Prop :=
  ∀ c ∈ front.getLast?, ∀ d ∈ back.head?, IsWordCharacter c → ¬IsWordCharacter d

/-- An excerpt as one of a text that has more behind it. -/
def Excerpt.extend (p : Excerpt) (more : List Char) : Excerpt := ⟨p.front, p.part, p.back ++ more⟩

/-- An excerpt as one of a text that has more before it. -/
def Excerpt.shift (p : Excerpt) (more : List Char) : Excerpt := ⟨more ++ p.front, p.part, p.back⟩

/-- More text behind an excerpt is more text behind the whole. -/
theorem Excerpt.text_extend (p : Excerpt) (more : List Char) :
    (p.extend more).text = p.text ++ more := (List.append_assoc _ _ _).symm

/-- More text before an excerpt is more text before the whole. -/
theorem Excerpt.text_shift (p : Excerpt) (more : List Char) :
    (p.shift more).text = more ++ p.text := by
  simp only [text, shift, List.append_assoc]

/-- Different excerpts stay different where more text comes behind. -/
theorem Excerpt.extend_injective (more : List Char) :
    Function.Injective (Excerpt.extend · more) := by
  rintro ⟨front, part, back⟩ ⟨front', part', back'⟩ heq
  simp only [Excerpt.extend, Excerpt.mk.injEq] at heq
  obtain ⟨rfl, rfl, hback⟩ := heq
  rw [List.append_cancel_right hback]

/-- Different excerpts stay different where more text comes before. -/
theorem Excerpt.shift_injective (more : List Char) :
    Function.Injective (Excerpt.shift · more) := by
  rintro ⟨front, part, back⟩ ⟨front', part', back'⟩ heq
  simp only [Excerpt.shift, Excerpt.mk.injEq] at heq
  obtain ⟨hfront, rfl, rfl⟩ := heq
  rw [List.append_cancel_left hfront]

/-- What stands before a border is a run if it is one in the whole text, also where it ends at the
border. -/
theorem Excerpt.isRun_extend_iff {p : Excerpt} (hborder : IsBorder p.text back) :
    (p.extend back).IsRun ↔ p.IsRun := by
  constructor
  · intro hrun
    refine ⟨hrun.ne_nil, hrun.inside, hrun.before, fun c hc => hrun.behind c ?_⟩
    rw [Excerpt.extend, List.head?_append, Option.mem_def.mp hc]
    rfl
  · intro hrun
    refine ⟨hrun.ne_nil, hrun.inside, hrun.before, fun d hd => ?_⟩
    rw [Excerpt.extend, List.head?_append, Option.mem_def, Option.or_eq_some_iff] at hd
    rcases hd with hd | ⟨hnone, hd⟩
    · exact hrun.behind d hd
    · have hback : p.back = [] := List.head?_eq_none_iff.mp hnone
      have hlast : p.text.getLast? = some (p.part.getLast hrun.ne_nil) := by
        rw [Excerpt.text, hback, List.append_nil, List.getLast?_append_of_ne_nil _ hrun.ne_nil,
          List.getLast?_eq_some_getLast]
      exact hborder _ hlast d hd (hrun.inside _ (List.getLast_mem _))

/-- What stands behind a border is a run if it is one in the whole text, also where it begins at
the border. -/
theorem Excerpt.isRun_shift_iff {p : Excerpt} (hborder : IsBorder front p.text) :
    (p.shift front).IsRun ↔ p.IsRun := by
  constructor
  · intro hrun
    refine ⟨hrun.ne_nil, hrun.inside, fun c hc => hrun.before c ?_, hrun.behind⟩
    rw [Excerpt.shift, List.getLast?_append, Option.mem_def.mp hc]
    rfl
  · intro hrun
    refine ⟨hrun.ne_nil, hrun.inside, fun c hc hword => ?_, hrun.behind⟩
    rw [Excerpt.shift, List.getLast?_append, Option.mem_def, Option.or_eq_some_iff] at hc
    rcases hc with hc | ⟨hnone, hc⟩
    · exact hrun.before c hc hword
    · have hfront : p.front = [] := List.getLast?_eq_none_iff.mp hnone
      have hhead : p.text.head? = some (p.part.head hrun.ne_nil) := by
        rw [Excerpt.text, hfront, List.nil_append, List.head?_append_of_ne_nil _ hrun.ne_nil,
          List.head?_eq_some_head]
      exact hborder c hc _ hhead hword (hrun.inside _ (List.head_mem _))

/-- A part of a text stands before a place, or behind it, or on both sides of it. -/
theorem Excerpt.cases_of_text_eq {p : Excerpt} (htext : p.text = front ++ back) :
    (∃ q : Excerpt, q.text = front ∧ q.extend back = p) ∨
      (∃ q : Excerpt, q.text = back ∧ q.shift front = p) ∨
      ∃ left right, left ≠ [] ∧ right ≠ [] ∧ p.part = left ++ right ∧
        front = p.front ++ left ∧ back = right ++ p.back := by
  obtain ⟨before, part, behind⟩ := p
  rcases List.append_eq_append_iff.mp htext with ⟨rest, rfl, rfl⟩ | ⟨right, hends, rfl⟩
  · exact .inl ⟨⟨before, part, rest⟩, rfl, rfl⟩
  · rcases List.append_eq_append_iff.mp hends with ⟨left, rfl, rfl⟩ | ⟨rest, rfl, rfl⟩
    · by_cases hright : right = []
      · subst hright
        exact .inl ⟨⟨before, left, []⟩, by simp [text], by simp [extend]⟩
      · by_cases hleft : left = []
        · subst hleft
          exact .inr (.inl ⟨⟨[], right, behind⟩, by simp [text], by simp [shift]⟩)
        · exact .inr (.inr ⟨left, right, hleft, hright, rfl, rfl, rfl⟩)
    · exact .inr (.inl ⟨⟨rest, part, behind⟩, by simp [text], rfl⟩)

/-- No run goes across a border. -/
theorem runsWith_append (hborder : IsBorder front back) :
    runsWith property (front ++ back) =
      (Excerpt.extend · back) '' runsWith property front ∪
        (Excerpt.shift · front) '' runsWith property back := by
  ext p
  constructor
  · rintro ⟨htext, hrun, hproperty⟩
    rcases Excerpt.cases_of_text_eq htext with
      ⟨q, rfl, rfl⟩ | ⟨q, rfl, rfl⟩ | ⟨left, right, hleft, hright, hpart, rfl, rfl⟩
    · exact .inl ⟨q, ⟨rfl, (Excerpt.isRun_extend_iff hborder).mp hrun, hproperty⟩, rfl⟩
    · exact .inr ⟨q, ⟨rfl, (Excerpt.isRun_shift_iff hborder).mp hrun, hproperty⟩, rfl⟩
    · have hinside := hpart ▸ hrun.inside
      have hlast : (p.front ++ left).getLast? = some (left.getLast hleft) := by
        rw [List.getLast?_append_of_ne_nil _ hleft, List.getLast?_eq_some_getLast]
      have hhead : (right ++ p.back).head? = some (right.head hright) := by
        rw [List.head?_append_of_ne_nil _ hright, List.head?_eq_some_head]
      exact absurd (hinside _ (List.mem_append_right left (List.head_mem hright)))
        (hborder _ hlast _ hhead (hinside _ (List.mem_append_left right (List.getLast_mem hleft))))
  · rintro (⟨q, ⟨rfl, hrun, hproperty⟩, rfl⟩ | ⟨q, ⟨rfl, hrun, hproperty⟩, rfl⟩)
    · exact ⟨q.text_extend back, (Excerpt.isRun_extend_iff hborder).mpr hrun, hproperty⟩
    · exact ⟨q.text_shift front, (Excerpt.isRun_shift_iff hborder).mpr hrun, hproperty⟩

/-- A border divides the runs of a text in two. -/
theorem encard_runsWith_append (hborder : IsBorder front back) :
    (runsWith property (front ++ back)).encard =
      (runsWith property front).encard + (runsWith property back).encard := by
  rw [runsWith_append hborder, Set.encard_union_eq, (Excerpt.extend_injective back).encard_image,
    (Excerpt.shift_injective front).encard_image]
  rw [Set.disjoint_left]
  rintro _ ⟨p, ⟨rfl, hrun, -⟩, rfl⟩ ⟨q, -, heq⟩
  have hlength := congrArg (List.length ∘ Excerpt.front) heq
  have hpart := List.length_pos_iff.mpr hrun.ne_nil
  simp only [Function.comp_apply, Excerpt.shift, Excerpt.extend, Excerpt.text,
    List.length_append] at hlength
  omega

/-- A character that is in no run adds none. -/
theorem encard_runsWith_cons (hx : ¬IsWordCharacter x) (cs : List Char) :
    (runsWith property (x :: cs)).encard = (runsWith property cs).encard := by
  have hborder : IsBorder [x] cs := by
    rintro c ⟨⟩ d - hword
    exact absurd hword hx
  rw [← List.singleton_append, encard_runsWith_append hborder, runsWith_singleton hx,
    Set.encard_empty, zero_add]

/-- The runs of a text are the one with which it begins, if it does, and those behind that. -/
theorem encard_runsWith_eq_add [DecidablePred property] (hempty : ¬property []) (cs : List Char) :
    (runsWith property cs).encard =
      (if property (cs.takeWhile continuesWord) then 1 else 0) +
        (runsWith property (cs.dropWhile continuesWord)).encard := by
  have hborder : IsBorder (cs.takeWhile continuesWord) (cs.dropWhile continuesWord) := by
    intro _ _ d hd _ hword
    have hhead := List.head?_dropWhile_not continuesWord cs
    rw [Option.mem_def.mp hd] at hhead
    exact Bool.eq_false_iff.mp hhead (continuesWord_iff.mpr hword)
  have hsplit := List.takeWhile_append_dropWhile (p := continuesWord) (l := cs)
  conv_lhs => rw [← hsplit, encard_runsWith_append hborder]
  congr 1
  by_cases hne : cs.takeWhile continuesWord = []
  · rw [hne, runsWith_nil, Set.encard_empty, if_neg hempty]
  · rw [runsWith_of_inside hne fun c hc => continuesWord_iff.mp (List.mem_takeWhile_imp hc)]
    split
    · rename_i hproperty
      simp [hproperty]
    · rename_i hproperty
      simp [hproperty]

end Daybook.Text
