import Daybook.Text.Blank
import Mathlib.Data.List.TakeWhile

/-!
# Words and blanks

The words of a text are its parts between blanks. Collapsing the blanks keeps the words,
and with them every part of the text that has no blank in it.
-/

namespace Daybook.Text

variable {cs ds part : List Char} {x : Char}

/-- Some characters, none of which is blank. -/
structure IsWord (part : List Char) : Prop where
  ne_nil : part ≠ []
  not_blank : ∀ c ∈ part, isBlank c = false

/-- ASCII letters and digits by their codes. -/
theorem isAlphanum_iff {c : Char} : c.isAlphanum = true ↔ (65 ≤ c.toNat ∧ c.toNat ≤ 90) ∨
    (97 ≤ c.toNat ∧ c.toNat ≤ 122) ∨ 48 ≤ c.toNat ∧ c.toNat ≤ 57 := by
  change ((decide (65 ≤ c.val ∧ c.val ≤ 90) || (decide (97 ≤ c.val) && decide (c.val ≤ 122))) ||
    (decide (48 ≤ c.val) && decide (c.val ≤ 57))) = true ↔ _
  simp only [Bool.or_eq_true, Bool.and_eq_true, decide_eq_true_eq, UInt32.le_iff_toNat_le, or_assoc]
  rfl

/-- Letters and digits are not blank. -/
theorem isBlank_of_isAlphanum {c : Char} (h : c.isAlphanum = true) : isBlank c = false := by
  have hrange := isAlphanum_iff.mp h
  simp [isBlank]
  omega

/-- Digits are not blank. -/
theorem isBlank_of_isDigit {c : Char} (h : c.isDigit = true) : isBlank c = false :=
  isBlank_of_isAlphanum (by simp [Char.isAlphanum, h])

/-- A blank at the front belongs to no word. -/
theorem words_cons_blank (hx : isBlank x = true) (cs : List Char) :
    words (x :: cs) = words cs := by
  cases cs <;> simp [words, hx]

/-- A character before a blank is a word, or the end of one. -/
theorem words_cons_of_blank {c : Char} (hc : isBlank c = false) (hx : isBlank x = true)
    (cs : List Char) : words (c :: x :: cs) = [c] :: words (x :: cs) := by
  simp [words, hc, hx]

/-- A character before another one that is not blank belongs to the same word. -/
theorem words_cons_of_words {c d : Char} (hc : isBlank c = false) (hd : isBlank d = false)
    {w : List Char} {ws : List (List Char)} (h : words (d :: cs) = w :: ws) :
    words (c :: d :: cs) = (c :: w) :: ws := by
  simp [words, hc, hd, h]

/-- A text that begins with no blank has a first word. -/
theorem exists_words_cons (hx : isBlank x = false) (cs : List Char) :
    ∃ w ws, words (x :: cs) = w :: ws := by
  induction cs generalizing x with
  | nil => exact ⟨[x], [], by simp [words, hx]⟩
  | cons d cs ih =>
    by_cases hd : isBlank d
    · exact ⟨[x], _, words_cons_of_blank hx hd cs⟩
    · rw [Bool.not_eq_true] at hd
      obtain ⟨w, ws, hwords⟩ := ih hd
      exact ⟨x :: w, ws, words_cons_of_words hx hd hwords⟩

/-- No word goes across a blank. -/
theorem words_append_blank (hx : isBlank x = true) (cs ds : List Char) :
    words (cs ++ x :: ds) = words cs ++ words ds := by
  induction cs with
  | nil => exact words_cons_blank hx ds
  | cons c cs ih =>
    by_cases hc : isBlank c
    · rw [List.cons_append, words_cons_blank hc, ih, words_cons_blank hc]
    · rw [Bool.not_eq_true] at hc
      cases cs with
      | nil => simp [words, hc, hx, words_cons_blank hx]
      | cons d cs =>
        by_cases hd : isBlank d
        · rw [List.cons_append, List.cons_append, words_cons_of_blank hc hd,
            words_cons_of_blank hc hd, ← List.cons_append, ih, List.cons_append]
        · rw [Bool.not_eq_true] at hd
          obtain ⟨w, ws, hwords⟩ := exists_words_cons hd cs
          rw [hwords] at ih
          rw [words_cons_of_words hc hd hwords]
          exact words_cons_of_words hc hd ih

/-- A text without blanks is one word. -/
theorem words_of_isWord (h : IsWord part) : words part = [part] := by
  obtain ⟨hne, hblank⟩ := h
  induction part with
  | nil => exact absurd rfl hne
  | cons c part ih =>
    cases part with
    | nil => simp [words, hblank]
    | cons d part =>
      have hrest := ih (List.cons_ne_nil _ _) fun e he => hblank e (List.mem_cons_of_mem c he)
      simp [words, hrest, hblank]

/-- Up to the first blank stands the first word. -/
theorem words_append_cons (h : IsWord part) (hx : isBlank x = true) (cs : List Char) :
    words (part ++ x :: cs) = part :: words cs := by
  rw [words_append_blank hx, words_of_isWord h, List.singleton_append]

/-- A text is empty, or begins with a blank, or is one word, or begins with a word that a
blank ends. -/
@[elab_as_elim]
theorem words_induction {motive : List Char → Prop} (nil : motive [])
    (blank : ∀ x cs, isBlank x = true → motive cs → motive (x :: cs))
    (last : ∀ part, IsWord part → motive part)
    (word : ∀ part x cs, IsWord part → isBlank x = true → motive cs → motive (part ++ x :: cs))
    (cs : List Char) : motive cs := by
  match cs with
  | [] => exact nil
  | c :: rest =>
    by_cases hc : isBlank c
    · exact blank c rest hc (words_induction nil blank last word rest)
    · have hsplit := List.takeWhile_append_dropWhile (p := (!isBlank ·)) (l := c :: rest)
      have hpart : IsWord ((c :: rest).takeWhile (!isBlank ·)) :=
        ⟨by simp [hc], fun d hd => by simpa using List.mem_takeWhile_imp hd⟩
      cases hafter : (c :: rest).dropWhile (!isBlank ·) with
      | nil =>
        rw [hafter, List.append_nil] at hsplit
        exact hsplit ▸ last _ hpart
      | cons x ds =>
        have hx : isBlank x = true := by
          have hhead := List.head?_dropWhile_not (!isBlank ·) (c :: rest)
          rw [hafter] at hhead
          simpa using hhead
        rw [hafter] at hsplit
        have hshorter : ds.length < (c :: rest).length := by
          rw [← hsplit]
          simp
          omega
        exact hsplit ▸ word _ x ds hpart hx (words_induction nil blank last word ds)
termination_by cs.length
decreasing_by
  · exact Nat.lt_succ_self _
  · exact hshorter

/-- The words of a text are not empty, and have no blanks. -/
theorem isWord_of_mem_words : ∀ part ∈ words cs, IsWord part := by
  induction cs using words_induction with
  | nil => simp [words]
  | blank x cs hx ih => rwa [words_cons_blank hx]
  | last part hpart => simpa [words_of_isWord hpart] using hpart
  | word part x cs hpart hx ih =>
    rw [words_append_cons hpart hx]
    exact List.forall_mem_cons.mpr ⟨hpart, ih⟩

/-- The words hold the characters that are not blank, in their order. -/
theorem flatten_words (cs : List Char) : (words cs).flatten = cs.filter (!isBlank ·) := by
  have hfilter : ∀ part, IsWord part → part.filter (!isBlank ·) = part := fun part hpart =>
    List.filter_eq_self.mpr fun c hc => by simp [hpart.not_blank c hc]
  induction cs using words_induction with
  | nil => rfl
  | blank x cs hx ih => simp [words_cons_blank hx, ih, hx]
  | last part hpart => simp [words_of_isWord hpart, hfilter part hpart]
  | word part x cs hpart hx ih =>
    simp [words_append_cons hpart hx, ih, hx, hfilter part hpart]

/-- Words that are joined with spaces are taken apart again. -/
theorem words_intercalate {ws : List (List Char)} (h : ∀ part ∈ ws, IsWord part) :
    words ([' '].intercalate ws) = ws := by
  induction ws with
  | nil => rfl
  | cons part ws ih =>
    obtain ⟨hpart, hrest⟩ := List.forall_mem_cons.mp h
    cases ws with
    | nil => rw [List.intercalate_singleton, words_of_isWord hpart]
    | cons next ws =>
      rw [List.intercalate_cons_cons, List.append_assoc, List.singleton_append,
        words_append_cons hpart rfl, ih hrest]

/-- Collapsing blanks leaves the words. -/
@[simp] theorem words_collapse (cs : List Char) : words (collapse cs) = words cs :=
  words_intercalate isWord_of_mem_words

/-- Collapsing blanks again changes nothing. -/
@[simp] theorem collapse_collapse (cs : List Char) : collapse (collapse cs) = collapse cs := by
  rw [collapse, words_collapse, collapse]

/-- Collapsing a text keeps the characters that are not blank. -/
theorem filter_collapse (cs : List Char) :
    (collapse cs).filter (!isBlank ·) = cs.filter (!isBlank ·) := by
  rw [← flatten_words, words_collapse, flatten_words]

/-- What is seen beside a word: a character that is not blank, if any. -/
def seen (c : Option Char) : Option Char := c.filter (!isBlank ·)

/-- A blank is not seen. -/
@[simp] theorem seen_blank (hx : isBlank x = true) : seen (some x) = none := by
  simp [seen, hx]

/-- Nothing is seen where there is no character, or a blank. -/
theorem seen_eq_none_iff {c : Option Char} :
    seen c = none ↔ ∀ x, c = some x → isBlank x = true := by
  cases c <;> simp [seen]

/-- What is seen at the end of a text is what is seen behind its last blank. -/
theorem seen_getLast?_append (hx : isBlank x = true) (cs ds : List Char) :
    seen (cs ++ x :: ds).getLast? = seen ds.getLast? := by
  cases ds with
  | nil => rw [List.getLast?_concat, seen_blank hx]; rfl
  | cons d ds => rw [List.getLast?_append, List.getLast?_cons_cons, List.getLast?_cons]; rfl

/-- What is seen at its front is what is seen before its first blank. -/
theorem seen_head?_append (hx : isBlank x = true) (cs ds : List Char) :
    seen (cs ++ x :: ds).head? = seen cs.head? := by
  cases cs with
  | nil => exact seen_blank hx
  | cons c cs => rfl

/-- A blank beside another one, or at the beginning, does not change the words. -/
theorem words_append_cons_of_seen (hx : isBlank x = true) (hcs : seen cs.getLast? = none) :
    words (cs ++ x :: ds) = words (cs ++ ds) := by
  rcases List.eq_nil_or_concat cs with rfl | ⟨before, last, rfl⟩
  · exact words_cons_blank hx ds
  · have hlast : isBlank last = true := seen_eq_none_iff.mp hcs last (by simp)
    rw [List.concat_eq_append, List.append_assoc, List.append_assoc, List.singleton_append,
      List.singleton_append, words_append_blank hlast, words_append_blank hlast,
      words_cons_blank hx]

/-- A part without blanks stands before or after any blank of the text. -/
theorem stands_beside_blank {front back : List Char} (hpart : IsWord part)
    (hx : isBlank x = true) (h : cs ++ x :: ds = front ++ part ++ back) :
    (∃ rest, cs = front ++ part ++ rest ∧ back = rest ++ x :: ds) ∨
      ∃ rest, front = cs ++ x :: rest ∧ ds = rest ++ part ++ back := by
  have hnot : ∀ left right, part ≠ left ++ x :: right := by
    rintro left right rfl
    have := hpart.not_blank x (by simp)
    simp [hx] at this
  rcases List.append_eq_append_iff.mp h with ⟨after, hfront, hafter⟩ | ⟨rest, hcs, hback⟩
  · rcases List.cons_eq_append_iff.mp hafter with ⟨rfl, rfl⟩ | ⟨after, rfl, hds⟩
    · exact .inl ⟨[], by simpa using hfront.symm, rfl⟩
    · rcases List.append_eq_append_iff.mp hfront with ⟨rest, hcs, hpart'⟩ | ⟨rest, hfront', hrest⟩
      · exact absurd hpart' (hnot _ _)
      · rcases List.cons_eq_append_iff.mp hrest with ⟨rfl, hpart'⟩ | ⟨rest, rfl, hafter'⟩
        · exact absurd hpart' (hnot [] _)
        · exact .inr ⟨rest, hfront', by rw [hds, hafter']⟩
  · exact .inl ⟨rest, hcs, hback⟩

/-- A part without blanks that stands in the collapsed text stands in the text itself,
beside the same characters or blanks. -/
theorem stands_of_collapse {front back : List Char} (hpart : IsWord part)
    (h : collapse cs = front ++ part ++ back) :
    ∃ front' back', cs = front' ++ part ++ back' ∧
      seen front'.getLast? = seen front.getLast? ∧ seen back'.head? = seen back.head? := by
  induction cs using words_induction generalizing front with
  | nil =>
    have hnil : front ++ part ++ back = [] := h.symm
    simp [hpart.ne_nil] at hnil
  | blank x cs hx ih =>
    rw [collapse, words_cons_blank hx] at h
    obtain ⟨front', back', rfl, hfront, hback⟩ := ih h
    exact ⟨x :: front', back', rfl, (seen_getLast?_append hx [] front').trans hfront, hback⟩
  | last whole hwhole =>
    rw [collapse, words_of_isWord hwhole, List.intercalate_singleton] at h
    exact ⟨front, back, h, rfl, rfl⟩
  | word whole x cs hwhole hx ih =>
    rw [collapse, words_append_cons hwhole hx] at h
    by_cases hnone : words cs = []
    · rw [hnone, List.intercalate_singleton] at h
      exact ⟨front, back ++ x :: cs, by simp [h], rfl, seen_head?_append hx back cs⟩
    · rw [List.intercalate_cons_of_ne_nil hnone, List.append_assoc, List.singleton_append] at h
      rcases stands_beside_blank hpart rfl h with ⟨rest, rfl, rfl⟩ | ⟨rest, rfl, hrest⟩
      · exact ⟨front, rest ++ x :: cs, by simp, rfl, by
          rw [seen_head?_append hx, seen_head?_append rfl]⟩
      · obtain ⟨front', back', rfl, hfront, hback⟩ := ih hrest
        exact ⟨whole ++ x :: front', back', by simp, by
          rw [seen_getLast?_append hx, seen_getLast?_append rfl, hfront], hback⟩

/-- A part without blanks that stands in a text is left where its blanks are collapsed, beside
the same characters or blanks. -/
theorem stands_in_collapse {front back : List Char} (hpart : IsWord part)
    (h : cs = front ++ part ++ back) :
    ∃ left right, collapse cs = left ++ part ++ right ∧
      seen left.getLast? = seen front.getLast? ∧ seen right.head? = seen back.head? := by
  induction cs using words_induction generalizing front with
  | nil =>
    have hnil : front ++ part ++ back = [] := h.symm
    simp [hpart.ne_nil] at hnil
  | blank x cs hx ih =>
    have hblank : [] ++ x :: cs = front ++ part ++ back := h
    rcases stands_beside_blank hpart hx hblank with ⟨rest, hnil, -⟩ | ⟨rest, rfl, hrest⟩
    · have hnil : front ++ part ++ rest = [] := hnil.symm
      simp [hpart.ne_nil] at hnil
    · obtain ⟨left, right, hcollapse, hleft, hright⟩ := ih hrest
      refine ⟨left, right, ?_, hleft.trans (seen_getLast?_append hx [] rest).symm, hright⟩
      rw [collapse, words_cons_blank hx]
      exact hcollapse
  | last whole hwhole =>
    refine ⟨front, back, ?_, rfl, rfl⟩
    rw [collapse, words_of_isWord hwhole, List.intercalate_singleton, h]
  | word whole x cs hwhole hx ih =>
    rw [collapse, words_append_cons hwhole hx]
    rcases stands_beside_blank hpart hx h with ⟨rest, rfl, rfl⟩ | ⟨rest, rfl, hrest⟩
    · by_cases hnone : words cs = []
      · refine ⟨front, rest, ?_, rfl, (seen_head?_append hx rest cs).symm⟩
        rw [hnone, List.intercalate_singleton]
      · refine ⟨front, rest ++ ' ' :: collapse cs, ?_, rfl, ?_⟩
        · rw [List.intercalate_cons_of_ne_nil hnone, collapse]
          simp
        · rw [seen_head?_append rfl, seen_head?_append hx]
    · obtain ⟨left, right, hcollapse, hleft, hright⟩ := ih hrest
      have hsome : words cs ≠ [] := by
        intro hnone
        rw [collapse, hnone] at hcollapse
        have hnil : left ++ part ++ right = [] := hcollapse.symm
        simp [hpart.ne_nil] at hnil
      refine ⟨whole ++ ' ' :: left, right, ?_, ?_, hright⟩
      · rw [List.intercalate_cons_of_ne_nil hsome, ← collapse, hcollapse]
        simp
      · rw [seen_getLast?_append rfl, seen_getLast?_append hx, hleft]

/-- A test that no blank passes fails for `c` if it fails for `d`, and `c` is seen as `d` or
fails it in any case. -/
theorem any_eq_false_of_seen {p : Char → Bool} {c d : Option Char}
    (hp : ∀ x, p x = true → isBlank x = false)
    (hc : ∀ x, c = some x → seen (some x) = seen d ∨ p x = false) (hd : d.any p = false) :
    c.any p = false := by
  cases c with
  | none => rfl
  | some x =>
    rcases hc x rfl with hseen | hx
    · by_contra hx
      rw [Option.any_some, Bool.not_eq_false] at hx
      have hd' : d = some x := by
        rw [seen, Option.filter_some, hp x hx] at hseen
        exact (Option.filter_eq_some_iff.mp hseen.symm).1
      rw [hd', Option.any_some, hx] at hd
      cases hd
    · exact hx

/-- A word stands between blanks, or at an end of the text. -/
theorem stands_of_mem_words (h : part ∈ words cs) :
    ∃ front back, cs = front ++ part ++ back ∧ seen front.getLast? = none ∧
      seen back.head? = none := by
  induction cs using words_induction with
  | nil => cases h
  | blank x cs hx ih =>
    rw [words_cons_blank hx] at h
    obtain ⟨front, back, rfl, hfront, hback⟩ := ih h
    exact ⟨x :: front, back, rfl, (seen_getLast?_append hx [] front).trans hfront, hback⟩
  | last whole hwhole =>
    rw [words_of_isWord hwhole, List.mem_singleton] at h
    exact ⟨[], [], by simp [h], rfl, rfl⟩
  | word whole x cs hwhole hx ih =>
    rw [words_append_cons hwhole hx] at h
    rcases List.mem_cons.mp h with rfl | hmem
    · exact ⟨[], x :: cs, by simp, rfl, seen_blank hx⟩
    · obtain ⟨front, back, rfl, hfront, hback⟩ := ih hmem
      exact ⟨whole ++ x :: front, back, by simp, (seen_getLast?_append hx whole front).trans hfront,
        hback⟩

end Daybook.Text
