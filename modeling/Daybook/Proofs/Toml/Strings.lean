import Daybook.Toml.Lexeme
import Daybook.Toml.Writer
import Mathlib.Data.List.Infix

/-!
# Strings that are written and read

A string is read back from each of the four forms in which it is written. Between quotation
marks every character is read from its escape. Between threefold marks, a row of marks in the
text never runs to three, and up to two of them may stand before the last three.
-/

namespace Daybook.Toml

variable {c : Char} {cs text rest written : List Char}

/-- What a character is written as between quotation marks. -/
inductive Escaped (c : Char) : List Char → Prop
  /-- A backslash and a letter. -/
  | letter (e : Char) (h : simpleEscape? e = some c) (hu : e ≠ 'u') (hU : e ≠ 'U') :
    Escaped c ['\x5c', e]
  /-- A backslash and the code of the character. -/
  | code (x y z w : Char) (h : ofCode? [x, y, z, w] = some c) :
    Escaped c ['\x5c', 'u', x, y, z, w]
  /-- The character itself. -/
  | plain (h : isPlain c = true) (hmark : c ≠ '\x22') (hslash : c ≠ '\x5c') : Escaped c [c]

/-- The four hexadecimal digits of an ASCII character are read back as the character. -/
theorem ofCode?_fourHex {n : Nat} (h : n < 128) : ofCode? (fourHex n) = some (Char.ofNat n) := by
  have hall : ∀ n : Fin 128, ofCode? (fourHex n) = some (Char.ofNat n) := by decide +kernel
  exact hall ⟨n, h⟩

/-- What is no control character may stand in a string as it is. -/
theorem isPlain_of_isControl (h : isControl c = false) : isPlain c = true := by
  simp only [isControl, Bool.or_eq_false_iff, decide_eq_false_iff_not, beq_eq_false_iff_ne] at h
  simp only [isPlain, Bool.or_eq_true, Bool.and_eq_true, decide_eq_true_eq, bne_iff_ne]
  exact .inr ⟨Nat.le_of_not_lt h.1, h.2⟩

/-- Every character but the quotation mark is written as itself or with an escape. -/
theorem escaped_escape (h : c ≠ '\x22') : Escaped c (escape c) := by
  unfold escape
  split
  · exact .letter '\x5c' rfl (by decide) (by decide)
  · exact .letter 'b' rfl (by decide) (by decide)
  · exact .letter 't' rfl (by decide) (by decide)
  · exact .letter 'n' rfl (by decide) (by decide)
  · exact .letter 'f' rfl (by decide) (by decide)
  · exact .letter 'r' rfl (by decide) (by decide)
  · rename_i hslash _ _ _ _ _
    split
    · rename_i hcontrol
      have hsmall : c.toNat < 128 := by
        simp only [isControl, Bool.or_eq_true, decide_eq_true_eq, beq_iff_eq] at hcontrol
        omega
      exact .code _ _ _ _ ((ofCode?_fourHex hsmall).trans (by rw [Char.ofNat_toNat]))
    · rename_i hcontrol
      exact .plain (isPlain_of_isControl (Bool.not_eq_true _ ▸ hcontrol)) h hslash

/-- The quotation mark is written with an escape. -/
theorem escaped_mark : Escaped '\x22' ['\x5c', '\x22'] :=
  .letter '\x22' rfl (by decide) (by decide)

/-- What a character is written as begins with no mark, and on the same line. -/
theorem Escaped.exists_head (h : Escaped c written) :
    ∃ d tail, written = d :: tail ∧ d ≠ '\x22' ∧ isPlain d = true := by
  cases h with
  | letter | code => exact ⟨'\x5c', _, rfl, by decide, rfl⟩
  | plain hplain hmark => exact ⟨c, [], rfl, hmark, hplain⟩

/-- An escaped character is read back and put in front of the rest of a string. -/
theorem readBasic?_escaped (h : Escaped c written) :
    readBasic? (written ++ text) = push c (readBasic? text) := by
  cases h with
  | letter e h hu hU =>
    change readBasic? ('\x5c' :: e :: text) = _
    rw [readBasic?, h]
    · rfl
    · exact fun _ _ _ _ _ he _ => hu he
    · exact fun _ _ _ _ _ _ _ _ _ he _ => hU he
  | code x y z w h =>
    change readBasic? ('\x5c' :: 'u' :: x :: y :: z :: w :: text) = _
    rw [readBasic?, h]
    rfl
  | plain h hmark hslash =>
    change readBasic? (c :: text) = _
    rw [readBasic?, if_pos h]
    · exact hmark
    all_goals
      intros
      contradiction

/-- A text is written character by character. -/
theorem exists_escapeAll (c : Char) (cs : List Char) :
    ∃ written, Escaped c written ∧ escapeAll (c :: cs) = written ++ escapeAll cs := by
  refine ⟨if c == '\x22' then ['\x5c', '\x22'] else escape c, ?_, rfl⟩
  split
  · rename_i hmark
    obtain rfl := eq_of_beq hmark
    exact escaped_mark
  · rename_i hmark
    exact escaped_escape fun h => hmark (by rw [h]; rfl)

/-- A text that is escaped character by character is read back up to the mark behind it. -/
theorem readBasic?_escapeAll (cs rest : List Char) :
    readBasic? (escapeAll cs ++ '\x22' :: rest) = some (cs, rest) := by
  induction cs with
  | nil => rfl
  | cons c cs ih =>
    obtain ⟨written, hescaped, hwritten⟩ := exists_escapeAll c cs
    rw [hwritten, List.append_assoc, readBasic?_escaped hescaped, ih]
    rfl

/-- In a string of several lines an escaped character is read back in the same way. -/
theorem readLongBasic?_escaped (h : Escaped c written) :
    readLongBasic? false (written ++ text) = push c (readLongBasic? false text) := by
  cases h with
  | letter e h hu hU =>
    change readLongBasic? false ('\x5c' :: e :: text) = _
    rw [readLongBasic?, h]
    · exact fun _ _ _ _ _ he _ => hu he
    · exact fun _ _ _ _ _ _ _ _ _ he _ => hU he
  | code x y z w h =>
    change readLongBasic? false ('\x5c' :: 'u' :: x :: y :: z :: w :: text) = _
    rw [readLongBasic?, h]
    rfl
  | plain h hmark hslash =>
    change readLongBasic? false (c :: text) = _
    rw [readLongBasic?]
    · simp [h]
    · intros
      contradiction
    · intros
      contradiction
    · intros
      contradiction
    · intros
      contradiction
    · intros
      contradiction
    · intros
      contradiction
    · rintro _ rfl
      cases h

/-- A line break stands for itself in a string of several lines. -/
theorem readLongBasic?_break :
    readLongBasic? false ('\n' :: text) = push '\n' (readLongBasic? false text) := by
  rw [readLongBasic?] <;> simp

/-- A mark that does not begin a row of three is one of the text. -/
theorem readLongBasic?_mark (h : ¬['\x22', '\x22'] <+: text) :
    readLongBasic? false ('\x22' :: text) = push '\x22' (readLongBasic? false text) := by
  rw [readLongBasic?]
  · rfl
  · rintro text' - rfl
    exact h ⟨_, rfl⟩
  · rintro text' - rfl
    exact h ⟨_, rfl⟩
  · rintro text' - rfl
    exact h ⟨_, rfl⟩
  all_goals
    intros
    contradiction

/-- What stands for a character begins with another one than a mark. -/
theorem exists_head_escapeLong (cs : List Char) {marks : Nat} (h : c ≠ '\x22' ∨ marks = 2) :
    ∃ d written, escapeLong marks (c :: cs) = d :: written ∧ d ≠ '\x22' := by
  by_cases hmark : c = '\x22'
  · subst hmark
    obtain rfl := h.resolve_left (fun hne => hne rfl)
    exact ⟨'\x5c', _, rfl, by decide⟩
  · by_cases hbreak : c = '\n'
    · subst hbreak
      exact ⟨'\n', _, rfl, by decide⟩
    · have hwritten : escapeLong marks (c :: cs) = escape c ++ escapeLong 0 cs := by
        simp [escapeLong, hmark, hbreak]
      obtain ⟨d, tail, htail, hd, -⟩ := (escaped_escape hmark).exists_head
      exact ⟨d, tail ++ escapeLong 0 cs, by rw [hwritten, htail]; rfl, hd⟩

/-- After a mark that stands for itself, a row of three marks begins only at the end of the text. -/
theorem eq_of_marks_prefix {marks : Nat} (hmarks : marks < 2)
    (h : ['\x22', '\x22'] <+: escapeLong (marks + 1) cs ++ '\x22' :: '\x22' :: '\x22' :: rest) :
    cs = [] ∨ (marks = 0 ∧ cs = ['\x22']) := by
  cases cs with
  | nil => exact .inl rfl
  | cons c cs =>
    by_cases hc : c ≠ '\x22' ∨ marks + 1 = 2
    · obtain ⟨d, written, hwritten, hd⟩ := exists_head_escapeLong cs hc
      rw [hwritten, List.cons_append, List.cons_prefix_cons] at h
      exact absurd h.1.symm hd
    · obtain ⟨rfl, hmarks'⟩ : c = '\x22' ∧ marks + 1 ≠ 2 := by
        simpa [not_or] using hc
      obtain rfl : marks = 0 := by omega
      cases cs with
      | nil => exact .inr ⟨rfl, rfl⟩
      | cons c cs =>
        obtain ⟨d, written, hwritten, hd⟩ :=
          exists_head_escapeLong cs (show c ≠ '\x22' ∨ 2 = 2 from .inr rfl)
        change _ <+: '\x22' :: (escapeLong 2 (c :: cs) ++ _) at h
        rw [hwritten, List.cons_append, List.cons_prefix_cons, List.cons_prefix_cons] at h
        exact absurd h.2.1.symm hd

/-- A text of several lines is read back up to the three marks behind it, where at most two marks of
its own stand in a row. The last of these may stand right before the three. -/
theorem readLongBasic?_escapeLong (hrest : rest.head? ≠ some '\x22') {marks : Nat}
    (hmarks : marks ≤ 2) :
    readLongBasic? false (escapeLong marks cs ++ '\x22' :: '\x22' :: '\x22' :: rest) =
      some (cs, rest) := by
  have hhead : ∀ text, rest ≠ '\x22' :: text := by
    rintro text rfl
    exact hrest rfl
  induction cs generalizing marks with
  | nil =>
    change readLongBasic? false ('\x22' :: '\x22' :: '\x22' :: rest) = _
    rw [readLongBasic?]
    · exact fun _ h => hhead _ h
    · exact fun _ h => hhead _ h
  | cons c cs ih =>
    by_cases hmark : c = '\x22'
    · subst hmark
      by_cases htwo : marks = 2
      · subst htwo
        change readLongBasic? false (['\x5c', '\x22'] ++ (escapeLong 0 cs ++ _)) = _
        rw [readLongBasic?_escaped escaped_mark, ih (by decide)]
        rfl
      · have hwritten : escapeLong marks ('\x22' :: cs) = '\x22' :: escapeLong (marks + 1) cs := by
          simp [escapeLong, htwo]
        rw [hwritten, List.cons_append]
        by_cases hrow : ['\x22', '\x22'] <+:
            escapeLong (marks + 1) cs ++ '\x22' :: '\x22' :: '\x22' :: rest
        · rcases eq_of_marks_prefix (by omega) hrow with rfl | ⟨rfl, rfl⟩
          · change readLongBasic? false ('\x22' :: '\x22' :: '\x22' :: '\x22' :: rest) = _
            rw [readLongBasic?]
            exact fun _ h => hhead _ h
          · rfl
        · rw [readLongBasic?_mark hrow, ih (by omega)]
          rfl
    · by_cases hbreak : c = '\n'
      · subst hbreak
        change readLongBasic? false ('\n' :: (escapeLong 0 cs ++ _)) = _
        rw [readLongBasic?_break, ih (by decide)]
        rfl
      · have hwritten : escapeLong marks (c :: cs) = escape c ++ escapeLong 0 cs := by
          simp [escapeLong, hmark, hbreak]
        rw [hwritten, List.append_assoc, readLongBasic?_escaped (escaped_escape hmark),
          ih (by decide)]
        rfl

/-- A literal text is read back as it stands, up to the mark behind it. -/
theorem readLiteral?_append (hcs : ∀ c ∈ cs, c ≠ '\x27' ∧ isPlain c = true) (rest : List Char) :
    readLiteral? (cs ++ '\x27' :: rest) = some (cs, rest) := by
  induction cs with
  | nil => rfl
  | cons c cs ih =>
    obtain ⟨⟨hmark, hplain⟩, hcs⟩ := List.forall_mem_cons.mp hcs
    rw [List.cons_append, readLiteral?, if_neg (by simpa using hmark), if_pos hplain, ih hcs]
    rfl

/-- A character that does not begin a row of three apostrophes is one of the text. -/
theorem readLongLiteral?_cons (hc : c = '\n' ∨ isPlain c = true)
    (h : ¬['\x27', '\x27', '\x27'] <+: c :: text) :
    readLongLiteral? (c :: text) = push c (readLongLiteral? text) := by
  rw [readLongLiteral?]
  · simp [hc]
  · rintro text' rfl rfl
    exact h ⟨_, rfl⟩
  · rintro text' rfl rfl
    exact h ⟨_, rfl⟩
  · rintro text' rfl rfl
    exact h ⟨_, rfl⟩
  · rintro text' rfl rfl
    rcases hc with hc | hc <;> cases hc

/-- In a text without a row of three apostrophes, such a row begins only at its end. -/
theorem eq_of_apostrophes_prefix (hthree : hasThree '\x27' (c :: cs) = false)
    (h : ['\x27', '\x27', '\x27'] <+: c :: (cs ++ '\x27' :: '\x27' :: '\x27' :: rest)) :
    c :: cs = ['\x27'] ∨ c :: cs = ['\x27', '\x27'] := by
  obtain ⟨rfl, hrow⟩ := List.cons_prefix_cons.mp h
  rcases cs with _ | ⟨d, _ | ⟨e, cs⟩⟩
  · exact .inl rfl
  · obtain ⟨rfl, -⟩ := List.cons_prefix_cons.mp hrow
    exact .inr rfl
  · obtain ⟨rfl, hthird⟩ := List.cons_prefix_cons.mp hrow
    obtain ⟨rfl, -⟩ := List.cons_prefix_cons.mp hthird
    simp [hasThree] at hthree

/-- A literal of several lines, in which three marks never stand in a row, is read back up to the
three marks behind it. -/
theorem readLongLiteral?_append (hrest : rest.head? ≠ some '\x27')
    (hcs : ∀ c ∈ cs, c = '\n' ∨ isPlain c = true) (hthree : hasThree '\x27' cs = false) :
    readLongLiteral? (cs ++ '\x27' :: '\x27' :: '\x27' :: rest) = some (cs, rest) := by
  have hhead : ∀ text, rest ≠ '\x27' :: text := by
    rintro text rfl
    exact hrest rfl
  induction cs with
  | nil =>
    change readLongLiteral? ('\x27' :: '\x27' :: '\x27' :: rest) = _
    rw [readLongLiteral?]
    · exact fun _ h => hhead _ h
    · exact fun _ h => hhead _ h
  | cons c cs ih =>
    obtain ⟨hc, hcs⟩ := List.forall_mem_cons.mp hcs
    by_cases hrow : ['\x27', '\x27', '\x27'] <+:
        c :: (cs ++ '\x27' :: '\x27' :: '\x27' :: rest)
    · rcases eq_of_apostrophes_prefix hthree hrow with htext | htext
      · rw [htext]
        change readLongLiteral? ('\x27' :: '\x27' :: '\x27' :: '\x27' :: rest) = _
        rw [readLongLiteral?]
        exact fun _ h => hhead _ h
      · rw [htext]
        rfl
    · rw [hasThree, Bool.or_eq_false_iff] at hthree
      rw [List.cons_append, readLongLiteral?_cons hc hrow, ih hcs hthree.2]
      rfl

/-- Only a line break is dropped at the front of a string of several lines. -/
theorem dropBreak_cons (h : isPlain c = true) : dropBreak (c :: text) = c :: text := by
  have hnone : readBreak? (c :: text) = none := by
    rw [readBreak?.eq_def]
    split
    · rename_i hc
      cases hc
      cases h
    · rename_i hc
      cases hc
      cases h
    · rfl
  rw [dropBreak, hnone]
  rfl

/-- The marks are taken off a string of several lines with the line break after them. -/
theorem dropBreak_writeLong {cs text : List Char}
    (h : '\n' ∉ cs → ∃ c tail, text = c :: tail ∧ isPlain c = true) :
    dropBreak ((if cs.contains '\n' then ['\n'] else []) ++ text) = text := by
  split
  · rfl
  · rename_i hbreak
    obtain ⟨c, tail, rfl, hc⟩ := h (by simpa using hbreak)
    exact dropBreak_cons hc

/-- A form that is chosen needs no escapes, or is one with escapes. -/
theorem Quoting.of_cases (cs : List Char) :
    (Quoting.of cs).isPlain cs = true ∨ Quoting.of cs = .basic ∨ Quoting.of cs = .longBasic := by
  unfold Quoting.of
  cases hfound : [basic, literal, longBasic, longLiteral].find? (·.isPlain cs) with
  | some form => exact .inl (List.find?_some (p := fun form => Quoting.isPlain form cs) hfound)
  | none =>
    right
    rw [Option.getD_none]
    split
    · exact .inr rfl
    · exact .inl rfl

/-- Where a form needs no escapes, each character can stand as it is. -/
theorem Quoting.isPlain_of_mem {form : Quoting} (h : form.isPlain cs = true) (hc : c ∈ cs) :
    c = '\n' ∨ Toml.isPlain c = true := by
  unfold Quoting.isPlain at h
  rw [Bool.and_eq_true, Bool.not_eq_true', List.any_eq_false] at h
  have hcontrol := h.1 c hc
  by_cases hbreak : c = '\n'
  · exact .inl hbreak
  · right
    by_cases htab : c = '\t'
    · rw [htab]
      rfl
    · refine isPlain_of_isControl (Bool.eq_false_iff.mpr fun hctl => hcontrol ?_)
      simp [hctl, hbreak, htab]

/-- A string with escapes is read back, where no further mark makes it one of several lines. -/
theorem readString?_basic (hrest : rest.head? ≠ some '\x22') :
    readString? ('\x22' :: escapeAll cs ++ ['\x22'] ++ rest) = some (cs, rest) := by
  have htext : '\x22' :: escapeAll cs ++ ['\x22'] ++ rest =
      '\x22' :: (escapeAll cs ++ '\x22' :: rest) := by simp
  rw [htext, readString?, readBasic?_escapeAll]
  intro text htwo
  cases cs with
  | nil =>
    obtain rfl : rest = '\x22' :: text := (List.cons_inj_right _).mp htwo
    exact hrest rfl
  | cons c cs =>
    obtain ⟨written, hescaped, hwritten⟩ := exists_escapeAll c cs
    obtain ⟨d, tail, rfl, hd, -⟩ := hescaped.exists_head
    rw [hwritten, List.cons_append, List.cons_append] at htwo
    exact hd (List.cons.inj htwo).1

/-- A literal string is read back if it is not empty. -/
theorem readString?_literal (hform : Quoting.literal.isPlain cs = true) (hne : cs ≠ []) :
    readString? ('\x27' :: cs ++ ['\x27'] ++ rest) = some (cs, rest) := by
  have hcs : ∀ c ∈ cs, c ≠ '\x27' ∧ isPlain c = true := by
    intro c hc
    have hmark := hform
    simp only [Quoting.isPlain, Bool.and_eq_true, Bool.not_eq_true', List.any_eq_false,
      Bool.or_eq_true, beq_iff_eq, not_or] at hmark
    obtain ⟨hmark, hbreak⟩ := hmark.2 c hc
    exact ⟨hmark, (Quoting.isPlain_of_mem hform hc).resolve_left hbreak⟩
  have htext : '\x27' :: cs ++ ['\x27'] ++ rest = '\x27' :: (cs ++ '\x27' :: rest) := by simp
  rw [htext, readString?, readLiteral?_append hcs]
  intro text htwo
  obtain ⟨c, cs, rfl⟩ := List.exists_cons_of_ne_nil hne
  exact (hcs c List.mem_cons_self).1 (List.cons.inj htwo).1

/-- A string of several lines with escapes is read back. -/
theorem readString?_longBasic (hrest : rest.head? ≠ some '\x22') :
    readString? (writeLong '\x22' cs (escapeLong 0 cs) ++ rest) = some (cs, rest) := by
  have htext : writeLong '\x22' cs (escapeLong 0 cs) ++ rest = '\x22' :: '\x22' :: '\x22' ::
      ((if cs.contains '\n' then ['\n'] else []) ++
        (escapeLong 0 cs ++ '\x22' :: '\x22' :: '\x22' :: rest)) := by
    simp [writeLong]
  rw [htext, readString?, dropBreak_writeLong, readLongBasic?_escapeLong hrest (by decide)]
  intro hbreak
  cases cs with
  | nil => exact ⟨'\x22', _, rfl, rfl⟩
  | cons c cs =>
    by_cases hmark : c = '\x22'
    · subst hmark
      exact ⟨'\x22', _, rfl, rfl⟩
    · have hwritten : escapeLong 0 (c :: cs) = escape c ++ escapeLong 0 cs := by
        have hc : c ≠ '\n' := fun h => hbreak (h ▸ List.mem_cons_self)
        simp [escapeLong, hmark, hc]
      obtain ⟨d, tail, htail, -, hd⟩ := (escaped_escape hmark).exists_head
      rw [hwritten, htail]
      exact ⟨d, _, rfl, hd⟩

/-- A literal string of several lines is read back. -/
theorem readString?_longLiteral (hform : Quoting.longLiteral.isPlain cs = true)
    (hrest : rest.head? ≠ some '\x27') :
    readString? (writeLong '\x27' cs cs ++ rest) = some (cs, rest) := by
  have hthree : hasThree '\x27' cs = false := by
    simp only [Quoting.isPlain, Bool.and_eq_true, Bool.not_eq_true'] at hform
    exact hform.2
  have htext : writeLong '\x27' cs cs ++ rest = '\x27' :: '\x27' :: '\x27' ::
      ((if cs.contains '\n' then ['\n'] else []) ++
        (cs ++ '\x27' :: '\x27' :: '\x27' :: rest)) := by
    simp [writeLong]
  have hcs : ∀ c ∈ cs, c = '\n' ∨ isPlain c = true := fun c => Quoting.isPlain_of_mem hform
  rw [htext, readString?, dropBreak_writeLong, readLongLiteral?_append hrest hcs hthree]
  intro hbreak
  cases cs with
  | nil => exact ⟨'\x27', _, rfl, rfl⟩
  | cons c cs =>
    refine ⟨c, _, rfl, (hcs c List.mem_cons_self).resolve_left fun h => ?_⟩
    exact hbreak (h ▸ List.mem_cons_self)

/-- A string is read back from what it is written as, if no further mark follows. -/
theorem readString?_writeString (s : String)
    (hrest : rest.head? ≠ some '\x22' ∧ rest.head? ≠ some '\x27') :
    readString? (writeString s ++ rest) = some (s.toList, rest) := by
  unfold writeString
  generalize s.toList = cs
  have hplain := Quoting.of_cases cs
  dsimp only
  cases hform : Quoting.of cs with
  | basic => exact readString?_basic hrest.1
  | literal =>
    rw [hform] at hplain
    refine readString?_literal (hplain.resolve_right (by simp)) ?_
    rintro rfl
    cases hform
  | longBasic => exact readString?_longBasic hrest.1
  | longLiteral =>
    rw [hform] at hplain
    exact readString?_longLiteral (hplain.resolve_right (by simp)) hrest.2

end Daybook.Toml
