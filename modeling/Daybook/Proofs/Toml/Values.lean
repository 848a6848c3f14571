import Daybook.Proofs.Toml.Strings
import Daybook.Proofs.Toml.Tokens

/-!
# Values that are written and read

Strings, lists of strings, numbers and truth values are read back from their texts at the end
of a line. A text of a value begins with a character that no blank, comment or line break
begins with, so nothing of it is skipped.
-/

namespace Daybook.Toml

open Numeric

variable {c : Char} {cs text rest : List Char} {s : String} {items : List String} {value : Value}
  {fuel depth n : ℕ}

/-- Whether blanks, comments and line breaks do not begin with a character. -/
def isSolid (c : Char) : Bool := !(List.contains ['\t', '\n', '\r', ' ', '#'] c)

/-- A text that nothing is skipped of. -/
def BeginsSolid (cs : List Char) : Prop := ∃ c rest, cs = c :: rest ∧ isSolid c = true

/-- What follows a text does not change how it begins. -/
theorem BeginsSolid.append (h : BeginsSolid cs) (rest : List Char) : BeginsSolid (cs ++ rest) := by
  obtain ⟨c, cs, rfl, hc⟩ := h
  exact ⟨c, cs ++ rest, rfl, hc⟩

/-- No blanks are skipped before a solid beginning. -/
theorem BeginsSolid.skipBlank (h : BeginsSolid cs) : skipBlank cs = cs := by
  obtain ⟨c, cs, rfl, hc⟩ := h
  refine List.dropWhile_cons_of_neg ?_
  have hne : ∀ d, isSolid d = false → c ≠ d := by
    rintro d hd rfl
    simp [hc] at hd
  simp [hne ' ' rfl, hne '\t' rfl]

/-- No comment begins where a text begins solidly. -/
theorem BeginsSolid.skipComment (h : BeginsSolid cs) : skipComment cs = cs := by
  obtain ⟨c, cs, rfl, hc⟩ := h
  unfold Toml.skipComment
  split
  · rename_i heq
    cases heq
    simp [isSolid] at hc
  · rfl

/-- No line break begins where a text begins solidly. -/
theorem BeginsSolid.readBreak? (h : BeginsSolid cs) : readBreak? cs = none := by
  obtain ⟨c, cs, rfl, hc⟩ := h
  unfold Toml.readBreak?
  split
  · rename_i heq
    cases heq
    simp [isSolid] at hc
  · rename_i heq
    cases heq
    simp [isSolid] at hc
  · rfl

/-- A space is skipped. -/
theorem skipBlank_space : skipBlank (' ' :: cs) = skipBlank cs :=
  List.dropWhile_cons_of_pos rfl

/-- An indent is skipped, and nothing behind it. -/
theorem skipBlank_indent (h : BeginsSolid cs) (n : ℕ) :
    skipBlank (List.replicate n ' ' ++ cs) = cs := by
  induction n with
  | zero => exact h.skipBlank
  | succ n ih => exact skipBlank_space.trans ih

/-- Behind an indent nothing more is skipped. -/
theorem skipLines_indent (h : BeginsSolid cs) (fuel n : ℕ) :
    skipLines fuel (List.replicate n ' ' ++ cs) = cs := by
  have hblank := skipBlank_indent h n
  cases fuel with
  | zero => exact hblank
  | succ fuel => rw [skipLines, hblank, h.skipComment, h.readBreak?]

/-- Neither blanks nor lines are skipped of a text with a solid beginning. -/
theorem BeginsSolid.skipLines (h : BeginsSolid cs) (fuel : ℕ) : skipLines fuel cs = cs :=
  skipLines_indent h fuel 0

/-- A line break is skipped as a line of its own. -/
theorem skipLines_break : skipLines (fuel + 1) ('\n' :: cs) = skipLines fuel cs := rfl

/-- Tokens begin solidly. -/
theorem isSolid_of_isTokenChar (h : isTokenChar c = true) : isSolid c = true := by
  by_contra hsolid
  simp only [isSolid, List.contains_cons, List.contains_nil, Bool.or_false, Bool.not_eq_true',
    Bool.not_eq_false, Bool.or_eq_true, beq_iff_eq] at hsolid
  rcases hsolid with rfl | rfl | rfl | rfl | rfl
  all_goals simp [isTokenChar, Char.isAlphanum] at h

/-- A character of a token opens no string, list or inline table. -/
theorem readValue?_token (h : isTokenChar c = true) :
    readValue? (fuel + 1) depth (c :: cs) = readToken? (c :: cs) := by
  have hne : ∀ d, isTokenChar d = false → c ≠ d := by
    rintro d hd rfl
    simp [h] at hd
  rw [readValue?]
  · exact fun _ heq => hne '\x22' rfl (List.cons.inj heq).1
  · exact fun _ heq => hne '\x27' rfl (List.cons.inj heq).1
  · exact fun _ heq => hne '[' rfl (List.cons.inj heq).1
  · exact fun _ heq => hne '\x7b' rfl (List.cons.inj heq).1

/-- A string is written with one of the two marks in front. -/
theorem exists_writeString (s : String) :
    ∃ c cs, (c = '\x22' ∨ c = '\x27') ∧ writeString s = c :: cs := by
  unfold writeString
  dsimp only
  split
  · exact ⟨_, _, .inl rfl, rfl⟩
  · exact ⟨_, _, .inr rfl, rfl⟩
  · exact ⟨_, _, .inl rfl, rfl⟩
  · exact ⟨_, _, .inr rfl, rfl⟩

/-- A written string begins solidly, so that nothing of it is skipped. -/
theorem beginsSolid_writeString (s : String) : BeginsSolid (writeString s) := by
  obtain ⟨c, cs, hc, htext⟩ := exists_writeString s
  refine ⟨c, cs, htext, ?_⟩
  rcases hc with rfl | rfl <;> rfl

/-- A string is read back as a value. -/
theorem readValue?_writeString (s : String)
    (hrest : rest.head? ≠ some '\x22' ∧ rest.head? ≠ some '\x27') :
    readValue? (fuel + 1) depth (writeString s ++ rest) = some (.string s, rest) := by
  have hread := readString?_writeString s hrest
  obtain ⟨c, cs, hc, htext⟩ := exists_writeString s
  rw [htext] at hread ⊢
  rcases hc with rfl | rfl
  · rw [List.cons_append] at hread ⊢
    rw [readValue?, hread]
    simp
  · rw [List.cons_append] at hread ⊢
    rw [readValue?, hread]
    simp

/-- The line of a string in a list of several. -/
def itemLine (s : String) : List Char := List.replicate 4 ' ' ++ writeString s ++ [',', '\n']

/-- At a closing bracket the list ends. -/
theorem readItems?_close (h : skipLines cs.length cs = ']' :: rest) :
    readItems? (fuel + 1) depth cs = some ([], rest) := by
  rw [readItems?, h]
  rfl

/-- What is read after an item: the closing bracket, or a comma and further items. -/
def readAfter? (fuel depth : ℕ) (item : Value) : List Char → Option (List Value × List Char)
  | ']' :: rest => some ([item], rest)
  | ',' :: cs => do
    let (items, rest) ← readItems? fuel depth cs
    return (item :: items, rest)
  | _ => none

/-- An item of a list is read back, and the reading goes on behind it. -/
theorem readItems?_item (h : skipLines cs.length cs = writeString s ++ rest)
    (hrest : rest.head? ≠ some '\x22' ∧ rest.head? ≠ some '\x27') (hsolid : BeginsSolid rest) :
    readItems? (fuel + 2) depth cs = readAfter? (fuel + 1) depth (.string s) rest := by
  have hvalue : readValue? (fuel + 1) depth (writeString s ++ rest) = some (.string s, rest) :=
    readValue?_writeString s hrest
  obtain ⟨c, text, hc, htext⟩ := exists_writeString s
  have hbracket : c ≠ ']' := by
    rcases hc with rfl | rfl
    all_goals decide
  rw [htext, List.cons_append] at h hvalue
  rw [readItems?, h]
  split
  · rename_i heq
    exact absurd (List.cons.inj heq).1 hbracket
  · rw [hvalue, Option.bind_eq_bind, Option.bind_some]
    dsimp only
    rw [hsolid.skipLines]
    rfl

/-- The lines of a list are read item by item. Behind the comma of an item stand again a line break
and the lines of the rest. -/
theorem readItems?_itemLines (h : items.length < fuel) :
    readItems? fuel depth ('\n' :: (items.flatMap itemLine ++ ']' :: rest)) =
      some (items.map .string, rest) := by
  induction items generalizing fuel with
  | nil =>
    obtain ⟨fuel, rfl⟩ := Nat.exists_eq_add_one.mpr h
    have hsolid : BeginsSolid (']' :: rest) := ⟨_, _, rfl, rfl⟩
    exact readItems?_close (hsolid.skipLines _)
  | cons s items ih =>
    obtain ⟨fuel, rfl⟩ : ∃ k, fuel = k + 2 := Nat.exists_eq_add_of_le' (by simp at h; omega)
    have hnext := @ih (fuel + 1) (by simpa using h)
    set after := '\n' :: (items.flatMap itemLine ++ ']' :: rest) with hafter
    set text := '\n' :: (List.replicate 4 ' ' ++ (writeString s ++ ',' :: after)) with htext
    have hflat : '\n' :: ((s :: items).flatMap itemLine ++ ']' :: rest) = text := by
      simp [itemLine, hafter, htext]
    have hlines : skipLines text.length text = writeString s ++ ',' :: after :=
      skipLines_break.trans (skipLines_indent ((beginsSolid_writeString s).append _) _ 4)
    rw [hflat, readItems?_item hlines (by simp) ⟨_, _, rfl, rfl⟩]
    rw [readAfter?, hnext]
    rfl

/-- A list of one string is written on one line. -/
theorem writeStrings_singleton (s : String) :
    writeStrings [s] = '[' :: (writeString s ++ [']']) := rfl

/-- A longer list is written with a line for each of its strings. -/
theorem writeStrings_of_two_le (h : 2 ≤ items.length) :
    writeStrings items = '[' :: '\n' :: (items.flatMap itemLine ++ [']']) := by
  unfold writeStrings
  split
  · simp at h
  · simp at h
  · rfl

/-- A list of strings is written as an opening bracket and items up to the closing one. -/
theorem readItems?_writeStrings (depth : ℕ) (items : List String) (rest : List Char)
    (h : items.length + 1 < fuel) :
    ∃ cs, writeStrings items = '[' :: cs ∧
      readItems? fuel depth (cs ++ rest) = some (items.map .string, rest) := by
  obtain ⟨fuel, rfl⟩ : ∃ k, fuel = k + 2 := Nat.exists_eq_add_of_le' (by omega)
  have hclose : BeginsSolid (']' :: rest) := ⟨_, _, rfl, rfl⟩
  match items with
  | [] => exact ⟨[']'], rfl, readItems?_close (hclose.skipLines _)⟩
  | [s] =>
    refine ⟨_, writeStrings_singleton s, ?_⟩
    rw [List.append_assoc]
    exact readItems?_item (((beginsSolid_writeString s).append _).skipLines _) (by simp) hclose
  | s :: t :: items =>
    refine ⟨_, writeStrings_of_two_le (by simp), ?_⟩
    rw [List.cons_append, List.append_assoc]
    exact readItems?_itemLines (Nat.lt_of_succ_lt h)

/-- A list of strings is read back as a value, given fuel for its items. -/
theorem readValue?_writeStrings (items : List String) (rest : List Char)
    (h : items.length + 2 < fuel) :
    readValue? fuel (depth + 1) (writeStrings items ++ rest) =
      some (.array (items.map .string), rest) := by
  obtain ⟨fuel, rfl⟩ := Nat.exists_eq_add_one.mpr (Nat.zero_lt_of_lt h)
  obtain ⟨cs, htext, hitems⟩ :=
    readItems?_writeStrings depth items rest (Nat.lt_of_succ_lt_succ h)
  rw [htext, List.cons_append, readValue?, hitems]
  rfl

/-- A list takes at least two characters more than it has items. -/
theorem length_lt_writeStrings (items : List String) :
    items.length + 1 < (writeStrings items).length := by
  have hitem : ∀ s, 1 ≤ (writeString s).length := by
    intro s
    obtain ⟨c, cs, -, htext⟩ := exists_writeString s
    simp [htext]
  have hlines : ∀ items : List String, items.length ≤ (items.flatMap itemLine).length := by
    intro items
    induction items with
    | nil => exact Nat.le_refl 0
    | cons s items ih =>
      simp [itemLine] at ih ⊢
      omega
  match items with
  | [] => decide
  | [s] =>
    have := hitem s
    simp [writeStrings_singleton]
    omega
  | s :: t :: items =>
    have := hlines (s :: t :: items)
    rw [writeStrings_of_two_le (by simp)]
    simp only [List.length_cons, List.length_append, List.length_nil] at this ⊢
    omega

/-- A text that is read as a value at the end of a line. Each level of a value takes at least
one character, so twice the length of the text is fuel enough. -/
structure StandsFor (text : List Char) (value : Value) : Prop where
  beginsSolid : BeginsSolid text
  readValue? : ∀ fuel rest, 2 * text.length ≤ fuel →
    readValue? fuel depthLimit (text ++ '\n' :: rest) = some (value, '\n' :: rest)

/-- The text of a string stands for it. -/
theorem standsFor_writeString (s : String) : StandsFor (writeString s) (.string s) := by
  refine ⟨beginsSolid_writeString s, fun fuel rest hfuel => ?_⟩
  obtain ⟨c, cs, -, htext⟩ := exists_writeString s
  obtain ⟨fuel, rfl⟩ : ∃ k, fuel = k + 1 :=
    Nat.exists_eq_add_of_le' (by simp [htext] at hfuel; omega)
  exact readValue?_writeString s (by simp)

/-- The text of a list of strings stands for it. -/
theorem standsFor_writeStrings (items : List String) :
    StandsFor (writeStrings items) (.array (items.map .string)) := by
  refine ⟨?_, fun fuel rest hfuel => ?_⟩
  · obtain ⟨cs, htext, -⟩ := readItems?_writeStrings 0 items [] (Nat.lt_succ_self _)
    exact ⟨_, _, htext, rfl⟩
  · have := length_lt_writeStrings items
    exact readValue?_writeStrings items _ (by omega)

/-- A token stands for the value that it is read as wherever it ends. -/
theorem standsFor_token {token : List Char} (hne : token ≠ [])
    (hchars : ∀ c ∈ token, isTokenChar c = true)
    (hread : ∀ rest, EndsToken rest → readToken? (token ++ rest) = some (value, rest)) :
    StandsFor token value := by
  obtain ⟨c, cs, rfl⟩ := List.exists_cons_of_ne_nil hne
  have hc := hchars c List.mem_cons_self
  refine ⟨⟨c, cs, rfl, isSolid_of_isTokenChar hc⟩, fun fuel rest hfuel => ?_⟩
  obtain ⟨fuel, rfl⟩ : ∃ k, fuel = k + 1 := Nat.exists_eq_add_of_le' (by simp at hfuel; omega)
  rw [← hread _ (by rintro c ⟨⟩; rfl)]
  exact readValue?_token hc

/-- The digits of a number stand for it, within the range of integers. -/
theorem standsFor_digits (h : n < 2 ^ 63) : StandsFor (digits n) (.integer n) :=
  standsFor_token (digits_ne_nil n) (fun _ => (isNumeral_digits n).isTokenChar)
    fun _ => readToken?_digits h

/-- The text of a number with a point stands for that number to the last bit. -/
theorem standsFor_writeFloat {negative : Bool} {mantissa : ℕ} {exponent : ℤ}
    (h : (mantissa = 0 ∧ exponent = 0) ∨ BinaryFormat.double.IsNormal mantissa exponent) :
    StandsFor (writeFloat (.finite negative mantissa exponent))
      (.float (.finite negative mantissa exponent)) := by
  obtain ⟨whole, places, hpointed, htext⟩ := writeFloat_eq_pointed negative mantissa exponent
  refine standsFor_token ?_ ?_ fun rest => readToken?_writeFloat h
  · simp [htext, pointed]
  · intro c hc
    rw [htext] at hc
    exact (isNumeral_pointed hpointed).isTokenChar hc

/-- The text of a truth value stands for it. -/
theorem standsFor_boolean (b : Bool) :
    StandsFor (if b then "true".toList else "false".toList) (.boolean b) := by
  refine standsFor_token ?_ (isTokenChar_boolean b) fun rest => readToken?_boolean b
  cases b <;> decide

end Daybook.Toml
