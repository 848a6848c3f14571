import Daybook.Proofs.Text.Blanking
import Daybook.Proofs.Text.LetterCase
import Mathlib

/-!
# Texts as bytes

In the UTF-8 form of a text, the bytes of ASCII characters stand for these characters and
nothing else, and the first byte of a character is told from its other bytes. A search for the
bytes of a term therefore finds it where a search for its characters does: never in the middle
of a character, and with the same letters and digits beside it.
-/

namespace Daybook.Text

variable {cs needle front part back : List Char} {c : Char} {b : UInt8} {span : Span}

/-- The UTF-8 form of a text. -/
def utf8 (cs : List Char) : List UInt8 := cs.flatMap String.utf8EncodeChar

/-- The empty text has no bytes. -/
@[simp] theorem utf8_nil : utf8 [] = [] := rfl

/-- The bytes of a text are those of its characters, one after the other. -/
@[simp] theorem utf8_cons (c : Char) (cs : List Char) :
    utf8 (c :: cs) = String.utf8EncodeChar c ++ utf8 cs := rfl

/-- The bytes of two parts of a text come one after the other. -/
@[simp] theorem utf8_append (front back : List Char) :
    utf8 (front ++ back) = utf8 front ++ utf8 back := List.flatMap_append

/-- The positions of a text count its bytes. -/
@[simp] theorem length_utf8 (cs : List Char) : (utf8 cs).length = byteLength cs := by
  induction cs with
  | nil => rfl
  | cons c cs ih => rw [utf8_cons, List.length_append, String.length_utf8EncodeChar, ih,
      byteLength_cons]

/-- A text begins with another one in bytes if it does so in characters. -/
theorem utf8_prefix_iff : utf8 needle <+: utf8 cs ↔ needle <+: cs := by
  constructor
  · rintro ⟨rest, hrest⟩
    refine List.isPrefix_of_utf8Encode_append_eq_utf8Encode rest.toByteArray ?_
    rw [List.utf8Encode, List.utf8Encode, ← List.toByteArray_append]
    exact congrArg List.toByteArray hrest
  · rintro ⟨back, rfl⟩
    exact ⟨utf8 back, (utf8_append _ _).symm⟩

/-- A position at which characters end or begin: the bytes before it are the UTF-8 form of a
text. -/
def IsBoundary (cs : List Char) (n : ℕ) : Prop := (String.Pos.Raw.mk n).IsValid (String.ofList cs)

/-- A position is the end of a character, or the beginning of the text, if a front of the text has
so many bytes. -/
theorem isBoundary_iff {n : ℕ} :
    IsBoundary cs n ↔ ∃ front back, cs = front ++ back ∧ n = byteLength front := by
  have hsize : ∀ front, (String.ofList front).utf8ByteSize = byteLength front := by
    intro front
    rw [← length_utf8, ← String.size_toByteArray, String.toByteArray_ofList, List.utf8Encode,
      List.size_toByteArray]
    rfl
  rw [IsBoundary, String.Pos.Raw.isValid_ofList]
  constructor
  · rintro ⟨i, hi⟩
    exact ⟨cs.take i, cs.drop i, (List.take_append_drop i cs).symm, hi.trans (hsize _)⟩
  · rintro ⟨front, back, rfl, rfl⟩
    exact ⟨front.length, by rw [List.take_left, hsize]⟩

/-- Where a text can be cut at a position, the parts make up the text, and the first one has so many
bytes. -/
theorem eq_append_of_splitAtByte {n : ℕ} (h : splitAtByte n cs = .ok (front, back)) :
    cs = front ++ back ∧ n = byteLength front := by
  induction cs generalizing n front with
  | nil =>
    rw [splitAtByte] at h
    split at h
    · cases h
      exact ⟨rfl, ‹n = 0›⟩
    · cases h
  | cons c cs ih =>
    rw [splitAtByte] at h
    split at h
    · cases h
      exact ⟨rfl, ‹n = 0›⟩
    · split at h
      · cases h
      · cases hrest : splitAtByte (n - c.utf8Size) cs with
        | error fault => rw [hrest] at h; cases h
        | ok parts =>
          rw [hrest] at h
          cases h
          obtain ⟨hcs, hn⟩ := ih hrest
          refine ⟨congrArg (c :: ·) hcs, ?_⟩
          rw [byteLength_cons]
          omega

/-- A text can be cut where characters end or begin, and nowhere else. -/
theorem exists_splitAtByte_iff {n : ℕ} :
    (∃ parts, splitAtByte n cs = .ok parts) ↔ IsBoundary cs n := by
  rw [isBoundary_iff]
  constructor
  · rintro ⟨⟨front, back⟩, h⟩
    exact ⟨front, back, eq_append_of_splitAtByte h⟩
  · rintro ⟨front, back, rfl, rfl⟩
    exact ⟨_, splitAtByte_byteLength front back⟩

/-- A span stands in the text if it is not empty and its ends are ends of characters. -/
theorem Span.standsIn_iff : span.StandsIn cs ↔
    span.start < span.stop ∧ IsBoundary cs span.start ∧ IsBoundary cs span.stop := by
  constructor
  · intro h
    refine ⟨h.lt, ?_⟩
    obtain ⟨front, part, back, rfl, -, hstart, hstop⟩ := h
    exact ⟨isBoundary_iff.mpr ⟨front, part ++ back, List.append_assoc _ _ _, hstart⟩,
      isBoundary_iff.mpr ⟨front ++ part, back, rfl, hstop⟩⟩
  · rintro ⟨hlt, hstart, hstop⟩
    obtain ⟨front, rest, rfl, hfront⟩ := isBoundary_iff.mp hstart
    obtain ⟨front', back, hsplit, hfront'⟩ := isBoundary_iff.mp hstop
    obtain ⟨part, rfl, rfl⟩ := exists_of_byteLength_le hsplit (by omega)
    refine ⟨front, part, back, (List.append_assoc _ _ _).symm, ?_, hfront, hfront'⟩
    rintro rfl
    rw [List.append_nil] at hfront'
    omega

/-- Only the first byte of a character looks like one. -/
theorem utf8EncodeChar_eq_cons (c : Char) : ∃ first rest,
    String.utf8EncodeChar c = first :: rest ∧ first.IsUTF8FirstByte ∧
      (∀ b ∈ rest, ¬b.IsUTF8FirstByte) ∧ rest.length + 1 = c.utf8Size := by
  obtain ⟨first, rest, hbytes⟩ := List.exists_cons_of_ne_nil (String.utf8EncodeChar_ne_nil (c := c))
  have hbyte : ∀ (i : ℕ) (hi : i < (first :: rest).length),
      (first :: rest)[i].IsUTF8FirstByte ↔ i = 0 := by
    intro i hi
    simp only [← hbytes] at hi ⊢
    exact UInt8.isUTF8FirstByte_getElem_utf8EncodeChar
  refine ⟨first, rest, hbytes, (hbyte 0 (by simp)).mpr rfl, fun b hb hfirst => ?_, ?_⟩
  · obtain ⟨i, hi, rfl⟩ := List.getElem_of_mem hb
    exact Nat.succ_ne_zero i ((hbyte (i + 1) (by simpa using hi)).mp hfirst)
  · rw [← String.length_utf8EncodeChar, hbytes, List.length_cons]

/-- A character is one byte, its code, or has no byte below 128. -/
theorem utf8EncodeChar_cases (c : Char) :
    (c.toNat < 128 ∧ String.utf8EncodeChar c = [UInt8.ofNat c.toNat]) ∨
      128 ≤ c.toNat ∧ ∀ b ∈ String.utf8EncodeChar c, 128 ≤ b.toNat := by
  by_cases hascii : c.toNat < 128
  · refine .inl ⟨hascii, ?_⟩
    unfold String.utf8EncodeChar
    exact if_pos (Nat.le_of_lt_succ hascii)
  · refine .inr ⟨Nat.le_of_not_lt hascii, ?_⟩
    have hlarge : ¬c.val.toNat ≤ 127 := fun h => hascii (Nat.lt_succ_of_le h)
    unfold String.utf8EncodeChar
    simp only [hlarge, if_false]
    split_ifs <;>
      simp only [List.forall_mem_cons, UInt8.toNat_ofNat', List.not_mem_nil, false_imp_iff,
        implies_true, and_true] <;> omega

/-- A test of bytes that is passed by the codes of the characters that pass a test, all of which
are ASCII characters, and by no byte that is no such code. -/
structure Spots (test : UInt8 → Bool) (passes : Char → Bool) : Prop where
  ascii : ∀ c : Char, c.toNat < 128 → test (UInt8.ofNat c.toNat) = passes c
  others : ∀ c : Char, 128 ≤ c.toNat → passes c = false
  other_bytes : ∀ b : UInt8, 128 ≤ b.toNat → test b = false

section Spots

variable {test : UInt8 → Bool} {passes : Char → Bool} (h : Spots test passes)
include h

/-- The test sees a character in any of its bytes, in all of them, in the first and in the
last. -/
theorem Spots.char (c : Char) : (String.utf8EncodeChar c).any test = passes c ∧
    (String.utf8EncodeChar c).all test = passes c ∧
    (String.utf8EncodeChar c).head?.any test = passes c ∧
    (String.utf8EncodeChar c).getLast?.any test = passes c := by
  rcases utf8EncodeChar_cases c with ⟨hascii, hbytes⟩ | ⟨hlarge, hbytes⟩
  · simp [hbytes, h.ascii c hascii]
  · have htest : ∀ b ∈ String.utf8EncodeChar c, test b = false :=
      fun b hb => h.other_bytes b (hbytes b hb)
    have hhead := String.utf8EncodeChar_ne_nil (c := c)
    rw [h.others c hlarge]
    refine ⟨List.any_eq_false.mpr fun b hb => by simp [htest b hb], ?_, ?_, ?_⟩
    · rw [List.all_eq_false]
      exact ⟨_, List.head_mem hhead, by simp [htest _ (List.head_mem hhead)]⟩
    · rw [List.head?_eq_some_head hhead, Option.any_some, htest _ (List.head_mem hhead)]
    · rw [List.getLast?_eq_some_getLast hhead, Option.any_some, htest _ (List.getLast_mem hhead)]

/-- Some byte passes the test if some character does. -/
theorem Spots.any_utf8 (cs : List Char) : (utf8 cs).any test = cs.any passes := by
  induction cs with
  | nil => rfl
  | cons c cs ih => rw [utf8_cons, List.any_append, ih, (h.char c).1, List.any_cons]

/-- All bytes pass it if all characters do. -/
theorem Spots.all_utf8 (cs : List Char) : (utf8 cs).all test = cs.all passes := by
  induction cs with
  | nil => rfl
  | cons c cs ih => rw [utf8_cons, List.all_append, ih, (h.char c).2.1, List.all_cons]

/-- The first byte passes it if the first character does. -/
theorem Spots.head?_utf8 (cs : List Char) : (utf8 cs).head?.any test = cs.head?.any passes := by
  cases cs with
  | nil => rfl
  | cons c cs =>
    rw [utf8_cons, List.head?_append_of_ne_nil _ String.utf8EncodeChar_ne_nil, (h.char c).2.2.1]
    rfl

/-- The last byte passes it if the last character does. -/
theorem Spots.getLast?_utf8 (cs : List Char) :
    (utf8 cs).getLast?.any test = cs.getLast?.any passes := by
  rcases List.eq_nil_or_concat cs with rfl | ⟨front, c, rfl⟩
  · rfl
  · rw [List.concat_eq_append, utf8_append, utf8_cons, utf8_nil, List.append_nil,
      List.getLast?_append_of_ne_nil _ String.utf8EncodeChar_ne_nil, (h.char c).2.2.2,
      List.getLast?_concat]
    rfl

/-- The characters that pass the test at the front of a text are the bytes that do. -/
theorem Spots.takeWhile_utf8 (cs : List Char) :
    (utf8 cs).takeWhile test = utf8 (cs.takeWhile passes) := by
  induction cs with
  | nil => rfl
  | cons c cs ih =>
    obtain ⟨-, hall, hhead, -⟩ := h.char c
    by_cases hc : passes c = true
    · rw [hc, List.all_eq_true] at hall
      rw [utf8_cons, List.takeWhile_append_of_pos hall, ih, List.takeWhile_cons_of_pos hc,
        utf8_cons]
    · obtain ⟨first, rest, hbytes⟩ :=
        List.exists_cons_of_ne_nil (String.utf8EncodeChar_ne_nil (c := c))
      have hfirst : test first = passes c := by rwa [hbytes] at hhead
      rw [List.takeWhile_cons_of_neg hc, utf8_cons, hbytes, List.cons_append,
        List.takeWhile_cons_of_neg (by rwa [hfirst])]
      rfl

/-- The first byte of a text passes the test if its first character does, and the other bytes of
this character do not. -/
theorem Spots.of_utf8_eq_cons {bytes : List UInt8} (hbytes : utf8 cs = b :: bytes) :
    ∃ c cs' rest, cs = c :: cs' ∧ bytes = rest ++ utf8 cs' ∧ test b = passes c ∧
      ∀ b ∈ rest, test b = false := by
  cases cs with
  | nil => cases hbytes
  | cons c cs =>
    obtain ⟨first, rest, hchar, -⟩ := utf8EncodeChar_eq_cons c
    rw [utf8_cons, hchar, List.cons_append] at hbytes
    obtain ⟨rfl, rfl⟩ := List.cons.inj hbytes
    have hfirst := (h.char c).2.2.1
    rw [hchar] at hfirst
    refine ⟨c, cs, rest, rfl, rfl, hfirst, fun b hb => ?_⟩
    rcases utf8EncodeChar_cases c with ⟨-, hone⟩ | ⟨-, hlarge⟩
    · rw [hchar] at hone
      rw [(List.cons.inj hone).2] at hb
      cases hb
    · exact h.other_bytes b (hlarge b (hchar ▸ List.mem_cons_of_mem first hb))

/-- Two tests of bytes spot the characters that pass one test or the other. -/
theorem Spots.or {test' : UInt8 → Bool} {passes' : Char → Bool} (h' : Spots test' passes') :
    Spots (fun b => test b || test' b) fun c => passes c || passes' c where
  ascii c hc := by rw [h.ascii c hc, h'.ascii c hc]
  others c hc := by rw [h.others c hc, h'.others c hc, Bool.or_false]
  other_bytes b hb := by rw [h.other_bytes b hb, h'.other_bytes b hb, Bool.or_false]

end Spots

/-- Bytes of a range below 128 spot the characters with codes of the range. -/
theorem spots_range {low high : UInt8} {passes : Char → Bool} (hhigh : high.toNat < 128)
    (h : ∀ c : Char, passes c = true ↔ low.toNat ≤ c.toNat ∧ c.toNat ≤ high.toNat) :
    Spots (fun b => low ≤ b && b ≤ high) passes where
  ascii c hc := by
    rw [Bool.eq_iff_iff, h c]
    simp only [Bool.and_eq_true, decide_eq_true_eq, UInt8.le_iff_toNat_le, UInt8.toNat_ofNat',
      Nat.mod_eq_of_lt (show c.toNat < 2 ^ 8 by omega)]
  others c hc := by
    rw [← Bool.not_eq_true, h c]
    omega
  other_bytes b hb := by
    simp only [UInt8.le_iff_toNat_le, Bool.and_eq_false_iff, decide_eq_false_iff_not]
    omega

/-- The code of an ASCII character spots it. -/
theorem spots_mark (mark : Char) (hmark : mark.toNat < 128) :
    Spots (· == UInt8.ofNat mark.toNat) (· == mark) where
  ascii c hc := by
    rw [Bool.eq_iff_iff, beq_iff_eq, beq_iff_eq, ← UInt8.toNat_inj, ← Char.toNat_inj,
      UInt8.toNat_ofNat', UInt8.toNat_ofNat']
    omega
  others c hc := by
    rw [beq_eq_false_iff_ne]
    rintro rfl
    omega
  other_bytes b hb := by
    rw [beq_eq_false_iff_ne]
    rintro rfl
    rw [UInt8.toNat_ofNat'] at hb
    omega

/-- Whether a byte is an upper-case ASCII letter. -/
def isUpperByte (b : UInt8) : Bool := 65 ≤ b && b ≤ 90

/-- Whether a byte is an ASCII letter. -/
def isLetterByte (b : UInt8) : Bool := isUpperByte b || (97 ≤ b && b ≤ 122)

/-- Whether a byte is an ASCII letter or digit. -/
def isAlnumByte (b : UInt8) : Bool :=
  (65 ≤ b && b ≤ 90) || (97 ≤ b && b ≤ 122) || (48 ≤ b && b ≤ 57)

/-- Whether a byte may stand in an ASCII word: a letter, a digit, a space, an apostrophe or a
hyphen. -/
def isWordByte (b : UInt8) : Bool := isAlnumByte b || b == 32 || b == 39 || b == 45

/-- The byte of an ASCII letter in lower case, and any other byte as it is. -/
def lowerByte (b : UInt8) : UInt8 := if 65 ≤ b && b ≤ 90 then b + 32 else b

/-- Upper-case letters are told from all other characters by their bytes. -/
theorem spots_isUpper : Spots isUpperByte Char.isUpper :=
  spots_range (by decide) fun c => by simp [Char.isUpper, UInt32.le_iff_toNat_le]

/-- Lower-case letters are told from all other characters by their bytes. -/
theorem spots_isLower : Spots (fun b => 97 ≤ b && b ≤ 122) Char.isLower :=
  spots_range (by decide) fun c => by simp [Char.isLower, UInt32.le_iff_toNat_le]

/-- Digits are told from all other characters by their bytes. -/
theorem spots_isDigit : Spots (fun b => 48 ≤ b && b ≤ 57) Char.isDigit :=
  spots_range (by decide) fun c => by simp [Char.isDigit, UInt32.le_iff_toNat_le]

/-- Letters of either case are told from all other characters by their bytes. -/
theorem spots_isAlpha : Spots isLetterByte Char.isAlpha := spots_isUpper.or spots_isLower

/-- Letters and digits are told from all other characters by their bytes. -/
theorem spots_isAlphanum : Spots isAlnumByte Char.isAlphanum := spots_isAlpha.or spots_isDigit

/-- The characters of ASCII words are told from all others by their bytes. -/
theorem spots_wordCharacter : Spots isWordByte
    fun c => c.isAlphanum || c == ' ' || c == '\x27' || c == '-' :=
  ((spots_isAlphanum.or (spots_mark ' ' (by decide))).or (spots_mark '\x27' (by decide))).or
    (spots_mark '-' (by decide))

/-- The code of a letter in lower case lies 32 above that in upper case. -/
theorem toNat_toLower (c : Char) :
    c.toLower.toNat = if 65 ≤ c.toNat ∧ c.toNat ≤ 90 then c.toNat + 32 else c.toNat := by
  rcases toLower_cases c with hsame | ⟨hupper, hlower⟩
  · have hnot := Char.isUpper_toLower_eq_false (c := c)
    rw [hsame] at hnot ⊢
    rw [if_neg]
    simpa [Char.isUpper, UInt32.le_iff_toNat_le] using hnot
  · rw [if_pos hupper, hlower]

/-- A byte is changed in the same way. -/
theorem toNat_lowerByte (b : UInt8) :
    (lowerByte b).toNat = if 65 ≤ b.toNat ∧ b.toNat ≤ 90 then b.toNat + 32 else b.toNat := by
  simp only [lowerByte, Bool.and_eq_true, decide_eq_true_eq, UInt8.le_iff_toNat_le]
  change (if 65 ≤ b.toNat ∧ b.toNat ≤ 90 then b + 32 else b).toNat = _
  split
  · rw [UInt8.toNat_add]
    change (b.toNat + 32) % 256 = _
    omega
  · rfl

/-- A character in lower case has its bytes in lower case. -/
theorem utf8EncodeChar_toLower (c : Char) :
    String.utf8EncodeChar c.toLower = (String.utf8EncodeChar c).map lowerByte := by
  have hcode := toNat_toLower c
  rcases utf8EncodeChar_cases c with ⟨hascii, hbytes⟩ | ⟨hlarge, hbytes⟩
  · have hlower : c.toLower.toNat < 128 := by
      rw [hcode]
      split <;> omega
    have hbyte : UInt8.ofNat c.toLower.toNat = lowerByte (UInt8.ofNat c.toNat) := by
      rw [← UInt8.toNat_inj, toNat_lowerByte, UInt8.toNat_ofNat', UInt8.toNat_ofNat', hcode]
      split_ifs <;> omega
    rcases utf8EncodeChar_cases c.toLower with ⟨-, hbytes'⟩ | ⟨hlarge', -⟩
    · rw [hbytes, hbytes', List.map_singleton, hbyte]
    · omega
  · have hlower : c.toLower = c := (toLower_cases c).resolve_right (by omega)
    rw [hlower]
    refine ((List.map_congr_left fun b hb => ?_).trans (List.map_id _)).symm
    rw [← UInt8.toNat_inj, toNat_lowerByte, if_neg (by have := hbytes b hb; omega), id]

/-- Lowering a text byte by byte is lowering it character by character. -/
theorem utf8_lower (cs : List Char) : utf8 (lower cs) = (utf8 cs).map lowerByte := by
  induction cs with
  | nil => rfl
  | cons c cs ih => rw [lower_cons, utf8_cons, utf8_cons, List.map_append, ih,
      utf8EncodeChar_toLower]

end Daybook.Text
