import Daybook.Proofs.Text.Bytes
import Daybook.Proofs.Text.Clearing

/-!
# Terms among the bytes of a text

A scan of the bytes of a text for the bytes of a term goes on behind each place where it finds
them, and byte by byte elsewhere. It stops at the first byte of a character whenever it compares
anything that can be equal, so that it finds what a scan of the characters finds. All positions
that it gives are ends of characters.
-/

namespace Daybook.Text

/-- The spans of a needle in some bytes from left to right, none overlapping the one before it.
The first `skip` bytes belong to the last span; `offset` is the position of the bytes. -/
def byteSpansFrom (needle : List UInt8) (skip offset : Nat) : List UInt8 → List Span
  | [] => []
  | b :: bytes =>
    match skip with
    | k + 1 => byteSpansFrom needle k (offset + 1) bytes
    | 0 =>
      if needle.isPrefixOf (b :: bytes) then
        ⟨offset, offset + needle.length⟩ ::
          byteSpansFrom needle (needle.length - 1) (offset + 1) bytes
      else byteSpansFrom needle 0 (offset + 1) bytes

/-- Whether no ASCII letter or digit touches a span of some bytes. -/
def isApart (bytes : List UInt8) (span : Span) : Bool :=
  !(bytes.take span.start).getLast?.any isAlnumByte && !bytes[span.stop]?.any isAlnumByte

/-- The byte spans of a term in a text, both given by their bytes. -/
def byteSpans (text term : List UInt8) : List Span :=
  let lowered := text.map lowerByte
  let needle := term.map lowerByte
  let isWord := needle.any isAlnumByte && needle.all isWordByte
  if needle.isEmpty then []
  else (byteSpansFrom needle 0 0 lowered).filter fun span => !isWord || isApart lowered span

section Scan

variable {needle bytes rest : List UInt8} {first : UInt8} {skip offset : Nat}

/-- The bytes that belong to the last span are passed over. -/
theorem byteSpansFrom_append_of_le (h : bytes.length ≤ skip) :
    byteSpansFrom needle skip offset (bytes ++ rest) =
      byteSpansFrom needle (skip - bytes.length) (offset + bytes.length) rest := by
  induction bytes generalizing skip offset with
  | nil => rfl
  | cons b bytes ih =>
    cases skip with
    | zero => simp at h
    | succ skip =>
      rw [List.cons_append, byteSpansFrom, ih (Nat.le_of_succ_le_succ h), List.length_cons,
        Nat.succ_sub_succ, Nat.add_assoc, Nat.add_comm 1]

/-- A needle that begins with the first byte of a character does not begin at other bytes. -/
theorem byteSpansFrom_append_of_not_first (hfirst : first.IsUTF8FirstByte)
    (h : ∀ b ∈ bytes, ¬b.IsUTF8FirstByte) :
    byteSpansFrom (first :: needle) 0 offset (bytes ++ rest) =
      byteSpansFrom (first :: needle) 0 (offset + bytes.length) rest := by
  induction bytes generalizing offset with
  | nil => rfl
  | cons b bytes ih =>
    obtain ⟨hb, hbytes⟩ := List.forall_mem_cons.mp h
    have hne : (first == b) = false := beq_eq_false_iff_ne.mpr fun heq => hb (heq ▸ hfirst)
    have hnot : (first :: needle).isPrefixOf (b :: (bytes ++ rest)) = false := by
      rw [List.isPrefixOf_cons_cons, hne, Bool.false_and]
    rw [List.cons_append, byteSpansFrom]
    simp only [hnot, Bool.false_eq_true, if_false]
    rw [ih hbytes, List.length_cons, Nat.add_assoc, Nat.add_comm 1]

end Scan

variable {cs needle front part back text term : List Char} {span : Span} {skip offset : Nat}

/-- A needle begins in bytes where it begins in characters. -/
theorem isPrefixOf_utf8 (needle cs : List Char) :
    (utf8 needle).isPrefixOf (utf8 (lower cs)) = beginsWith needle cs := by
  rw [Bool.eq_iff_iff, List.isPrefixOf_iff_prefix, utf8_prefix_iff, beginsWith_iff_isPrefix]

/-- The bytes of a text begin with the first byte of a character. -/
theorem exists_first_utf8 (h : cs ≠ []) :
    ∃ first rest, utf8 cs = first :: rest ∧ first.IsUTF8FirstByte := by
  obtain ⟨c, cs, rfl⟩ := List.exists_cons_of_ne_nil h
  obtain ⟨first, rest, hbytes, hfirst, -, -⟩ := utf8EncodeChar_eq_cons c
  exact ⟨first, rest ++ utf8 cs, by rw [utf8_cons, hbytes, List.cons_append], hfirst⟩

/-- A scan of the bytes finds what a scan of the characters does. Of what it passes over, the first
bytes are the others of the character before. -/
theorem byteSpansFrom_utf8 (hneedle : needle ≠ []) (skip offset : Nat) (before : Option Char)
    (cs : List Char) :
    byteSpansFrom (utf8 needle) (byteLength (cs.take skip)) offset (utf8 (lower cs)) =
      (occurrencesFrom needle skip offset before cs).map (·.span) := by
  obtain ⟨start, others, hstart, hfirst⟩ := exists_first_utf8 hneedle
  induction cs generalizing skip offset before with
  | nil => rfl
  | cons c cs ih =>
    have hgo := fun skip => ih skip (offset + c.utf8Size) (some c)
    cases skip with
    | succ skip =>
      have hlength : (String.utf8EncodeChar c.toLower).length = c.utf8Size := by
        rw [String.length_utf8EncodeChar, utf8Size_toLower]
      rw [lower_cons, utf8_cons, List.take_succ_cons, byteLength_cons,
        byteSpansFrom_append_of_le (by omega), hlength, Nat.add_sub_cancel_left, hgo]
      rfl
    | zero =>
      obtain ⟨first, rest, hbytes, -, hrest, hsize⟩ := utf8EncodeChar_eq_cons c.toLower
      rw [utf8Size_toLower] at hsize
      have hsum : offset + 1 + rest.length = offset + c.utf8Size := by omega
      have hbegins := isPrefixOf_utf8 needle (c :: cs)
      rw [lower_cons, utf8_cons, hbytes, List.cons_append] at hbegins ⊢
      unfold occurrencesFrom byteSpansFrom
      dsimp only [List.take_zero, byteLength_nil]
      rw [hbegins]
      split
      · rename_i hmatch
        have htake := byteLength_take_of_beginsWith hmatch hneedle
        rw [List.map_cons, ← hgo, length_utf8, byteSpansFrom_append_of_le (by omega), hsum]
        congr 2
        omega
      · rw [← hgo, hstart, byteSpansFrom_append_of_not_first hfirst hrest, hsum]
        rfl

/-- A place among the characters is apart among the bytes if it is isolated. -/
theorem isApart_between (front part back : List Char) :
    isApart (utf8 (front ++ part ++ back)) (Occurrence.between front part back).span =
      (Occurrence.between front part back).isolated := by
  have hstart : (utf8 (front ++ part ++ back)).take (byteLength front) = utf8 front := by
    rw [List.append_assoc, utf8_append]
    exact List.take_left' (length_utf8 front)
  have hstop : (utf8 (front ++ part ++ back))[byteLength front + byteLength part]? =
      (utf8 back).head? := by
    rw [utf8_append, List.getElem?_append_right (by simp), length_utf8, byteLength_append,
      Nat.sub_self, List.head?_eq_getElem?]
  simp only [isApart, Occurrence.isolated, Occurrence.between, hstart, hstop,
    spots_isAlphanum.head?_utf8, spots_isAlphanum.getLast?_utf8]

/-- Whether letters or digits touch a part of a text is told by the bytes of its lower case, as only
ASCII bytes are looked at. -/
theorem isApart_lower (front part back : List Char) :
    isApart (utf8 (lower (front ++ part ++ back))) (Occurrence.between front part back).span =
      (Occurrence.between front part back).isolated := by
  have hlower : (Occurrence.between front part back).lower =
      .between (lower front) (lower part) (lower back) := by
    simp only [Occurrence.lower, Occurrence.between, byteLength_lower, ← List.getLast?_map,
      ← List.head?_map]
    rfl
  rw [← Occurrence.isolated_lower, hlower, ← isApart_between, ← lower_append, ← lower_append,
    ← hlower]
  rfl

/-- The spans of a term are found by a scan of the bytes. -/
theorem findTerm_eq_byteSpans (text term : List Char) :
    findTerm text term = byteSpans (utf8 text) (utf8 term) := by
  have hword : ((utf8 (lower term)).any isAlnumByte && (utf8 (lower term)).all isWordByte) =
      isAsciiWord (lower term) := by
    rw [spots_isAlphanum.any_utf8, spots_wordCharacter.all_utf8]
    rfl
  unfold findTerm occurrences byteSpans
  simp only [← utf8_lower, hword]
  by_cases hterm : lower term = []
  · simp [hterm]
  · have hbytes : utf8 (lower term) ≠ [] := by
      rw [← List.length_pos_iff, length_utf8]
      exact Nat.pos_of_ne_zero (mt byteLength_eq_zero.mp hterm)
    have hscan : byteSpansFrom (utf8 (lower term)) 0 0 (utf8 (lower text)) =
        (occurrencesFrom (lower term) 0 0 none text).map (·.span) :=
      byteSpansFrom_utf8 hterm 0 0 none text
    rw [if_neg (by simpa using hterm), if_neg (by simpa using hbytes), hscan, List.filter_map]
    refine congrArg (List.map _) (List.filter_congr fun o ho => ?_)
    obtain ⟨front, part, back, htext, -, rfl⟩ := of_mem_occurrencesFrom [] ho
    rw [List.nil_append] at htext
    rw [Function.comp_apply, htext, isApart_lower]

/-- A span is that of a term in a text: it is not empty, its ends are ends of characters, what
stands in it is the term up to ASCII case, character by character and byte by byte, and no ASCII
letter or digit touches it if the term is made of ASCII words. -/
structure Span.Spells (span : Span) (text term : List Char) : Prop where
  lt : span.start < span.stop
  start : IsBoundary text span.start
  stop : IsBoundary text span.stop
  slice : ∃ part, slice span.start span.stop text = .ok part ∧ lower part = lower term
  bytes : (((utf8 text).drop span.start).take (span.stop - span.start)).map lowerByte =
    (utf8 term).map lowerByte
  apart : isAsciiWord term = true → isApart (utf8 text) span = true

/-- Each span of a term that is found is one at which the term stands, with all that this means for
its bytes. -/
theorem spells_of_mem_findTerm (h : span ∈ findTerm text term) : span.Spells text term := by
  have hlt := (standsIn_of_mem_findTerm span h).lt
  obtain ⟨o, ho, rfl⟩ := List.mem_map.mp h
  obtain ⟨front, part, back, rfl, hpart, rfl, hisolated⟩ := of_mem_occurrences ho
  refine ⟨hlt, isBoundary_iff.mpr ⟨front, part ++ back, List.append_assoc _ _ _, rfl⟩,
    isBoundary_iff.mpr ⟨front ++ part, back, rfl, (byteLength_append _ _).symm⟩,
    ⟨part, ?_, hpart⟩, ?_, fun hword => ?_⟩
  · rw [List.append_assoc]
    exact slice_byteLength front part back
  · have hdrop : (utf8 (front ++ part ++ back)).drop (byteLength front) =
        utf8 part ++ utf8 back := by
      rw [List.append_assoc, utf8_append, utf8_append]
      exact List.drop_left' (length_utf8 front)
    simp only [Occurrence.between, hdrop, Nat.add_sub_cancel_left]
    rw [List.take_left' (length_utf8 part), ← utf8_lower, hpart, utf8_lower]
  · rw [isApart_between]
    exact hisolated (by rwa [isAsciiWord_lower])

end Daybook.Text
