import Daybook.Proofs.Text.Bytes
import Daybook.Proofs.Text.Runs

/-!
# Words that look like proper nouns

Among the runs of a text, those count that are capitalized from their first letter on: a run that
begins with a digit or an underscore is read as if it began with the letter behind. So the count
is that of the capitalized runs if and only if no run is capitalized only behind such characters.
A scan of the bytes with two positions, one at which a word begins and one at which it stops, comes
to the same count, and each of its rounds goes on by one byte at least.
-/

namespace Daybook.Text

variable {cs word : List Char} {c : Char} {bytes rest : List UInt8} {b : UInt8} {i count : ℕ}

/-- An upper-case letter with one or more letters behind it, and nothing else. -/
def IsCapitalized (word : List Char) : Prop :=
  ∃ initial rest, word = initial :: rest ∧ initial.isUpper = true ∧ rest ≠ [] ∧
    ∀ c ∈ rest, c.isAlpha = true

/-- Something capitalized behind one or more characters that are no letters. -/
def IsPrefixed (word : List Char) : Prop :=
  ∃ marks noun, word = marks ++ noun ∧ marks ≠ [] ∧ (∀ c ∈ marks, c.isAlpha = false) ∧
    IsCapitalized noun

/-- The part of a word from its first letter on. -/
def fromLetter (word : List Char) : List Char := word.dropWhile (!·.isAlpha)

/-- The test for proper nouns tells what is capitalized. -/
theorem isProperNoun_iff : isProperNoun word = true ↔ IsCapitalized word := by
  constructor
  · intro h
    match word with
    | [] => cases h
    | [_] => cases h
    | initial :: d :: rest =>
      rw [isProperNoun, Bool.and_eq_true, List.all_eq_true] at h
      exact ⟨initial, d :: rest, rfl, h.1, List.cons_ne_nil d rest, h.2⟩
  · rintro ⟨initial, rest, rfl, hupper, hne, hletters⟩
    obtain ⟨d, rest, rfl⟩ := List.exists_cons_of_ne_nil hne
    rw [isProperNoun, hupper, Bool.true_and, List.all_eq_true]
    exact hletters

/-- The test for proper nouns decides what is capitalized. -/
instance : DecidablePred IsCapitalized := fun _ => decidable_of_iff _ isProperNoun_iff

/-- A word that begins with a letter is itself the part from its first letter on. -/
theorem fromLetter_cons_of_isAlpha (hc : c.isAlpha = true) (word : List Char) :
    fromLetter (c :: word) = c :: word :=
  List.dropWhile_cons_of_neg (by simp [hc])

/-- Any other first character is left out of that part. -/
theorem fromLetter_cons_of_not_isAlpha (hc : c.isAlpha = false) (word : List Char) :
    fromLetter (c :: word) = fromLetter word :=
  List.dropWhile_cons_of_pos (by simp [hc])

/-- What is capitalized begins with a letter. -/
theorem IsCapitalized.exists_letter (h : IsCapitalized word) :
    ∃ initial rest, word = initial :: rest ∧ initial.isAlpha = true := by
  obtain ⟨initial, rest, rfl, hupper, -, -⟩ := h
  exact ⟨initial, rest, rfl, by rw [Char.isAlpha, hupper, Bool.true_or]⟩

/-- Nothing is both: what is capitalized begins with a letter. -/
theorem IsCapitalized.not_isPrefixed (h : IsCapitalized word) : ¬IsPrefixed word := by
  rintro ⟨marks, noun, hword, hne, hmarks, -⟩
  obtain ⟨initial, rest, rfl, hletter⟩ := h.exists_letter
  obtain ⟨mark, marks, rfl⟩ := List.exists_cons_of_ne_nil hne
  obtain ⟨rfl, -⟩ := List.cons.inj hword
  rw [hmarks initial List.mem_cons_self] at hletter
  cases hletter

/-- A word that is capitalized from its first letter on is so as a whole, or behind what stands
before that letter. -/
theorem isCapitalized_fromLetter_iff :
    IsCapitalized (fromLetter word) ↔ IsCapitalized word ∨ IsPrefixed word := by
  have hwhole : ∀ noun, IsCapitalized noun → fromLetter noun = noun := by
    intro noun h
    obtain ⟨initial, rest, rfl, hletter⟩ := h.exists_letter
    exact fromLetter_cons_of_isAlpha hletter rest
  constructor
  · intro h
    have hsplit := List.takeWhile_append_dropWhile (p := (!·.isAlpha)) (l := word)
    by_cases hmarks : word.takeWhile (!·.isAlpha) = []
    · rw [hmarks, List.nil_append] at hsplit
      exact .inl (hsplit ▸ h)
    · refine .inr ⟨_, _, hsplit.symm, hmarks, fun c hc => ?_, h⟩
      simpa using List.mem_takeWhile_imp hc
  · rintro (h | ⟨marks, noun, rfl, -, hmarks, h⟩)
    · rwa [hwhole word h]
    · have hnoun : fromLetter (marks ++ noun) = fromLetter noun :=
        List.dropWhile_append_of_pos (by simpa using hmarks)
      rwa [hnoun, hwhole noun h]

/-- The rest of a word is passed over. -/
theorem properNounsFrom_true (cs : List Char) :
    properNounsFrom true cs = countProperNouns (cs.dropWhile continuesWord) := by
  induction cs with
  | nil => rfl
  | cons c cs ih =>
    by_cases hc : continuesWord c = true
    · rw [List.dropWhile_cons_of_pos hc, ← ih, properNounsFrom, hc]
      rfl
    · rw [List.dropWhile_cons_of_neg hc, countProperNouns, properNounsFrom, properNounsFrom]
      simp [hc]

/-- Where no word is read, a character that is no letter is passed over. -/
theorem countProperNouns_cons_of_not_isAlpha (hc : c.isAlpha = false) (cs : List Char) :
    countProperNouns (c :: cs) = countProperNouns cs := by
  simp [countProperNouns, properNounsFrom, hc]

/-- A letter begins a word, which goes on as long as it can. -/
theorem countProperNouns_cons_of_isAlpha (hc : c.isAlpha = true) (cs : List Char) :
    countProperNouns (c :: cs) =
      (if isProperNoun ((c :: cs).takeWhile continuesWord) then 1 else 0) +
        countProperNouns ((c :: cs).dropWhile continuesWord) := by
  have hword : continuesWord c = true := continuesWord_iff.mpr (.inl hc)
  rw [List.takeWhile_cons_of_pos hword, List.dropWhile_cons_of_pos hword, ← properNounsFrom_true,
    countProperNouns, properNounsFrom]
  simp [hc]

/-- Of the run with which a text begins, only the part from its first letter on counts. -/
theorem countProperNouns_eq_add (cs : List Char) :
    countProperNouns cs =
      (if IsCapitalized (fromLetter (cs.takeWhile continuesWord)) then 1 else 0) +
        countProperNouns (cs.dropWhile continuesWord) := by
  induction cs with
  | nil => rfl
  | cons c cs ih =>
    by_cases hc : continuesWord c = true
    · by_cases hletter : c.isAlpha = true
      · rw [countProperNouns_cons_of_isAlpha hletter, List.takeWhile_cons_of_pos hc,
          fromLetter_cons_of_isAlpha hletter]
        simp only [isProperNoun_iff]
      · rw [Bool.not_eq_true] at hletter
        rw [countProperNouns_cons_of_not_isAlpha hletter, ih, List.takeWhile_cons_of_pos hc,
          List.dropWhile_cons_of_pos hc, fromLetter_cons_of_not_isAlpha hletter]
    · rw [List.takeWhile_cons_of_neg hc, List.dropWhile_cons_of_neg hc]
      exact (Nat.zero_add _).symm

/-- If the count is right behind the run with which a text begins, it is right for the text. -/
theorem cast_countProperNouns_of_dropWhile
    (h : (countProperNouns (cs.dropWhile continuesWord) : ℕ∞) =
      (runsWith (IsCapitalized <| fromLetter ·) (cs.dropWhile continuesWord)).encard) :
    (countProperNouns cs : ℕ∞) = (runsWith (IsCapitalized <| fromLetter ·) cs).encard := by
  rw [countProperNouns_eq_add cs, encard_runsWith_eq_add (by decide) cs, Nat.cast_add, h]
  split <;> rfl

/-- The count is that of the runs that are capitalized from their first letter on. What is left
behind a run is empty or begins with a character of no run. -/
theorem cast_countProperNouns (cs : List Char) :
    (countProperNouns cs : ℕ∞) = (runsWith (IsCapitalized <| fromLetter ·) cs).encard := by
  refine cast_countProperNouns_of_dropWhile ?_
  induction cs with
  | nil => simp [countProperNouns, properNounsFrom, runsWith_nil]
  | cons c cs ih =>
    by_cases hc : continuesWord c = true
    · rwa [List.dropWhile_cons_of_pos hc]
    · have hcharacter : ¬IsWordCharacter c := mt continuesWord_iff.mpr hc
      have hletter : c.isAlpha = false := Bool.eq_false_iff.mpr fun h => hcharacter (.inl h)
      rw [List.dropWhile_cons_of_neg hc, countProperNouns_cons_of_not_isAlpha hletter,
        encard_runsWith_cons hcharacter]
      exact cast_countProperNouns_of_dropWhile ih

/-- Runs that are capitalized from their first letter on begin with it or do not. -/
theorem encard_runsWith_fromLetter (cs : List Char) :
    (runsWith (IsCapitalized <| fromLetter ·) cs).encard =
      (runsWith IsCapitalized cs).encard + (runsWith IsPrefixed cs).encard := by
  have hunion : runsWith (IsCapitalized <| fromLetter ·) cs =
      runsWith IsCapitalized cs ∪ runsWith IsPrefixed cs := by
    ext p
    simp only [runsWith, isCapitalized_fromLetter_iff, Set.mem_union, Set.mem_ofPred_eq]
    tauto
  rw [hunion, Set.encard_union_eq]
  rw [Set.disjoint_left]
  rintro p ⟨-, -, hcapitalized⟩ ⟨-, -, hprefixed⟩
  exact hcapitalized.not_isPrefixed hprefixed

/-- Whether a byte is an ASCII letter, a digit or an underscore. -/
def continuesByte (b : UInt8) : Bool := isAlnumByte b || b == 95

/-- The characters of words are told from all others by their bytes. -/
theorem spots_continuesWord : Spots continuesByte continuesWord :=
  spots_isAlphanum.or (spots_mark '_' (by decide))

/-- Whether the bytes of a word are an upper-case letter and one or more letters behind it. -/
def isCapitalizedBytes (word : List UInt8) : Bool :=
  2 ≤ word.length && word.head?.any isUpperByte && word.tail.all isLetterByte

/-- The first position from `i` on at which a word does not go on. -/
def wordStop (bytes : List UInt8) (i : ℕ) : ℕ :=
  if h : i < bytes.length then
    if continuesByte bytes[i] then wordStop bytes (i + 1) else i
  else i
termination_by bytes.length - i

/-- The bytes over which a word goes on are those that continue it. -/
theorem wordStop_eq (bytes : List UInt8) (i : ℕ) :
    wordStop bytes i = i + ((bytes.drop i).takeWhile continuesByte).length := by
  fun_induction wordStop bytes i with
  | case1 i h hword ih =>
    rw [ih, List.drop_eq_getElem_cons h, List.takeWhile_cons_of_pos hword, List.length_cons]
    omega
  | case2 i h hword =>
    rw [List.drop_eq_getElem_cons h, List.takeWhile_cons_of_neg hword, List.length_nil, add_zero]
  | case3 i h =>
    rw [List.drop_eq_nil_of_le (Nat.le_of_not_lt h)]
    rfl

/-- The byte of a letter belongs to words. -/
theorem continuesByte_of_isLetterByte (h : isLetterByte b = true) : continuesByte b = true := by
  change (isLetterByte b || (48 ≤ b && b ≤ 57) || b == 95) = true
  rw [h]
  rfl

/-- A word that a letter begins takes at least that letter. -/
theorem lt_wordStop (h : i < bytes.length) (hletter : isLetterByte bytes[i] = true) :
    i < wordStop bytes i := by
  rw [wordStop_eq, List.drop_eq_getElem_cons h,
    List.takeWhile_cons_of_pos (continuesByte_of_isLetterByte hletter), List.length_cons]
  omega

/-- Adds to `count` the capitalized words among the bytes from position `i` on. A byte that is no
letter is passed over; a letter begins a word. -/
def countCapitalizedFrom (bytes : List UInt8) (i count : ℕ) : ℕ :=
  if h : i < bytes.length then
    if hletter : isLetterByte bytes[i] then
      countCapitalizedFrom bytes (wordStop bytes i)
        (count + (isCapitalizedBytes ((bytes.take (wordStop bytes i)).drop i)).toNat)
    else countCapitalizedFrom bytes (i + 1) count
  else count
termination_by bytes.length - i
decreasing_by
  · have hlt := lt_wordStop h hletter
    omega
  · omega

/-- The test of bytes tells proper nouns by their UTF-8 forms. -/
theorem isCapitalizedBytes_utf8 (word : List Char) :
    isCapitalizedBytes (utf8 word) = isProperNoun word := by
  rw [isCapitalizedBytes, spots_isUpper.head?_utf8]
  cases word with
  | nil => rfl
  | cons c word =>
    by_cases hc : c.isUpper = true
    · obtain ⟨b, hbyte⟩ : ∃ b, String.utf8EncodeChar c = [b] := by
        rcases utf8EncodeChar_cases c with ⟨-, hbytes⟩ | ⟨hlarge, -⟩
        · exact ⟨_, hbytes⟩
        · rw [spots_isUpper.others c hlarge] at hc
          cases hc
      have hbytes : utf8 (c :: word) = b :: utf8 word := by rw [utf8_cons, hbyte]; rfl
      rw [hbytes, List.tail_cons, spots_isAlpha.all_utf8, List.length_cons, length_utf8]
      cases word with
      | nil => rfl
      | cons d word =>
        have hlength : 2 ≤ byteLength (d :: word) + 1 := Nat.succ_le_succ byteLength_pos
        simp only [hlength, decide_true, List.head?_cons, Option.any_some, hc, isProperNoun,
          Bool.true_and]
    · rw [Bool.not_eq_true] at hc
      cases word with
      | nil => simp [hc, isProperNoun]
      | cons d word => simp [hc, isProperNoun]

/-- At the bytes of a text, a word is read as the characters that continue it. -/
theorem wordStop_utf8 (h : bytes.drop i = utf8 cs) :
    (bytes.take (wordStop bytes i)).drop i = utf8 (cs.takeWhile continuesWord) ∧
      bytes.drop (wordStop bytes i) = utf8 (cs.dropWhile continuesWord) := by
  have hsplit : utf8 cs =
      utf8 (cs.takeWhile continuesWord) ++ utf8 (cs.dropWhile continuesWord) := by
    rw [← utf8_append, List.takeWhile_append_dropWhile]
  have hstop : wordStop bytes i = i + (utf8 (cs.takeWhile continuesWord)).length := by
    rw [wordStop_eq, h, spots_continuesWord.takeWhile_utf8]
  constructor
  · rw [hstop, List.drop_take, Nat.add_sub_cancel_left, h, hsplit, List.take_left]
  · rw [hstop, ← List.drop_drop, h, hsplit, List.drop_left]

/-- From a position on at which the rest of a character and a text behind it stand, the scan counts
what is counted in the text. -/
theorem countCapitalizedFrom_eq
    (hdrop : bytes.drop i = rest ++ utf8 cs) (hrest : ∀ b ∈ rest, isLetterByte b = false) :
    countCapitalizedFrom bytes i count = count + countProperNouns cs := by
  fun_induction countCapitalizedFrom bytes i count generalizing rest cs with
  | case1 i count h hletter ih =>
    rw [List.drop_eq_getElem_cons h] at hdrop
    cases rest with
    | cons b rest =>
      rw [(List.cons.inj hdrop).1, hrest b List.mem_cons_self] at hletter
      cases hletter
    | nil =>
      obtain ⟨c, cs, rest, rfl, -, hc, -⟩ := spots_isAlpha.of_utf8_eq_cons hdrop.symm
      rw [hletter] at hc
      rw [← List.drop_eq_getElem_cons h, List.nil_append] at hdrop
      obtain ⟨hword, hbehind⟩ := wordStop_utf8 hdrop
      rw [ih (show _ = [] ++ _ from hbehind) (by simp), hword, isCapitalizedBytes_utf8,
        countProperNouns_cons_of_isAlpha hc.symm]
      cases isProperNoun ((c :: cs).takeWhile continuesWord) <;> simp [Nat.add_assoc]
  | case2 i count h hletter ih =>
    rw [List.drop_eq_getElem_cons h] at hdrop
    cases rest with
    | cons b rest => exact ih (List.cons.inj hdrop).2 (List.forall_mem_cons.mp hrest).2
    | nil =>
      obtain ⟨c, cs, rest, rfl, hbytes, hc, hrest⟩ := spots_isAlpha.of_utf8_eq_cons hdrop.symm
      rw [Bool.not_eq_true] at hletter
      rw [countProperNouns_cons_of_not_isAlpha (hc ▸ hletter)]
      exact ih hbytes hrest
  | case3 i count h =>
    rw [List.drop_eq_nil_of_le (Nat.le_of_not_lt h)] at hdrop
    have hcs : cs = [] := by
      rw [← byteLength_eq_zero, ← length_utf8, (List.append_eq_nil_iff.mp hdrop.symm).2]
      rfl
    rw [hcs]
    rfl

/-- A scan of the bytes of a text ends with the count of the words that look like proper nouns. This
is the number of the runs that are capitalized, and of those that are so only behind digits and
underscores; it is the number of the former alone if and only if there are none of the latter. -/
theorem countProperNouns_eq_encard_runs (cs : List Char) :
    countCapitalizedFrom (utf8 cs) 0 0 = countProperNouns cs ∧
    (countProperNouns cs : ℕ∞) =
      (runsWith IsCapitalized cs).encard + (runsWith IsPrefixed cs).encard ∧
    ((countProperNouns cs : ℕ∞) = (runsWith IsCapitalized cs).encard ↔
      runsWith IsPrefixed cs = ∅) := by
  have hcount : (countProperNouns cs : ℕ∞) =
      (runsWith IsCapitalized cs).encard + (runsWith IsPrefixed cs).encard :=
    (cast_countProperNouns cs).trans (encard_runsWith_fromLetter cs)
  refine ⟨?_, hcount, ?_⟩
  · have hstart : (utf8 cs).drop 0 = [] ++ utf8 cs := rfl
    rw [countCapitalizedFrom_eq hstart (by simp), Nat.zero_add]
  · have hfinite : (runsWith IsCapitalized cs).encard ≠ ⊤ := by
      intro htop
      rw [htop, top_add] at hcount
      exact ENat.natCast_ne_top _ hcount
    rw [hcount, ← Set.encard_eq_zero]
    constructor
    · intro hsame
      exact (ENat.addLECancellable_of_ne_top hfinite).inj.mp (hsame.trans (add_zero _).symm)
    · intro hnone
      rw [hnone, add_zero]

/-- Chinese characters divide words, digits and underscores do not. -/
example : countProperNouns "关于Vue的 Python3 Snake_case AI".toList = 2 := by decide

/-- A digit behind the letters keeps a word from counting, and a digit before them does not, though
a search for the letters as a word does not find them there. -/
theorem counted_behind_digit :
    let text := "7Zip".toList
    countProperNouns text = 1 ∧ runsWith IsCapitalized text = ∅ ∧
      (countProperNouns text : ℕ∞) ≠ (runsWith IsCapitalized text).encard ∧
      containsTerm text "Zip".toList = false ∧ countProperNouns "Zip7".toList = 0 := by
  intro text
  have hcount : countProperNouns text = 1 := by decide
  have hinside : ∀ c ∈ text, IsWordCharacter c := by
    simp only [← continuesWord_iff, ← List.all_eq_true]
    decide
  have hnone : runsWith IsCapitalized text = ∅ := by
    have hnot : ¬IsCapitalized text := by decide
    rw [runsWith_of_inside (by decide) hinside]
    simp [hnot]
  refine ⟨hcount, hnone, ?_, by decide +kernel, by decide⟩
  rw [hcount, hnone, Set.encard_empty]
  exact one_ne_zero

end Daybook.Text
