import Daybook.Proofs.Text.Removal
import Daybook.Text.Reading
import Mathlib

/-!
# The case of letters

A text in lower case has its words, its blanks and its digits where the text has them, and
a term stands in both at the same places. What is left of both when the same spans are
taken out is the same up to case. Only proper nouns are lost in lower case.
-/

namespace Daybook.Text

variable {cs needle : List Char} {c : Char}

/-- A test that no letter passes does not tell a character from its lower case. -/
theorem apply_toLower {p : Char → Bool} (h : ∀ c, c.isAlpha = true → p c = false) (c : Char) :
    p c.toLower = p c := by
  by_cases hupper : c.isUpper
  · have halpha : c.isAlpha = true := by simp [Char.isAlpha, hupper]
    rw [h c halpha, h c.toLower (by rw [Char.isAlpha_toLower_eq_isAlpha, halpha])]
  · rw [Char.toLower_eq_of_not_isUpper hupper]

/-- Blanks have no case. -/
theorem isBlank_toLower (c : Char) : isBlank c.toLower = isBlank c :=
  apply_toLower (p := isBlank) (fun c hc => isBlank_of_isAlphanum (by simp [Char.isAlphanum, hc])) c

/-- Digits have no case. -/
theorem isDigit_toLower (c : Char) : c.toLower.isDigit = c.isDigit := by
  refine apply_toLower (fun c hc => ?_) c
  simp [Char.isAlpha, Char.isUpper, Char.isLower, Char.isDigit, UInt32.le_iff_toNat_le] at hc ⊢
  omega

/-- Marks that are no letters are not told from others by case. -/
theorem contains_toLower {marks : List Char} (h : marks.all (!·.isAlpha) = true) (c : Char) :
    marks.contains c.toLower = marks.contains c := by
  refine apply_toLower (fun c hc => ?_) c
  by_contra hmem
  rw [Bool.not_eq_false, List.contains_iff_mem] at hmem
  simpa [hc] using List.all_eq_true.mp h c hmem

/-- A mark that is no letter is met in either case or in none. -/
theorem beq_toLower {mark : Char} (h : mark.isAlpha = false) (c : Char) :
    (c.toLower == mark) = (c == mark) := by
  refine apply_toLower (p := (· == mark)) (fun c hc => ?_) c
  by_contra hmark
  rw [Bool.not_eq_false, beq_iff_eq] at hmark
  rw [hmark, h] at hc
  cases hc

/-- Punctuation has no case. -/
theorem isSentenceMark_toLower (c : Char) : isSentenceMark c.toLower = isSentenceMark c := by
  unfold isSentenceMark
  exact contains_toLower rfl c

/-- A text is put in lower case character by character. -/
theorem lower_cons (c : Char) (cs : List Char) : lower (c :: cs) = c.toLower :: lower cs := rfl

/-- The two parts of a text are put in lower case one by one. -/
@[simp] theorem lower_append (cs ds : List Char) : lower (cs ++ ds) = lower cs ++ lower ds :=
  List.map_append

/-- Digits are in lower case. -/
theorem lower_of_digits (h : ∀ c ∈ cs, c.isDigit = true) : lower cs = cs := by
  refine (List.map_congr_left fun c hc => Char.toLower_eq_of_not_isUpper ?_).trans (List.map_id cs)
  have hdigit := h c hc
  simp [Char.isUpper, Char.isDigit, UInt32.le_iff_toNat_le] at hdigit ⊢
  omega

/-- A mark that is no letter is read off a text in lower case as off the text. -/
theorem readMark?_lower {mark : Char} (h : mark.isAlpha = false) (cs : List Char) :
    readMark? mark (lower cs) = (readMark? mark cs).map lower := by
  cases cs with
  | nil => rfl
  | cons c cs =>
    simp only [readMark?, readChar?, lower_cons, beq_toLower h]
    split <;> rfl

/-- A text with its ASCII letters in lower case. -/
def inLowerCase (text : String) : String := String.ofList (lower text.toList)

/-- The characters of a string in lower case are those of the string, in lower case. -/
@[simp] theorem toList_inLowerCase (text : String) :
    (inLowerCase text).toList = lower text.toList := String.toList_ofList

/-- Characters may be put in lower case before or after they make up a string. -/
theorem inLowerCase_ofList (cs : List Char) :
    inLowerCase (String.ofList cs) = String.ofList (lower cs) := by
  rw [inLowerCase, String.toList_ofList]

/-- Lower case brings no blanks into a word. -/
theorem isWord_lower {part : List Char} (h : IsWord part) : IsWord (lower part) := by
  refine ⟨by simpa [lower] using h.ne_nil, fun c hc => ?_⟩
  obtain ⟨d, hd, rfl⟩ := List.mem_map.mp hc
  rw [isBlank_toLower, h.not_blank d hd]

/-- A text may be trimmed before or after it is put in lower case. -/
theorem trim_lower (cs : List Char) : trim (lower cs) = lower (trim cs) := by
  have hblank : isBlank ∘ Char.toLower = isBlank := funext isBlank_toLower
  simp only [trim, lower, List.dropWhile_map, ← List.map_reverse, hblank]

/-- A test that does not depend on case is passed by a text in both cases or in none. -/
theorem all_lower {p : Char → Bool} (h : ∀ c, p c.toLower = p c) (cs : List Char) :
    (lower cs).all p = cs.all p := by
  simp [lower, Function.comp_def, h]

/-- A text is blank in both cases or in none. -/
@[simp] theorem allBlank_lower (cs : List Char) : allBlank (lower cs) = allBlank cs :=
  all_lower isBlank_toLower cs

/-- The words of a text in lower case are its words, in lower case. -/
theorem words_lower (cs : List Char) : words (lower cs) = (words cs).map lower := by
  induction cs using words_induction with
  | nil => rfl
  | blank x cs hx ih =>
    rw [lower_cons, words_cons_blank (by rwa [isBlank_toLower]), words_cons_blank hx, ih]
  | last part hpart => rw [words_of_isWord (isWord_lower hpart), words_of_isWord hpart]; rfl
  | word part x cs hpart hx ih =>
    rw [lower_append, lower_cons, words_append_cons (isWord_lower hpart)
      (by rwa [isBlank_toLower]), words_append_cons hpart hx, ih, List.map_cons]

/-- Words may be put in lower case before or after they are joined. -/
theorem lower_intercalate (ws : List (List Char)) :
    lower ([' '].intercalate ws) = [' '].intercalate (ws.map lower) := by
  induction ws with
  | nil => rfl
  | cons w ws ih =>
    cases ws with
    | nil => simp
    | cons v ws =>
      simp only [List.intercalate_cons_cons, lower_append, ih, List.map_cons]
      rfl

/-- Blanks may be collapsed before or after a text is put in lower case. -/
theorem collapse_lower (cs : List Char) : collapse (lower cs) = lower (collapse cs) := by
  rw [collapse, words_lower, collapse, lower_intercalate]

/-- Punctuation may be blanked before or after a text is put in lower case. -/
theorem blankPunctuation_lower (cs : List Char) :
    blankPunctuation (lower cs) = lower (blankPunctuation cs) := by
  simp only [blankPunctuation, lower, List.map_map]
  refine List.map_congr_left fun c _ => ?_
  simp only [Function.comp_apply, isSentenceMark_toLower, apply_ite Char.toLower]
  rfl

/-- An occurrence as it is seen in lower case. -/
def Occurrence.lower (o : Occurrence) : Occurrence :=
  ⟨o.span, o.before.map Char.toLower, o.after.map Char.toLower⟩

/-- A test that does not depend on case is passed by what may stand beside a place in both cases or
in none. -/
theorem any_map_toLower {test : Char → Bool} (h : ∀ c, test c.toLower = test c)
    (c : Option Char) : (c.map Char.toLower).any test = c.any test := by
  cases c <;> simp [h]

/-- An occurrence stands on its own in both cases or in none. -/
theorem Occurrence.isolated_lower (o : Occurrence) : o.lower.isolated = o.isolated := by
  simp only [isolated, lower, any_map_toLower isAlphanum_toLower]

/-- A text begins with a needle if it does so in lower case. -/
theorem beginsWith_iff_isPrefix : beginsWith needle cs = true ↔ needle <+: lower cs := by
  rw [beginsWith_iff]
  constructor
  · rintro ⟨part, back, rfl, rfl⟩
    exact ⟨lower back, (lower_append _ _).symm⟩
  · rintro ⟨rest, hrest⟩
    obtain ⟨part, back, rfl, hpart, -⟩ := List.map_eq_append_iff.mp hrest.symm
    exact ⟨part, back, rfl, hpart⟩

/-- A needle is met at the front of a text in both cases or in none. -/
theorem beginsWith_lower (needle cs : List Char) :
    beginsWith needle (lower cs) = beginsWith needle cs := by
  induction needle generalizing cs with
  | nil => simp [beginsWith]
  | cons n needle ih =>
    cases cs with
    | nil => rfl
    | cons c cs => simp [lower_cons, beginsWith, ih]

/-- A scan finds the same places in a text and in its lower case, with the characters beside them in
lower case. -/
theorem occurrencesFrom_lower (skip offset : Nat) (before : Option Char) (cs : List Char) :
    occurrencesFrom needle skip offset (before.map Char.toLower) (lower cs) =
      (occurrencesFrom needle skip offset before cs).map Occurrence.lower := by
  induction cs generalizing skip offset before with
  | nil => rfl
  | cons c cs ih =>
    have hbegins := beginsWith_lower needle (c :: cs)
    have hrest := fun skip => ih skip (offset + c.utf8Size) (some c)
    rw [lower_cons] at hbegins ⊢
    cases skip with
    | succ skip => simpa [occurrencesFrom, utf8Size_toLower] using hrest skip
    | zero =>
      simp only [occurrencesFrom, utf8Size_toLower, hbegins]
      split
      · have hafter : (c.toLower :: lower cs)[needle.length]? =
            (c :: cs)[needle.length]?.map Char.toLower := by
          rw [← lower_cons, lower, List.getElem?_map]
        rw [List.map_cons, ← hrest, hafter]
        rfl
      · exact hrest 0

/-- A term stands in a text and in its lower case at the same places. -/
theorem occurrences_lower (text term : List Char) :
    occurrences (lower text) term = (occurrences text term).map Occurrence.lower := by
  unfold occurrences
  dsimp only
  split
  · rfl
  · have hfound : occurrencesFrom (lower term) 0 0 none (lower text) =
        (occurrencesFrom (lower term) 0 0 none text).map Occurrence.lower :=
      occurrencesFrom_lower 0 0 none text
    simp only [hfound, List.filter_map, Function.comp_def, Occurrence.isolated_lower]

/-- A term has the same spans in a text and in its lower case. -/
theorem findTerm_lower (text term : List Char) :
    findTerm (lower text) term = findTerm text term := by
  simp [findTerm, occurrences_lower, Occurrence.lower, Function.comp_def]

/-- A term is contained in a text and its lower case or in neither. -/
theorem containsTerm_lower (text term : List Char) :
    containsTerm (lower text) term = containsTerm text term := by
  rw [containsTerm, findTerm_lower, containsTerm]

/-- A text may be blanked before or after it is put in lower case. -/
theorem blanked_lower (spans : List Span) (offset : Nat) (cs : List Char) :
    blanked spans offset (lower cs) = lower (blanked spans offset cs) := by
  induction cs generalizing offset with
  | nil => rfl
  | cons c cs ih =>
    simp only [lower_cons, blanked, utf8Size_toLower, ih]
    split
    · split <;> rfl
    · rfl

/-- A text may be masked before or after it is put in lower case. -/
theorem masked_lower (spans : List Span) (offset : Nat) (cs : List Char) :
    masked spans offset (lower cs) = lower (masked spans offset cs) := by
  induction cs generalizing offset with
  | nil => rfl
  | cons c cs ih =>
    simp only [lower_cons, masked, utf8Size_toLower, ih, apply_ite Char.toLower]
    rfl

/-- What is left of a text in lower case without some terms is what is left of the text, in lower
case. -/
theorem removeTerms_lower (terms : List String) (text : List Char) :
    removeTerms (lower text) terms = (removeTerms text terms).map lower := by
  unfold removeTerms
  induction terms generalizing text with
  | nil => rfl
  | cons term terms ih =>
    have hfirst : blanked (findTerm (lower text) term.toList) 0 (lower text) =
        lower (blanked (findTerm text term.toList) 0 text) := by
      rw [findTerm_lower, blanked_lower]
    rw [List.foldlM_cons, List.foldlM_cons, removeTerm_eq, removeTerm_eq, hfirst]
    exact ih _

/-- In lower case no word looks like a proper noun. -/
theorem countProperNouns_lower (cs : List Char) : countProperNouns (lower cs) = 0 := by
  have hnone : ∀ (cs : List Char) (inWord : Bool), properNounsFrom inWord (lower cs) = 0 := by
    intro cs
    induction cs with
    | nil => exact fun _ => rfl
    | cons c cs ih =>
      intro inWord
      have hnoun : isProperNoun (c.toLower :: (lower cs).takeWhile continuesWord) = false := by
        unfold isProperNoun
        split
        · rename_i heq
          obtain ⟨rfl, -⟩ := List.cons.inj heq
          rw [Char.isUpper_toLower_eq_false, Bool.false_and]
        · rfl
      simp [lower_cons, properNounsFrom, ih, hnoun]
  exact hnone cs false

end Daybook.Text
