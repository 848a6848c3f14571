import Daybook.Proofs.Routing.LetterCase
import Daybook.Proofs.Text.Clearing

/-!
# Contents without stop words

The content of a query has none of the stop words of the router in it, and is its own
content. The stop words must be ones that can be removed: one that overlaps itself may hide a
further occurrence, and one that begins or ends with another mark may stand on its own only
when its neighbour is gone.
-/

namespace Daybook.Router

open Text

variable {router : Router} {content query : List Char} {lexicon : Settings.Lexicon} {c : Char}

/-- The router has the stop words of its word lists, in another order. -/
theorem mem_stopWords_ofLexicon {word : String} :
    word ∈ (ofLexicon lexicon).lexicon.stopWords ↔ word ∈ lexicon.stopWords :=
  (List.mergeSort_perm _ _).mem_iff

/-- Punctuation is not blank. -/
theorem isBlank_of_isSentenceMark (h : isSentenceMark c = true) : isBlank c = false := by
  have hall : ['？', '！', '，', '。', '、', '；', '：', '?', '!', ',', ';'].all (!isBlank ·) = true := by
    decide
  simpa using List.all_eq_true.mp hall c (List.contains_iff_mem.mp h)

/-- No punctuation is left where it has been replaced by blanks. -/
theorem isSentenceMark_of_mem_blankPunctuation (h : c ∈ blankPunctuation query) :
    isSentenceMark c = false := by
  obtain ⟨d, -, rfl⟩ := List.mem_map.mp h
  split
  · decide
  · rename_i hmark
    exact Bool.eq_false_iff.mpr hmark

/-- Without sentence marks, there is no punctuation to blank. -/
theorem blankPunctuation_eq_self (h : ∀ c ∈ query, isSentenceMark c = false) :
    blankPunctuation query = query := by
  have hmap : blankPunctuation query = query.map id :=
    List.map_congr_left fun c hc => by simp [h c hc]
  rw [hmap, List.map_id]

/-- A content without sentence marks, superfluous blanks and stop words. -/
structure IsClear (router : Router) (content : List Char) : Prop where
  unmarked : ∀ c ∈ content, isSentenceMark c = false
  collapsed : collapse content = content
  without : ∀ word ∈ router.lexicon.stopWords, containsTerm content word.toList = false

/-- A clear content is its own content. -/
theorem IsClear.content_eq (h : router.IsClear content) : router.content content = .ok content := by
  unfold Router.content
  rw [blankPunctuation_eq_self h.unmarked, removeTerms_eq_self h.without]
  exact congrArg Except.ok h.collapsed

/-- A query has a clear content if all stop words can be removed. -/
theorem exists_content_isClear (query : List Char)
    (hwords : ∀ word ∈ router.lexicon.stopWords, IsRemovable word.toList) :
    ∃ content, router.content query = .ok content ∧ router.IsClear content := by
  obtain ⟨rest, hrest, hgone, -, hchars⟩ :=
    exists_removeTerms_clear hwords (blankPunctuation query)
  refine ⟨collapse rest, ?_, fun c hc => ?_, collapse_collapse rest, fun word hword => ?_⟩
  · unfold Router.content
    rw [hrest]
    rfl
  · by_contra hmark
    rw [Bool.not_eq_false] at hmark
    have hmem : c ∈ (collapse rest).filter (!isBlank ·) :=
      List.mem_filter.mpr ⟨hc, by rw [isBlank_of_isSentenceMark hmark]; rfl⟩
    rw [filter_collapse] at hmem
    rcases hchars c (List.mem_filter.mp hmem).1 with rfl | hquery
    · cases hmark
    · rw [isSentenceMark_of_mem_blankPunctuation hquery] at hmark
      cases hmark
  · by_contra hleft
    rw [Bool.not_eq_false] at hleft
    exact hgone word hword
      (isLeftIn_of_collapse (hwords word hword) (isLeftIn_of_containsTerm hleft))

/-- The stop words of the default settings can be removed. -/
theorem isRemovable_of_mem_default :
    ∀ word ∈ ({} : Settings.Lexicon).stopWords, IsRemovable word.toList := by
  decide +kernel

/-- With stop words that are among the default ones or can be removed, a query of any kind has
a content. None of the stop words is found in it, and taking its content again does not change
it. -/
theorem content_complete (lexicon : Settings.Lexicon) (query : List Char)
    (hwords : ∀ word ∈ lexicon.stopWords,
      word ∈ ({} : Settings.Lexicon).stopWords ∨ IsRemovable word.toList) :
    ∃ content, (ofLexicon lexicon).content query = .ok content ∧
      (∀ word ∈ lexicon.stopWords, containsTerm content word.toList = false) ∧
      (ofLexicon lexicon).content content = .ok content := by
  have hremovable : ∀ word ∈ (ofLexicon lexicon).lexicon.stopWords, IsRemovable word.toList := by
    intro word hword
    rw [mem_stopWords_ofLexicon] at hword
    exact (hwords word hword).elim (isRemovable_of_mem_default word) id
  obtain ⟨content, hcontent, hclear⟩ := exists_content_isClear query hremovable
  refine ⟨content, hcontent, fun word hword => ?_, hclear.content_eq⟩
  exact hclear.without word (mem_stopWords_ofLexicon.mpr hword)

/-- What stands around a word that is removed does not make up the word again, since a space
is left between. -/
theorem content_complete_around_word :
    let lexicon : Settings.Lexicon :=
      { stopWords := ["what's", "notes", "有什么", "的", "a"], scheduleWords := ["plan"] }
    let query := "Notes的a有有什么什么, what's a计划?".toList
    (∀ word ∈ lexicon.stopWords,
      word ∈ ({} : Settings.Lexicon).stopWords ∨ IsRemovable word.toList) ∧
    (ofLexicon lexicon).content query = .ok "有 什么 计划".toList ∧
    ∃ content, (ofLexicon lexicon).content query = .ok content ∧
      (∀ word ∈ lexicon.stopWords, containsTerm content word.toList = false) ∧
      (ofLexicon lexicon).content content = .ok content := by
  intro lexicon query
  have hwords : ∀ word ∈ lexicon.stopWords,
      word ∈ ({} : Settings.Lexicon).stopWords ∨ IsRemovable word.toList := by decide +kernel
  refine ⟨hwords, ?_, content_complete lexicon query hwords⟩
  rw [ofLexicon_eq (by decide) (by decide)]
  decide +kernel

end Daybook.Router
