import Daybook.Proofs.Text.Blanking
import Daybook.Proofs.Text.Occurrences
import Daybook.Text.Shape

/-!
# Clearing a text

Each occurrence of a term ends before the next one begins, so that removing terms meets no
fault. Clearing a text of terms, punctuation or superfluous blanks does not make it longer.
-/

namespace Daybook.Text

variable {needle cs : List Char} {o : Occurrence}

/-- A scan finds nothing in the characters that belong to the last occurrence. -/
theorem le_start_of_mem_occurrencesFrom {skip offset : Nat} {before : Option Char}
    (h : o ∈ occurrencesFrom needle skip offset before cs) :
    offset + byteLength (cs.take skip) ≤ o.span.start := by
  induction cs generalizing skip offset before with
  | nil => cases h
  | cons c cs ih =>
    cases skip with
    | succ skip =>
      have hrest := ih h
      rw [List.take_succ_cons, byteLength_cons]
      omega
    | zero =>
      have hrest : ∀ {skip}, o ∈ occurrencesFrom needle skip (offset + c.utf8Size) (some c) cs →
          offset ≤ o.span.start := fun hmem =>
        Nat.le_trans (Nat.le_add_right _ _) (Nat.le_trans (Nat.le_add_right _ _) (ih hmem))
      unfold occurrencesFrom at h
      dsimp only at h
      split at h
      · rcases List.mem_cons.mp h with rfl | hmem
        · exact Nat.le_refl _
        · exact hrest hmem
      · exact hrest h

/-- The bytes of the needle are those of the character where it begins and of the characters
behind that belong to it. -/
theorem byteLength_take_of_beginsWith {c : Char} (h : beginsWith needle (c :: cs) = true)
    (hneedle : needle ≠ []) :
    byteLength needle = c.utf8Size + byteLength (cs.take (needle.length - 1)) := by
  obtain ⟨part, back, hpart, rfl⟩ := beginsWith_iff.mp h
  cases part with
  | nil => exact absurd rfl hneedle
  | cons d part =>
    obtain ⟨rfl, hcs⟩ := List.cons.inj hpart
    have htake : cs.take part.length = part := hcs ▸ List.take_left
    rw [length_lower, List.length_cons, Nat.add_sub_cancel, htake, byteLength_lower,
      byteLength_cons]

/-- Each occurrence that a scan finds ends before the next one begins, since the scan goes on
behind it. -/
theorem pairwise_occurrencesFrom (hneedle : needle ≠ []) (skip offset : Nat)
    (before : Option Char) : (occurrencesFrom needle skip offset before cs).Pairwise
      fun a b => a.span.stop ≤ b.span.start := by
  induction cs generalizing skip offset before with
  | nil => exact .nil
  | cons c cs ih =>
    cases skip with
    | succ skip => exact ih _ _ _
    | zero =>
      unfold occurrencesFrom
      dsimp only
      split
      · rename_i hbegins
        refine List.pairwise_cons.mpr ⟨fun next hnext => ?_, ih _ _ _⟩
        have hstart := le_start_of_mem_occurrencesFrom hnext
        have htake := byteLength_take_of_beginsWith hbegins hneedle
        dsimp only
        omega
      · exact ih _ _ _

/-- The spans of a term come one behind the other. -/
theorem pairwise_findTerm (text term : List Char) :
    (findTerm text term).Pairwise fun a b => a.stop ≤ b.start := by
  unfold findTerm occurrences
  dsimp only
  split
  · exact .nil
  · rename_i hne
    have hneedle : lower term ≠ [] := fun hnil => hne (by rw [hnil]; rfl)
    exact List.pairwise_map.mpr ((pairwise_occurrencesFrom hneedle 0 0 none).filter _)

/-- The spans of a term are those of parts of the text. -/
theorem standsIn_of_mem_findTerm {text term : List Char} :
    ∀ span ∈ findTerm text term, span.StandsIn text := by
  intro span hspan
  obtain ⟨o, ho, rfl⟩ := List.mem_map.mp hspan
  obtain ⟨front, part, back, rfl, hpart, rfl, -⟩ := of_mem_occurrences ho
  refine ⟨front, part, back, rfl, ?_, rfl, (byteLength_append _ _).symm⟩
  rintro rfl
  have hnone : lower term = [] := hpart.symm
  simp [occurrences, hnone] at ho

/-- Replacing spans one by one is what blanking does with spans that come one behind the
other. -/
theorem replaceFrom_eq {spans : List Span} {cursor : Nat}
    (hlt : ∀ span ∈ spans, span.start < span.stop) (hcursor : ∀ span ∈ spans, cursor ≤ span.start)
    (hspans : spans.Pairwise fun a b => a.stop ≤ b.start) :
    replaceFrom cs cursor spans = blankFrom cs cursor spans := by
  induction spans generalizing cursor with
  | nil => rfl
  | cons span spans ih =>
    obtain ⟨hspan, hlt⟩ := List.forall_mem_cons.mp hlt
    obtain ⟨hstart, -⟩ := List.forall_mem_cons.mp hcursor
    obtain ⟨hnext, hspans⟩ := List.pairwise_cons.mp hspans
    have hpast : ¬span.stop ≤ cursor := by omega
    rw [replaceFrom, blankFrom, if_neg hpast, if_neg (Nat.not_lt.mpr hstart), ih hlt hnext hspans]

/-- Removing a term meets no fault. -/
theorem removeTerm_eq (text term : List Char) :
    removeTerm text term = .ok (blanked (findTerm text term) 0 text) := by
  have hstands := @standsIn_of_mem_findTerm text term
  have hspans := pairwise_findTerm text term
  unfold removeTerm
  rw [replaceFrom_eq (fun span hspan => (hstands span hspan).lt) (fun _ _ => Nat.zero_le _) hspans]
  refine blankFrom_eq [] rfl ?_ hstands
  refine hspans.imp_of_mem fun {a b} ha _ hstop => ?_
  exact Nat.le_trans (Nat.le_of_lt (hstands a ha).lt) hstop

/-- A blanked text is not longer than the text. -/
theorem length_blanked_le (spans : List Span) (offset : Nat) (cs : List Char) :
    (blanked spans offset cs).length ≤ cs.length := by
  induction cs generalizing offset with
  | nil => exact Nat.le_refl _
  | cons c cs ih =>
    have hrest := ih (offset + c.utf8Size)
    simp only [blanked]
    split
    · split <;> simp only [List.length_cons] <;> omega
    · simpa using hrest

/-- A masked text is as long as the text. -/
@[simp] theorem length_masked (spans : List Span) (offset : Nat) (cs : List Char) :
    (masked spans offset cs).length = cs.length := by
  induction cs generalizing offset with
  | nil => rfl
  | cons c cs ih => simp [masked, ih]

/-- Collapsing blanks does not make a text longer. -/
theorem length_collapse_le (cs : List Char) : (collapse cs).length ≤ cs.length := by
  unfold collapse
  induction cs using words_induction with
  | nil => exact Nat.le_refl _
  | blank x cs hx ih =>
    rw [words_cons_blank hx, List.length_cons]
    exact Nat.le_succ_of_le ih
  | last part hpart => rw [words_of_isWord hpart, List.intercalate_singleton]
  | word part x cs hpart hx ih =>
    rw [words_append_cons hpart hx, List.length_append, List.length_cons]
    by_cases hnone : words cs = []
    · rw [hnone, List.intercalate_singleton]
      exact Nat.le_add_right _ _
    · rw [List.intercalate_cons_of_ne_nil hnone, List.length_append, List.length_append,
        List.length_singleton]
      omega

/-- Removing terms one after the other meets no fault, and does not make the text longer. -/
theorem exists_removeTerms (terms : List String) (text : List Char) :
    ∃ rest, removeTerms text terms = .ok rest ∧ rest.length ≤ text.length := by
  induction terms generalizing text with
  | nil => exact ⟨text, rfl, Nat.le_refl _⟩
  | cons term terms ih =>
    obtain ⟨rest, hrest, hlength⟩ := ih (blanked (findTerm text term.toList) 0 text)
    refine ⟨rest, ?_, Nat.le_trans hlength (length_blanked_le _ _ _)⟩
    unfold removeTerms
    rw [List.foldlM_cons, removeTerm_eq]
    exact hrest

/-- A text is blank if it has no words. -/
theorem allBlank_iff_words : allBlank cs = true ↔ words cs = [] := by
  have hfilter : allBlank cs = true ↔ cs.filter (!isBlank ·) = [] := by
    simp [allBlank]
  rw [hfilter, ← flatten_words, List.flatten_eq_nil_iff]
  constructor
  · intro hnone
    refine List.eq_nil_iff_forall_not_mem.mpr fun part hpart => ?_
    exact (isWord_of_mem_words part hpart).ne_nil (hnone part hpart)
  · intro hnone part hpart
    rw [hnone] at hpart
    cases hpart

/-- Nothing is left of a blank text when its blanks are collapsed. -/
theorem collapse_eq_nil_iff : collapse cs = [] ↔ allBlank cs = true := by
  constructor
  · intro hnil
    rw [allBlank_iff_words, ← words_collapse, hnil]
    rfl
  · intro hblank
    rw [collapse, allBlank_iff_words.mp hblank]
    rfl

/-- A trimmed text is not blank if anything is left of it. -/
theorem allBlank_trim_eq_false (h : trim cs ≠ []) : allBlank (trim cs) = false := by
  have hlast := List.head?_dropWhile_not isBlank (cs.dropWhile isBlank).reverse
  unfold trim at h ⊢
  cases hrest : (cs.dropWhile isBlank).reverse.dropWhile isBlank with
  | nil => exact absurd (by rw [hrest]; rfl) h
  | cons c rest =>
    rw [hrest] at hlast
    have hc : isBlank c = false := hlast
    simp [allBlank, hc]

end Daybook.Text
