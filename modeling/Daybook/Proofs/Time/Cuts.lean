import Daybook.Proofs.Text.ByteSearch
import Daybook.Proofs.Time.Stripping

/-!
# Cuts at the ends of characters

A text is cut where terms are removed from it, where the characters beside a phrase are looked
at, and where times are stripped off. All these cuts are made at the ends of characters, although
terms are found among the bytes of the text.
-/

namespace Daybook.Resolution

open Text

/-- The spans of a term are those that a scan of the bytes finds. Each ends before the next one
begins, and each spells the term between the ends of characters. A cut meets no fault at the ends
of characters, and nowhere else. So removing the term meets none, nor does looking at the
characters beside a phrase, nor does stripping a text of times, which cuts at such ends. -/
theorem cuts_at_boundaries (text term : List Char) :
    findTerm text term = byteSpans (utf8 text) (utf8 term) ∧
    (findTerm text term).Pairwise (fun a b => a.stop ≤ b.start) ∧
    (∀ span ∈ findTerm text term, span.Spells text term) ∧
    (∀ n, (∃ parts, splitAtByte n text = .ok parts) ↔ IsBoundary text n) ∧
    (∃ rest, removeTerm text term = .ok rest) ∧
    (∀ p : Phrase, ∀ o ∈ Text.occurrences text p.text.toList,
      beside text o.span = .ok (o.before, o.after)) ∧
    (∀ span ∈ timeSpans text, IsBoundary text span.start ∧ IsBoundary text span.stop) ∧
    ∃ rest, strip (String.ofList text) = .ok rest :=
  ⟨findTerm_eq_byteSpans text term, pairwise_findTerm text term,
    fun _ => spells_of_mem_findTerm, fun _ => exists_splitAtByte_iff,
    ⟨_, removeTerm_eq text term⟩, fun _ _ => beside_of_mem_occurrences,
    fun span hspan => (Span.standsIn_iff.mp (standsIn_of_mem_timeSpans span hspan)).2,
    ⟨_, strip_eq _⟩⟩

/-- A digit is found before a letter with an accent and before a Chinese word. No cut can be made
inside the letter. -/
theorem cuts_at_boundaries_beside_accent :
    let text := "1é 1晚上".toList
    findTerm text ['1'] = [⟨0, 1⟩, ⟨4, 5⟩] ∧ (⟨4, 5⟩ : Span).Spells text ['1'] ∧
      ¬IsBoundary text 2 := by
  intro text
  have hfound : findTerm text ['1'] = [⟨0, 1⟩, ⟨4, 5⟩] := by decide +kernel
  obtain ⟨-, -, hspells, hcuts, -⟩ := cuts_at_boundaries text ['1']
  refine ⟨hfound, hspells _ (by rw [hfound]; simp), fun hinside => ?_⟩
  obtain ⟨parts, hparts⟩ := (hcuts 2).mpr hinside
  have hfault : splitAtByte 2 text = .error .insideCharacter := by decide +kernel
  rw [hfault] at hparts
  cases hparts

end Daybook.Resolution
