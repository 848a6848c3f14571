import Daybook.Proofs.Text.Clearing
import Daybook.Settings.Basic

/-!
# Terms that a text contains

A text contains a term only where the term stands in it. The converse holds of all texts for a
term that is no ASCII word, and for an ASCII word if a letter or digit stands directly before
each place where the word begins within itself. An ASCII word of another kind is missed where it
overlaps a place before, at which it does not stand on its own: the scan stops there, and goes on
behind that place.
-/

namespace Daybook.Text

variable {needle term front part back cs : List Char} {skip offset : ℕ} {before : Option Char}

/-- A term that is found in each text in which it stands: if it is an ASCII word, none of its
occurrences is hidden by another one that it overlaps. -/
def IsShown (term : List Char) : Prop :=
  isAsciiWord (lower term) = true → HidesNoOther (lower term)

/-- Whether a term is always shown can be evaluated. -/
instance (term : List Char) : Decidable (IsShown term) := inferInstanceAs (Decidable (_ → _))

/-- A scan finds something if the needle stands somewhere. -/
theorem occurrencesFrom_ne_nil (hpart : lower part = needle) (hne : part ≠ []) :
    occurrencesFrom needle 0 offset before (front ++ part ++ back) ≠ [] := by
  induction front generalizing offset before with
  | nil =>
    obtain ⟨c, rest, rfl⟩ := List.exists_cons_of_ne_nil hne
    have hbegins : beginsWith needle (c :: (rest ++ back)) = true :=
      beginsWith_iff.mpr ⟨c :: rest, back, rfl, hpart⟩
    simp [occurrencesFrom, hbegins]
  | cons c front ih =>
    simp only [List.cons_append, occurrencesFrom]
    split
    · exact List.cons_ne_nil _ _
    · exact ih

/-- A term that is no ASCII word is found if it stands somewhere. -/
theorem containsTerm_of_not_isAsciiWord (hword : isAsciiWord (lower term) = false)
    (hpart : lower part = lower term) (hne : part ≠ []) :
    containsTerm (front ++ part ++ back) term = true := by
  have hneedle : (lower term).isEmpty = false := by
    rw [← hpart, lower, List.isEmpty_map]
    simpa using hne
  have hsome : occurrencesFrom (lower term) 0 0 none (front ++ part ++ back) ≠ [] :=
    occurrencesFrom_ne_nil hpart hne
  obtain ⟨o, ho⟩ := List.exists_mem_of_ne_nil _ hsome
  refine containsTerm_of_mem (o := o) ?_
  unfold occurrences
  simp only [hneedle, Bool.false_eq_true, if_false]
  exact List.mem_filter.mpr ⟨ho, by rw [hword]; rfl⟩

/-- A term that is shown is found if it stands somewhere. -/
theorem IsShown.containsTerm_eq_true (hterm : IsShown term) (h : IsLeftIn term cs) :
    containsTerm cs term = true := by
  obtain ⟨front, part, back, rfl, hplace⟩ := h
  by_cases hword : isAsciiWord (lower term) = true
  · exact containsTerm_of_mem
      (mem_occurrences (hterm hword) hplace.lower_eq hplace.ne_nil hplace.isolated)
  · exact containsTerm_of_not_isAsciiWord (Bool.not_eq_true _ ▸ hword) hplace.lower_eq hplace.ne_nil

/-- The front of a text in lower case is the front in lower case. -/
theorem lower_take (k : ℕ) (cs : List Char) : lower (cs.take k) = (lower cs).take k :=
  List.map_take

/-- A scan finds nothing in less than a needle. -/
theorem occurrencesFrom_eq_nil (h : cs.length < skip + needle.length) :
    occurrencesFrom needle skip offset before cs = [] := by
  induction cs generalizing skip offset before with
  | nil => rfl
  | cons c cs ih =>
    rw [List.length_cons] at h
    cases skip with
    | succ skip => exact ih (by omega)
    | zero =>
      have hbegins : beginsWith needle (c :: cs) = false := by
        by_contra hbegins
        rw [Bool.not_eq_false, beginsWith_iff_isPrefix] at hbegins
        have hlength := hbegins.length_le
        rw [length_lower, List.length_cons] at hlength
        omega
      simp only [occurrencesFrom, hbegins, Bool.false_eq_true, if_false]
      exact ih (by omega)

/-- Behind a letter or digit, an ASCII word hides another one that begins within it: the scan goes
on behind the first one, where too little is left. -/
theorem containsTerm_eq_false_of_overlap {x : Char} {k : ℕ}
    (hword : isAsciiWord (lower term) = true) (hk : k < term.length)
    (hborder : (lower term).drop k <+: lower term) (hx : x.isAlphanum = true)
    (hfirst : (lower term).head? ≠ some x.toLower) :
    containsTerm (x :: (term.take k ++ term)) term = false := by
  have hbegins : beginsWith (lower term) (term.take k ++ term) = true := by
    rw [beginsWith_iff_isPrefix, lower_append, lower_take]
    conv_lhs => rw [← List.take_append_drop k (lower term)]
    exact (List.prefix_append_right_inj _).mpr hborder
  have hnot : beginsWith (lower term) (x :: (term.take k ++ term)) = false := by
    cases hterm : lower term with
    | nil => simp [hterm, isAsciiWord] at hword
    | cons n needle =>
      have hne : (n == x.toLower) = false := by simpa [hterm] using hfirst
      rw [beginsWith, hne, Bool.false_and]
  obtain ⟨c, rest, hrest⟩ : ∃ c rest, term.take k ++ term = c :: rest :=
    List.exists_cons_of_ne_nil (by rintro hnil; simp [(List.append_eq_nil_iff.mp hnil).2] at hk)
  rw [hrest] at hbegins hnot
  have hlength := congrArg List.length hrest
  rw [List.length_append, List.length_take, Nat.min_eq_left (Nat.le_of_lt hk), List.length_cons]
    at hlength
  have hscan : occurrencesFrom (lower term) 0 0 none (x :: c :: rest) =
      [⟨⟨x.utf8Size, x.utf8Size + byteLength (lower term)⟩, some x,
        (c :: rest)[(lower term).length]?⟩] := by
    have hnone : occurrencesFrom (lower term) (term.length - 1) (x.utf8Size + c.utf8Size) (some c)
        rest = [] := occurrencesFrom_eq_nil (by rw [length_lower]; omega)
    simp [occurrencesFrom, hnot, hbegins, hnone]
  rw [hrest, containsTerm, findTerm, occurrences]
  simp [hscan, hword, Occurrence.isolated, hx]

/-- An ASCII word that is not shown is missed in some text in which it stands. -/
theorem exists_missed_of_not_isShown (h : ¬IsShown term) :
    ∃ cs, IsLeftIn term cs ∧ containsTerm cs term = false := by
  simp only [IsShown, HidesNoOther, length_lower, Classical.not_imp, not_forall, not_and] at h
  obtain ⟨hword, k, hk, hpos, hborder, hbefore⟩ := h
  obtain ⟨x, hx, hfirst⟩ : ∃ x : Char, x.isAlphanum = true ∧
      (lower term).head? ≠ some x.toLower := by
    by_cases hzero : (lower term).head? = some '0'
    · exact ⟨'1', by decide, by rw [hzero]; decide⟩
    · exact ⟨'0', by decide, hzero⟩
  refine ⟨_, ⟨x :: term.take k, term, [], by simp, ?_⟩,
    containsTerm_eq_false_of_overlap hword hk hborder hx hfirst⟩
  refine ⟨by rintro rfl; simp at hk, rfl, fun _ => ?_⟩
  have hlast : (term.take k).getLast?.any Char.isAlphanum = false := by
    rw [← any_map_toLower isAlphanum_toLower, ← List.getLast?_map]
    rw [← lower_take] at hbefore
    exact Bool.eq_false_iff.mpr (hbefore hword)
  have hne : term.take k ≠ [] := by
    rw [← List.length_pos_iff, List.length_take]
    omega
  rw [Occurrence.isolated, Occurrence.between, List.getLast?_cons_of_ne_nil hne, hlast]
  rfl

/-- A text that contains a term is one in which the term stands: somewhere it is the term up to
ASCII case, and no ASCII letter or digit touches it there if the term is an ASCII word. The
converse holds of all texts if and only if the term is shown. -/
theorem containsTerm_iff_isLeftIn (term : List Char) :
    (∀ text, containsTerm text term = true → IsLeftIn term text) ∧
    ((∀ text, containsTerm text term = true ↔ IsLeftIn term text) ↔ IsShown term) := by
  refine ⟨fun text => isLeftIn_of_containsTerm, fun hall => ?_, fun hterm text =>
    ⟨isLeftIn_of_containsTerm, hterm.containsTerm_eq_true⟩⟩
  by_contra hnot
  obtain ⟨text, hleft, hmissed⟩ := exists_missed_of_not_isShown hnot
  rw [(hall text).mpr hleft] at hmissed
  cases hmissed

/-- The words of the default lists are shown, so that each text in which one stands contains it. -/
example :
    let lexicon : Settings.Lexicon := {}
    ∀ word ∈ lexicon.memoKeywords ++ lexicon.questionKeywords, IsShown word.toList := by
  decide +kernel

/-- A word stands on its own at the end of a text, and is missed: it overlaps a place at which
the end of a longer word touches it. -/
theorem missed_behind_longer_word :
    let text := "casino no no".toList
    let term := "no no".toList
    containsTerm text term = false ∧ IsLeftIn term text ∧ ¬IsShown term :=
  ⟨by decide +kernel, ⟨"casino ".toList, "no no".toList, [], rfl, by decide, rfl, fun _ => rfl⟩,
    by decide +kernel⟩

end Daybook.Text
