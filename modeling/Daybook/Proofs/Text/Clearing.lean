import Daybook.Proofs.Text.LetterCase
import Daybook.Proofs.Text.Removal

/-!
# Terms that are gone

Terms are removed from a text one after the other. A term without blanks that stands in what
is left stood in the text before, at a place that nothing was removed from. It would have been
found there, so that none of the terms is left.
-/

namespace Daybook.Text

variable {term other front part back cs : List Char} {spans : List Span} {x : Char}

/-- A term without blanks of which no occurrence hides another one: up to case it does not
overlap itself, or has only letters and digits. It is free of letters and digits, or an ASCII
word that begins and ends with one. -/
structure IsRemovable (term : List Char) : Prop where
  not_blank : ∀ c ∈ term, isBlank c = false
  hides : HidesNothing (lower term)
  shape : (∀ c ∈ term, c.isAlphanum = false) ∨ isAsciiWord term = true ∧
    term.head?.any Char.isAlphanum = true ∧ term.getLast?.any Char.isAlphanum = true

/-- What makes a term removable, as a test of its characters. -/
theorem isRemovable_iff : IsRemovable term ↔ term.all (!isBlank ·) = true ∧
    HidesNothing (lower term) ∧ (term.all (!Char.isAlphanum ·) = true ∨
      isAsciiWord term = true ∧ term.head?.any Char.isAlphanum = true ∧
        term.getLast?.any Char.isAlphanum = true) := by
  simp only [List.all_eq_true, Bool.not_eq_true']
  exact ⟨fun ⟨hblank, hhides, hshape⟩ => ⟨hblank, hhides, hshape⟩,
    fun ⟨hblank, hhides, hshape⟩ => ⟨hblank, hhides, hshape⟩⟩

/-- Whether a term can be removed for good can be evaluated. -/
instance (term : List Char) : Decidable (IsRemovable term) :=
  decidable_of_iff' _ isRemovable_iff

/-- A term stands at a part of a text, between two others, where it can be found: up to case,
and with no letter or digit beside it if it is made of ASCII words. -/
structure IsPlaceOf (term front part back : List Char) : Prop where
  ne_nil : part ≠ []
  lower_eq : lower part = lower term
  isolated : isAsciiWord (lower term) = true →
    (Occurrence.between front part back).isolated = true

/-- A term stands somewhere in a text. -/
def IsLeftIn (term cs : List Char) : Prop :=
  ∃ front part back, cs = front ++ part ++ back ∧ IsPlaceOf term front part back

/-- Where a term is found, it stands. -/
theorem exists_isPlaceOf_of_mem {o : Occurrence} (h : o ∈ occurrences cs term) :
    ∃ front part back, cs = front ++ part ++ back ∧ o = .between front part back ∧
      IsPlaceOf term front part back := by
  obtain ⟨front, part, back, hcs, hpart, rfl, hisolated⟩ := of_mem_occurrences h
  refine ⟨front, part, back, hcs, rfl, ?_, hpart, hisolated⟩
  rintro rfl
  have hnone : lower term = [] := hpart.symm
  simp [occurrences, hnone] at h

/-- A term that a text contains stands somewhere in it. -/
theorem isLeftIn_of_containsTerm (h : containsTerm cs term = true) : IsLeftIn term cs := by
  have hne : occurrences cs term ≠ [] := by
    rintro hnil
    simp [containsTerm, findTerm, hnil] at h
  obtain ⟨o, ho⟩ := List.exists_mem_of_ne_nil _ hne
  obtain ⟨front, part, back, hcs, -, hplace⟩ := exists_isPlaceOf_of_mem ho
  exact ⟨front, part, back, hcs, hplace⟩

/-- Whether a text is made of ASCII words does not depend on case. -/
theorem isAsciiWord_lower (cs : List Char) : isAsciiWord (lower cs) = isAsciiWord cs := by
  have hmark : ∀ mark : Char, mark.isAlpha = false → ∀ c : Char,
      (c.toLower == mark) = (c == mark) := fun mark h => beq_toLower h
  simp only [isAsciiWord, lower, List.any_map, List.all_map, Function.comp_def,
    isAlphanum_toLower, hmark ' ' rfl, hmark '\x27' rfl, hmark '-' rfl]

/-- A term is an ASCII word if there is a letter or digit where it stands. -/
theorem IsPlaceOf.isAsciiWord_lower (hterm : IsRemovable term)
    (h : IsPlaceOf term front part back) (hx : x ∈ part) (halnum : x.isAlphanum = true) :
    isAsciiWord (lower term) = true := by
  rw [Text.isAsciiWord_lower]
  rcases hterm.shape with hfree | ⟨hword, -, -⟩
  · have hlower : x.toLower ∈ lower term := h.lower_eq ▸ List.mem_map_of_mem hx
    obtain ⟨d, hd, hdx⟩ := List.mem_map.mp hlower
    have hdigit := hfree d hd
    rw [← isAlphanum_toLower, hdx, isAlphanum_toLower, halnum] at hdigit
    cases hdigit
  · exact hword

/-- Where an ASCII word stands, it begins and ends with a letter or digit. -/
theorem IsPlaceOf.ends (hterm : IsRemovable term) (h : IsPlaceOf term front part back)
    (hword : isAsciiWord (lower term) = true) :
    part.head?.any Char.isAlphanum = true ∧ part.getLast?.any Char.isAlphanum = true := by
  rw [Text.isAsciiWord_lower] at hword
  rcases hterm.shape with hfree | ⟨-, hfirst, hlast⟩
  · obtain ⟨c, hc, halnum⟩ := List.any_eq_true.mp (Bool.and_eq_true_iff.mp hword).1
    rw [hfree c hc] at halnum
    cases halnum
  · have hhead := congrArg List.head? h.lower_eq
    have hend := congrArg List.getLast? h.lower_eq
    simp only [lower, List.head?_map, List.getLast?_map] at hhead hend
    rw [← any_map_toLower isAlphanum_toLower] at hfirst hlast ⊢
    rw [← any_map_toLower isAlphanum_toLower part.getLast?]
    exact ⟨hhead ▸ hfirst, hend ▸ hlast⟩

/-- A removable term stands at parts without blanks. -/
theorem IsPlaceOf.isWord (hterm : IsRemovable term) (h : IsPlaceOf term front part back) :
    IsWord part := by
  refine ⟨h.ne_nil, fun c hc => ?_⟩
  have hlower : c.toLower ∈ lower term := h.lower_eq ▸ List.mem_map_of_mem hc
  obtain ⟨d, hd, hdc⟩ := List.mem_map.mp hlower
  rw [← isBlank_toLower, ← hdc, isBlank_toLower]
  exact hterm.not_blank d hd

/-- No letter or digit is removed directly before one that stays. -/
theorem isAlphanum_before (hterm : IsRemovable term) {d : Char} (hcs : cs = front ++ x :: d :: back)
    (hd : d.isAlphanum = true) (hcovered : isCovered (findTerm cs term) (byteLength front) = true)
    (hkept : isCovered (findTerm cs term) (byteLength (front ++ [x])) = false) :
    x.isAlphanum = false := by
  obtain ⟨span, hspan, hstop⟩ := exists_stop_eq standsIn_of_mem_findTerm hcs hcovered hkept
  obtain ⟨o, ho, rfl⟩ := List.mem_map.mp hspan
  obtain ⟨before, part, after, hcs', rfl, hplace⟩ := exists_isPlaceOf_of_mem ho
  have hsplit : before ++ part ++ after = (front ++ [x]) ++ d :: back := by
    rw [← hcs', hcs, List.append_assoc, List.singleton_append]
  obtain ⟨hends, rfl⟩ := eq_and_eq_of_byteLength_eq hsplit ((byteLength_append _ _).trans hstop)
  have hlast : part.getLast? = some x := by
    rw [← List.getLast?_append_of_ne_nil before hplace.ne_nil, hends, List.getLast?_concat]
  by_contra halnum
  rw [Bool.not_eq_false] at halnum
  have hword := hplace.isAsciiWord_lower hterm (List.mem_of_getLast? hlast) halnum
  have hisolated := hplace.isolated hword
  simp [Occurrence.isolated, Occurrence.between, hd] at hisolated

/-- No letter or digit is removed directly after one that stays. -/
theorem isAlphanum_after (hterm : IsRemovable term) {d : Char} (hcs : cs = front ++ d :: x :: back)
    (hd : d.isAlphanum = true) (hkept : isCovered (findTerm cs term) (byteLength front) = false)
    (hcovered : isCovered (findTerm cs term) (byteLength (front ++ [d])) = true) :
    x.isAlphanum = false := by
  have hopened := isOpened_of_isCovered standsIn_of_mem_findTerm hcs hkept hcovered
  obtain ⟨span, hspan, hstart⟩ := (isOpened_eq_true_iff.mp hopened).1
  obtain ⟨o, ho, rfl⟩ := List.mem_map.mp hspan
  obtain ⟨before, part, after, hcs', rfl, hplace⟩ := exists_isPlaceOf_of_mem ho
  have hsplit : before ++ (part ++ after) = (front ++ [d]) ++ x :: back := by
    rw [← List.append_assoc, ← hcs', hcs, List.append_assoc, List.singleton_append]
  obtain ⟨rfl, hbegins⟩ := eq_and_eq_of_byteLength_eq hsplit hstart
  have hfirst : x ∈ part := by
    obtain ⟨y, rest, rfl⟩ := List.exists_cons_of_ne_nil hplace.ne_nil
    obtain ⟨rfl, -⟩ := List.cons.inj hbegins
    exact List.mem_cons_self
  by_contra halnum
  rw [Bool.not_eq_false] at halnum
  have hisolated := hplace.isolated (hplace.isAsciiWord_lower hterm hfirst halnum)
  simp [Occurrence.isolated, Occurrence.between, hd] at hisolated

/-- A term that is left when another one, or the term itself, has been removed stood in the
text, at a place that nothing was removed from. -/
theorem exists_place_of_left (hterm : IsRemovable term) (hother : IsRemovable other)
    (h : IsLeftIn term (blanked (findTerm cs other) 0 cs)) :
    ∃ front part back, cs = front ++ part ++ back ∧ IsPlaceOf term front part back ∧
      isCovered (findTerm cs other) (byteLength front) = false := by
  obtain ⟨left, part, right, hblanked, hplace⟩ := h
  have hpart := hplace.isWord hterm
  obtain ⟨left', right', hcollapse, hleft, hright⟩ := stands_in_collapse hpart hblanked
  rw [collapse_blanked standsIn_of_mem_findTerm] at hcollapse
  obtain ⟨front, back, hcs, hkept, hbefore, hafter⟩ := stands_of_collapse_masked hpart hcollapse
  refine ⟨front, part, back, hcs, ⟨hpart.ne_nil, hplace.lower_eq, fun hword => ?_⟩, ?_⟩
  · have hisolated := hplace.isolated hword
    obtain ⟨hfirst, hlast⟩ := hplace.ends hterm hword
    simp only [Occurrence.isolated, Occurrence.between, Bool.and_eq_true, Bool.not_eq_true']
      at hisolated ⊢
    refine ⟨any_eq_false_of_seen (fun _ => isBlank_of_isAlphanum) (fun c hc => ?_) hisolated.1,
      any_eq_false_of_seen (fun _ => isBlank_of_isAlphanum) (fun c hc => ?_) hisolated.2⟩
    · obtain ⟨f, rfl⟩ := List.getLast?_eq_some_iff.mp hc
      rw [← hleft]
      refine (hbefore f c rfl).imp_right fun hcovered => ?_
      obtain ⟨d, rest, rfl⟩ := List.exists_cons_of_ne_nil hpart.ne_nil
      have hsplit : cs = f ++ c :: d :: (rest ++ back) := by simp [hcs]
      exact isAlphanum_before hother hsplit (by simpa using hfirst) hcovered
        (by simpa using hkept [] d rest rfl)
    · obtain ⟨b, rfl⟩ := List.head?_eq_some_iff.mp hc
      rw [← hright]
      refine (hafter c b rfl).imp_right fun hcovered => ?_
      obtain ⟨rest, d, rfl⟩ := (List.eq_nil_or_concat part).resolve_left hpart.ne_nil
      rw [List.concat_eq_append] at *
      have hsplit : cs = (front ++ rest) ++ d :: c :: b := by simp [hcs]
      exact isAlphanum_after hother hsplit (by simpa using hlast) (hkept rest d [] rfl)
        (by simpa using hcovered)
  · obtain ⟨d, rest, rfl⟩ := List.exists_cons_of_ne_nil hpart.ne_nil
    simpa using hkept [] d rest rfl

/-- Removing a term brings no other one about. -/
theorem isLeftIn_of_blanked (hterm : IsRemovable term) (hother : IsRemovable other)
    (h : IsLeftIn term (blanked (findTerm cs other) 0 cs)) : IsLeftIn term cs := by
  obtain ⟨front, part, back, hcs, hplace, -⟩ := exists_place_of_left hterm hother h
  exact ⟨front, part, back, hcs, hplace⟩

/-- A term is gone when it has been removed. -/
theorem not_isLeftIn_blanked (hterm : IsRemovable term) (cs : List Char) :
    ¬IsLeftIn term (blanked (findTerm cs term) 0 cs) := by
  intro h
  obtain ⟨front, part, back, rfl, hplace, hkept⟩ := exists_place_of_left hterm hterm h
  have hmem := mem_occurrences hterm.hides.hidesNoOther hplace.lower_eq hplace.ne_nil
    hplace.isolated
  have hspan : (Occurrence.between front part back).span ∈
      findTerm (front ++ part ++ back) term := List.mem_map_of_mem hmem
  have hcovered : isCovered (findTerm (front ++ part ++ back) term) (byteLength front) = true :=
    isCovered_eq_true_iff.mpr
      ⟨_, hspan, Nat.le_refl _, (standsIn_of_mem_findTerm _ hspan).lt⟩
  rw [hkept] at hcovered
  cases hcovered

/-- Collapsing the blanks of a text brings no term about. -/
theorem isLeftIn_of_collapse (hterm : IsRemovable term) (h : IsLeftIn term (collapse cs)) :
    IsLeftIn term cs := by
  obtain ⟨left, part, right, hcollapse, hplace⟩ := h
  obtain ⟨front, back, hcs, hfront, hback⟩ := stands_of_collapse (hplace.isWord hterm) hcollapse
  refine ⟨front, part, back, hcs, hplace.ne_nil, hplace.lower_eq, fun hword => ?_⟩
  have hisolated := hplace.isolated hword
  simp only [Occurrence.isolated, Occurrence.between, Bool.and_eq_true, Bool.not_eq_true']
    at hisolated ⊢
  exact ⟨any_eq_false_of_seen (fun _ => isBlank_of_isAlphanum)
      (fun c hc => .inl (hc ▸ hfront)) hisolated.1,
    any_eq_false_of_seen (fun _ => isBlank_of_isAlphanum)
      (fun c hc => .inl (hc ▸ hback)) hisolated.2⟩

/-- A blanked text has no characters but those of the text and spaces. -/
theorem mem_of_mem_blanked {offset : Nat} (h : x ∈ blanked spans offset cs) :
    x = ' ' ∨ x ∈ cs := by
  induction cs generalizing offset with
  | nil => exact .inr h
  | cons c cs ih =>
    have hrest : x ∈ blanked spans (offset + c.utf8Size) cs → x = ' ' ∨ x ∈ c :: cs :=
      fun hmem => (ih hmem).imp_right (List.mem_cons_of_mem c)
    simp only [blanked] at h
    split at h
    · split at h
      · exact (List.mem_cons.mp h).elim .inl hrest
      · exact hrest h
    · rcases List.mem_cons.mp h with rfl | hmem
      · exact .inr List.mem_cons_self
      · exact hrest hmem

/-- When terms have been removed one after the other, none of them is left, nothing else has
come about, and all characters but spaces were there before. -/
theorem exists_removeTerms_clear {terms : List String}
    (hterms : ∀ term ∈ terms, IsRemovable term.toList) (cs : List Char) :
    ∃ rest, removeTerms cs terms = .ok rest ∧
      (∀ term ∈ terms, ¬IsLeftIn term.toList rest) ∧
      (∀ term, IsRemovable term → IsLeftIn term rest → IsLeftIn term cs) ∧
      ∀ c ∈ rest, c = ' ' ∨ c ∈ cs := by
  induction terms generalizing cs with
  | nil => exact ⟨cs, rfl, by simp, fun _ _ h => h, fun c hc => .inr hc⟩
  | cons first terms ih =>
    obtain ⟨hfirst, hrest⟩ := List.forall_mem_cons.mp hterms
    obtain ⟨rest, hremoved, hgone, hleft, hchars⟩ :=
      ih hrest (blanked (findTerm cs first.toList) 0 cs)
    refine ⟨rest, ?_, ?_, fun term hterm h => ?_, fun c hc => ?_⟩
    · unfold removeTerms
      rw [List.foldlM_cons, removeTerm_eq]
      exact hremoved
    · refine List.forall_mem_cons.mpr ⟨fun h => ?_, hgone⟩
      exact not_isLeftIn_blanked hfirst cs (hleft _ hfirst h)
    · exact isLeftIn_of_blanked hterm hfirst (hleft term hterm h)
    · rcases hchars c hc with hspace | hmem
      · exact .inl hspace
      · exact mem_of_mem_blanked hmem

/-- Terms that a text does not contain leave it as it is. -/
theorem removeTerms_eq_self {terms : List String}
    (hnone : ∀ term ∈ terms, containsTerm cs term.toList = false) :
    removeTerms cs terms = .ok cs := by
  induction terms with
  | nil => rfl
  | cons first terms ih =>
    obtain ⟨hfirst, hrest⟩ := List.forall_mem_cons.mp hnone
    have hspans : findTerm cs first.toList = [] := by simpa [containsTerm] using hfirst
    unfold removeTerms
    rw [List.foldlM_cons, removeTerm_eq, hspans, blanked_none]
    exact ih hrest

end Daybook.Text
