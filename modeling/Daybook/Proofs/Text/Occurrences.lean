import Daybook.Proofs.Text.Spans
import Daybook.Proofs.Text.Words
import Mathlib.Data.List.Basic

/-!
# Where a term occurs

An occurrence tells where a part of the text stands that is the term up to ASCII case, and
which characters are beside it. A scan from left to right that goes on behind each
occurrence misses none that stands on its own, if no occurrence of the term can hide
another one that it overlaps.
-/

namespace Daybook.Text

variable {needle front part back cs : List Char} {o : Occurrence}

/-- An ASCII character has one byte. -/
theorem utf8Size_of_ascii {c : Char} (h : c.toNat < 128) : c.utf8Size = 1 :=
  Char.utf8Size_eq_one_iff.mpr (UInt32.le_iff_toNat_le.mpr (Nat.le_of_lt_succ h))

/-- Only the letters from A to Z have another lower case, which is a letter from a to z. -/
theorem toLower_cases (c : Char) :
    c.toLower = c ∨ (65 ≤ c.toNat ∧ c.toNat ≤ 90) ∧ c.toLower.toNat = c.toNat + 32 := by
  unfold Char.toLower
  split
  · rename_i hupper
    have hlow : 65 ≤ c.toNat := UInt32.le_iff_toNat_le.mp hupper.1
    have hhigh : c.toNat ≤ 90 := UInt32.le_iff_toNat_le.mp hupper.2
    refine .inr ⟨⟨hlow, hhigh⟩, ?_⟩
    change (c.val + 32).toNat = _
    rw [UInt32.toNat_add]
    exact Nat.mod_eq_of_lt (by change c.toNat + 32 < 4294967296; omega)
  · exact .inl rfl

/-- A letter has as many bytes in lower case. -/
theorem utf8Size_toLower (c : Char) : c.toLower.utf8Size = c.utf8Size := by
  rcases toLower_cases c with h | ⟨hupper, hlower⟩
  · rw [h]
  · rw [utf8Size_of_ascii (by omega), utf8Size_of_ascii (by omega)]

/-- Letters and digits are the same in both cases. -/
theorem isAlphanum_toLower (c : Char) : c.toLower.isAlphanum = c.isAlphanum := by
  rcases toLower_cases c with h | ⟨hupper, hlower⟩
  · rw [h]
  · rw [isAlphanum_iff.mpr (.inl hupper), isAlphanum_iff.mpr (.inr (.inl (by omega)))]

/-- A blank is no letter, and stays what it is. -/
theorem toLower_of_isBlank {c : Char} (h : isBlank c = true) : c.toLower = c := by
  rcases toLower_cases c with hlower | ⟨hupper, -⟩
  · exact hlower
  · simp [isBlank] at h
    omega

/-- A text in lower case has as many characters. -/
@[simp] theorem length_lower (cs : List Char) : (lower cs).length = cs.length :=
  List.length_map _

/-- A text in lower case has as many bytes, so that positions in both mean the same. -/
@[simp] theorem byteLength_lower (cs : List Char) : byteLength (lower cs) = byteLength cs := by
  induction cs with
  | nil => rfl
  | cons c cs ih =>
    change c.toLower.utf8Size + byteLength (lower cs) = _
    rw [utf8Size_toLower, ih, byteLength_cons]

/-- What is not seen in lower case is no letter or digit. -/
theorem any_isAlphanum_of_seen {c : Option Char} (h : seen (c.map Char.toLower) = none) :
    c.any Char.isAlphanum = false := by
  cases c with
  | none => rfl
  | some c =>
    have hblank := seen_eq_none_iff.mp h c.toLower rfl
    by_contra halnum
    rw [Option.any_some, Bool.not_eq_false, ← isAlphanum_toLower] at halnum
    rw [isBlank_of_isAlphanum halnum] at hblank
    cases hblank

/-- A text that has no blanks in lower case has none. -/
theorem isWord_of_lower (h : IsWord (lower part)) : IsWord part := by
  refine ⟨fun hnil => h.ne_nil (by rw [hnil]; rfl), fun c hc => ?_⟩
  by_contra hblank
  rw [Bool.not_eq_false] at hblank
  have hlower := h.not_blank c.toLower (List.mem_map_of_mem hc)
  rw [toLower_of_isBlank hblank, hblank] at hlower
  cases hlower

/-- A text begins with a needle if an initial part of it is the needle up to case. -/
theorem beginsWith_iff : beginsWith needle cs = true ↔
    ∃ part back, cs = part ++ back ∧ lower part = needle := by
  induction needle generalizing cs with
  | nil => simp [beginsWith, lower]
  | cons n needle ih =>
    cases cs with
    | nil => simp [beginsWith, lower]
    | cons c cs =>
      simp only [beginsWith, Bool.and_eq_true, beq_iff_eq, ih]
      constructor
      · rintro ⟨rfl, part, back, rfl, rfl⟩
        exact ⟨c :: part, back, rfl, rfl⟩
      · rintro ⟨_ | ⟨d, part⟩, back, hcs, hpart⟩
        · cases hpart
        · obtain ⟨rfl, rfl⟩ := List.cons.inj hcs
          obtain ⟨rfl, rfl⟩ := List.cons.inj hpart
          exact ⟨rfl, part, back, rfl, rfl⟩

/-- Each occurrence that a scan finds behind a front tells of a part that is the needle. The scan
goes on as one behind a front that is longer by one character. -/
theorem of_mem_occurrencesFrom (front : List Char) {skip : Nat}
    (h : o ∈ occurrencesFrom needle skip (byteLength front) front.getLast? cs) :
    ∃ before part back, front ++ cs = before ++ part ++ back ∧ lower part = needle ∧
      o = .between before part back := by
  induction cs generalizing front skip with
  | nil => cases h
  | cons c cs ih =>
    have hrest : ∀ {skip}, o ∈ occurrencesFrom needle skip (byteLength front + c.utf8Size)
        (some c) cs → ∃ before part back, front ++ c :: cs = before ++ part ++ back ∧
          lower part = needle ∧ o = .between before part back := by
      intro skip hmem
      have hfront : byteLength front + c.utf8Size = byteLength (front ++ [c]) := by simp
      rw [hfront, ← List.getLast?_concat (l := front)] at hmem
      simpa using ih (front ++ [c]) hmem
    cases skip with
    | succ skip => exact hrest h
    | zero =>
      unfold occurrencesFrom at h
      dsimp only at h
      split at h
      · rename_i hbegins
        rcases List.mem_cons.mp h with rfl | hmem
        · obtain ⟨part, back, hcs, rfl⟩ := beginsWith_iff.mp hbegins
          refine ⟨front, part, back, by rw [hcs, List.append_assoc], rfl, ?_⟩
          simp [Occurrence.between, hcs, List.getElem?_append_right, List.head?_eq_getElem?]
        · exact hrest hmem
      · exact hrest h

/-- An occurrence of a term tells of a part that is the term up to case, and stands on its
own if the term is made of ASCII words. -/
theorem of_mem_occurrences {text term : List Char} (h : o ∈ occurrences text term) :
    ∃ front part back, text = front ++ part ++ back ∧ lower part = lower term ∧
      o = .between front part back ∧ (isAsciiWord (lower term) = true → o.isolated = true) := by
  unfold occurrences at h
  dsimp only at h
  split at h
  · cases h
  · obtain ⟨hmem, hisolated⟩ := List.mem_filter.mp h
    obtain ⟨front, part, back, htext, hpart, ho⟩ := of_mem_occurrencesFrom [] hmem
    refine ⟨front, part, back, htext, hpart, ho, fun hword => ?_⟩
    simpa [hword] using hisolated

/-- A text can be cut at both ends of an occurrence, and shows there what is beside it. -/
theorem beside_of_mem_occurrences {text term : List Char} (h : o ∈ occurrences text term) :
    beside text o.span = .ok (o.before, o.after) := by
  obtain ⟨front, part, back, rfl, -, rfl, -⟩ := of_mem_occurrences h
  exact beside_between front part back

/-- A text contains a term that occurs in it. -/
theorem containsTerm_of_mem {text term : List Char} (h : o ∈ occurrences text term) :
    containsTerm text term = true := by
  have hspan : o.span ∈ findTerm text term := List.mem_map_of_mem h
  simpa [containsTerm] using List.ne_nil_of_mem hspan

/-- A part of what stands on its own does so too, if it is set off in it. -/
theorem isolated_of_isolated {before after : List Char}
    (h : (Occurrence.between front (before ++ part ++ after) back).isolated = true)
    (hbefore : before.getLast?.any Char.isAlphanum = false)
    (hafter : after.head?.any Char.isAlphanum = false) :
    (Occurrence.between (front ++ before) part (after ++ back)).isolated = true := by
  have hor : ∀ {c d : Option Char}, c.any Char.isAlphanum = false → d.any Char.isAlphanum = false →
      (c.or d).any Char.isAlphanum = false := by
    intro c d hc hd
    cases c with
    | none => exact hd
    | some c => exact hc
  simp only [Occurrence.isolated, Occurrence.between, Bool.and_eq_true, Bool.not_eq_true',
    List.getLast?_append, List.head?_append] at h ⊢
  exact ⟨hor hbefore h.1, hor hafter h.2⟩

/-- A needle of which no occurrence that stands on its own is hidden by another one that it
overlaps: it has only letters and digits, or does not overlap itself. -/
def HidesNothing (needle : List Char) : Prop :=
  needle.all Char.isAlphanum = true ∨
    ∀ k < needle.length, 0 < k → ¬needle.drop k <+: needle

/-- Only finitely many overlaps are to be tried. -/
instance (needle : List Char) : Decidable (HidesNothing needle) :=
  inferInstanceAs (Decidable (_ ∨ _))

/-- A needle of which no occurrence that stands on its own is hidden by another one: where it
overlaps itself, a letter or digit of an ASCII word stands directly before the second place. -/
def HidesNoOther (needle : List Char) : Prop :=
  ∀ k < needle.length, 0 < k → needle.drop k <+: needle →
    isAsciiWord needle = true ∧ (needle.take k).getLast?.any Char.isAlphanum = true

/-- The places at which a needle overlaps itself can be looked through. -/
instance (needle : List Char) : Decidable (HidesNoOther needle) :=
  inferInstanceAs (Decidable (∀ k < needle.length, _))

/-- Letters and digits make up an ASCII word. -/
theorem isAsciiWord_of_all (hne : needle ≠ []) (h : needle.all Char.isAlphanum = true) :
    isAsciiWord needle = true := by
  obtain ⟨c, rest, rfl⟩ := List.exists_cons_of_ne_nil hne
  have hall := List.all_eq_true.mp h
  simp only [isAsciiWord, Bool.and_eq_true, List.any_eq_true, List.all_eq_true, Bool.or_eq_true]
  exact ⟨⟨c, List.mem_cons_self, hall c List.mem_cons_self⟩,
    fun d hd => .inl (.inl (.inl (hall d hd)))⟩

/-- A needle that hides nothing hides no occurrence that stands on its own. -/
theorem HidesNothing.hidesNoOther (h : HidesNothing needle) : HidesNoOther needle := by
  intro k hk hpos hborder
  rcases h with halnum | hnone
  · have hne : needle ≠ [] := by
      rintro rfl
      simp at hk
    refine ⟨isAsciiWord_of_all hne halnum, ?_⟩
    cases hc : (needle.take k).getLast? with
    | none =>
      rw [List.getLast?_eq_none_iff, List.take_eq_nil_iff] at hc
      rcases hc with rfl | hnil
      · cases hpos
      · exact absurd hnil hne
    | some c => exact List.all_eq_true.mp halnum c (List.mem_of_mem_take (List.mem_of_getLast? hc))
  · exact absurd hborder (hnone k hk hpos)

/-- A scan finds the needle where no place before overlaps it. -/
theorem mem_occurrencesFrom (front before : List Char) {skip : Nat} (hskip : skip ≤ before.length)
    (hpart : lower part = needle) (hne : part ≠ [])
    (hclear : ∀ left right, before = left ++ right → right ≠ [] → right.length < needle.length →
      beginsWith needle (right ++ part ++ back) = false) :
    .between (front ++ before) part back ∈
      occurrencesFrom needle skip (byteLength front) front.getLast? (before ++ part ++ back) := by
  induction before generalizing front skip with
  | nil =>
    obtain rfl : skip = 0 := Nat.le_zero.mp hskip
    have hbegins : beginsWith needle (part ++ back) = true :=
      beginsWith_iff.mpr ⟨part, back, rfl, hpart⟩
    cases part with
    | nil => exact absurd rfl hne
    | cons c part =>
      simp only [List.nil_append, List.append_nil, List.cons_append] at hbegins ⊢
      unfold occurrencesFrom
      have hlength : byteLength needle = byteLength (c :: part) := by
        rw [← hpart, byteLength_lower]
      have hafter : (c :: (part ++ back))[needle.length]? = back.head? := by
        rw [← hpart, length_lower, ← List.cons_append, List.getElem?_append_right (Nat.le_refl _),
          Nat.sub_self, List.head?_eq_getElem?]
      simp only [hbegins, if_true, hlength, hafter]
      exact List.mem_cons_self
  | cons c before ih =>
    have hrest : ∀ {skip}, skip ≤ before.length → .between (front ++ c :: before) part back ∈
        occurrencesFrom needle skip (byteLength front + c.utf8Size) (some c)
          (before ++ part ++ back) := by
      intro skip hskip
      have hmem := ih (front ++ [c]) hskip fun left right hsplit =>
        hclear (c :: left) right (by rw [hsplit, List.cons_append])
      simpa using hmem
    cases skip with
    | succ skip => exact hrest (Nat.le_of_succ_le_succ hskip)
    | zero =>
      simp only [List.cons_append]
      unfold occurrencesFrom
      dsimp only
      split
      · rename_i hbegins
        refine List.mem_cons_of_mem _ (hrest ?_)
        by_contra hlong
        have hnone := hclear [] (c :: before) rfl (List.cons_ne_nil _ _)
          (by rw [List.length_cons]; omega)
        rw [← List.cons_append, ← List.cons_append, hnone] at hbegins
        cases hbegins
      · exact hrest (Nat.zero_le _)

/-- Before a place that stands on its own, the needle does not begin so late that it would overlap
it, for it would end with what it begins with. -/
theorem beginsWith_eq_false_of_overlap {right : List Char} (hneedle : HidesNoOther needle)
    (hpart : lower part = needle) (hright : right ≠ []) (hshort : right.length < needle.length)
    (hisolated : isAsciiWord needle = true → right.getLast?.any Char.isAlphanum = false) :
    beginsWith needle (right ++ part ++ back) = false := by
  by_contra hbegins
  rw [Bool.not_eq_false, beginsWith_iff] at hbegins
  obtain ⟨other, rest, hplace, hother⟩ := hbegins
  have hlength : other.length = part.length := by
    rw [← length_lower other, hother, ← hpart, length_lower]
  have hpartLength : part.length = needle.length := by rw [← hpart, length_lower]
  rw [List.append_assoc] at hplace
  rcases List.append_eq_append_iff.mp hplace with ⟨shared, rfl, hshared⟩ | ⟨_, rfl, -⟩
  · have hneedle' : needle = lower right ++ lower shared := by
      rw [← hother, lower, List.map_append]
      rfl
    have hdrop : needle.drop right.length = lower shared := by
      rw [hneedle']
      exact List.drop_left' (length_lower right)
    have htake : needle.take right.length = lower right := by
      rw [hneedle']
      exact List.take_left' (length_lower right)
    have hprefix : shared <+: part :=
      List.prefix_of_prefix_length_le ⟨rest, hshared.symm⟩ ⟨back, rfl⟩
        (by rw [List.length_append] at hlength; omega)
    obtain ⟨hword, hlast⟩ := hneedle right.length hshort (List.length_pos_of_ne_nil hright) (by
      rw [hdrop, ← hpart]
      exact hprefix.map Char.toLower)
    have hbefore := hisolated hword
    rw [htake, lower, List.getLast?_map] at hlast
    cases hc : right.getLast? with
    | none => simp [hc] at hlast
    | some c =>
      rw [hc, Option.map_some, Option.any_some, isAlphanum_toLower] at hlast
      rw [hc, Option.any_some, hlast] at hbefore
      cases hbefore
  · rw [List.length_append] at hshort
    omega

/-- A place where the term stands, on its own if need be, is found. -/
theorem mem_occurrences {term : List Char} (hterm : HidesNoOther (lower term))
    (hpart : lower part = lower term) (hne : part ≠ [])
    (hisolated : isAsciiWord (lower term) = true →
      (Occurrence.between front part back).isolated = true) :
    .between front part back ∈ occurrences (front ++ part ++ back) term := by
  have hneedle : (lower term).isEmpty = false := by
    rw [← hpart, lower, List.isEmpty_map]
    simpa using hne
  have hbefore : isAsciiWord (lower term) = true → front.getLast?.any Char.isAlphanum = false := by
    intro hword
    simpa [Occurrence.between] using (Bool.and_eq_true_iff.mp (hisolated hword)).1
  have hmem : .between front part back ∈
      occurrencesFrom (lower term) 0 0 none (front ++ part ++ back) := by
    refine mem_occurrencesFrom [] front (Nat.zero_le _) hpart hne
      fun left right hsplit hright hshort => ?_
    refine beginsWith_eq_false_of_overlap hterm hpart hright hshort fun hword => ?_
    rw [← List.getLast?_append_of_ne_nil left hright, ← hsplit]
    exact hbefore hword
  unfold occurrences
  simp only [hneedle, Bool.false_eq_true, if_false, List.mem_filter, Bool.or_eq_true,
    Bool.not_eq_true']
  refine ⟨hmem, ?_⟩
  cases hword : isAsciiWord (lower term) with
  | false => exact .inl rfl
  | true => exact .inr (hisolated hword)

end Daybook.Text
