import Daybook.Text.Term

/-!
# Parts of a text

The ends of a part of a text can be cut at. Where one text is split in two ways, the
shorter front is the beginning of the longer one.
-/

namespace Daybook.Text

variable {front front' back back' part : List Char} {cs : List Char}

/-- A text with a character has a byte. -/
theorem byteLength_pos {c : Char} : 0 < byteLength (c :: cs) :=
  Nat.add_pos_left (Char.utf8Size_pos c) _

/-- Only the empty text has no bytes. -/
theorem byteLength_eq_zero : byteLength cs = 0 ↔ cs = [] := by
  cases cs with
  | nil => simp
  | cons c cs => simpa using Nat.pos_iff_ne_zero.mp byteLength_pos

/-- Of two fronts of a text, the one with fewer bytes is the beginning of the other. -/
theorem exists_of_byteLength_le (h : front ++ back = front' ++ back')
    (hle : byteLength front ≤ byteLength front') :
    ∃ between, front' = front ++ between ∧ back = between ++ back' := by
  rcases List.append_eq_append_iff.mp h with hlonger | ⟨between, rfl, rfl⟩
  · exact hlonger
  · have hnone : between = [] := by
      rw [byteLength_append] at hle
      exact byteLength_eq_zero.mp (by omega)
    subst hnone
    exact ⟨[], by simp, by simp⟩

/-- A text has one front with a given number of bytes. -/
theorem eq_and_eq_of_byteLength_eq (h : front ++ back = front' ++ back')
    (hlength : byteLength front = byteLength front') : front = front' ∧ back = back' := by
  obtain ⟨between, rfl, rfl⟩ := exists_of_byteLength_le h (Nat.le_of_eq hlength)
  rw [byteLength_append] at hlength
  have hnone : between = [] := byteLength_eq_zero.mp (by omega)
  simp [hnone]

/-- Behind the bytes of a front stands the rest of the text. -/
theorem dropBytes_byteLength (front back : List Char) :
    dropBytes (byteLength front) (front ++ back) = .ok back := by
  simp [dropBytes, splitAtByte_byteLength, Except.map]

/-- Between the bytes of a front and those of a back stands the part between them. -/
theorem slice_byteLength (front part back : List Char) :
    slice (byteLength front) (byteLength front + byteLength part) (front ++ (part ++ back)) =
      .ok part := by
  unfold slice
  rw [if_neg (Nat.not_lt.mpr (Nat.le_add_right _ _)), dropBytes_byteLength]
  change (splitAtByte _ (part ++ back)).map Prod.fst = _
  rw [Nat.add_sub_cancel_left, splitAtByte_byteLength]
  rfl

/-- Between two places of a text the part is cut out with which the first front becomes the
second one. -/
theorem slice_eq_ok_iff (h : front ++ back = front' ++ back') :
    slice (byteLength front) (byteLength front') (front ++ back) = .ok part ↔
      front' = front ++ part := by
  by_cases hle : byteLength front ≤ byteLength front'
  · obtain ⟨between, rfl, rfl⟩ := exists_of_byteLength_le h hle
    rw [byteLength_append, slice_byteLength, Except.ok.injEq, List.append_cancel_left_eq]
  · have hne : front' ≠ front ++ part := by
      rintro rfl
      simp at hle
    simp [slice, Nat.not_le.mp hle, hne]

/-- The characters directly before and after a span, where a text is cut at its ends. -/
def beside (cs : List Char) (span : Span) : Except Fault (Option Char × Option Char) := do
  let (front, _) ← splitAtByte span.start cs
  let (_, back) ← splitAtByte span.stop cs
  return (front.getLast?, back.head?)

/-- The place of a part of a text between two others. -/
def Occurrence.between (front part back : List Char) : Occurrence :=
  ⟨⟨byteLength front, byteLength front + byteLength part⟩, front.getLast?, back.head?⟩

/-- A text can be cut at both ends of a part, and shows there what is beside it. -/
theorem beside_between (front part back : List Char) :
    beside (front ++ part ++ back) (Occurrence.between front part back).span =
      .ok (front.getLast?, back.head?) := by
  have hstart : splitAtByte (byteLength front) (front ++ part ++ back) =
      .ok (front, part ++ back) := by
    rw [List.append_assoc, splitAtByte_byteLength]
  have hstop : splitAtByte (byteLength front + byteLength part) (front ++ part ++ back) =
      .ok (front ++ part, back) := by
    rw [← byteLength_append, splitAtByte_byteLength]
  simp only [beside, Occurrence.between, hstart, hstop]
  rfl

end Daybook.Text
