import Daybook.Proofs.Numeric.Digits
import Daybook.Proofs.Text.Spans
import Daybook.Time.DatePattern

/-!
# Where dates are written

Each match of a date pattern stands at a part of the text that begins with a digit, and
its numbers are those that the pattern reads there. A year has four digits.
-/

namespace Daybook

namespace DatePattern

variable {p : DatePattern} {cs after rest : List Char} {date : WrittenDate}

/-- A row of characters that begins with a digit. -/
def BeginsWithDigit (cs : List Char) : Prop := ∃ c ds, cs = c :: ds ∧ c.isDigit = true

/-- A number is read off the front of a text, from a digit on. -/
theorem of_readNumber? {n : Nat} (h : readNumber? cs = some (n, rest)) :
    ∃ ds, cs = ds ++ rest ∧ BeginsWithDigit ds := by
  have hread : ∃ count, 0 < count ∧ Numeric.readDigits? count cs = some (n, rest) := by
    unfold readNumber? at h
    split at h
    · rename_i found htwo
      exact ⟨2, by decide, htwo.trans h⟩
    · exact ⟨1, by decide, h⟩
  obtain ⟨count, hcount, hread⟩ := hread
  obtain ⟨ds, hcs, hlength, hdigits, -⟩ := Numeric.of_readDigits? hread
  cases ds with
  | nil => simp at hlength; omega
  | cons d ds => exact ⟨d :: ds, hcs, d, ds, rfl, hdigits d List.mem_cons_self⟩

/-- A year is written with four digits, where the pattern has one. -/
theorem of_readYear? {year : Option Nat} (h : p.readYear? cs = some (year, rest)) :
    (∃ front, cs = front ++ rest ∧ (front = [] ∨ BeginsWithDigit front)) ∧
      ∀ y, year = some y → y < 10000 := by
  unfold readYear? at h
  split at h
  · cases h
    exact ⟨⟨[], rfl, .inl rfl⟩, fun y hy => by cases hy⟩
  · rename_i mark hyearMark
    simp only [Option.bind_eq_bind, Option.bind_eq_some_iff, Option.pure_def,
      Option.some.injEq, Prod.mk.injEq, Prod.exists] at h
    obtain ⟨y, afterYear, hdigits, afterMark, hmark, rfl, rfl⟩ := h
    obtain ⟨ds, rfl, hlength, hall, rfl⟩ := Numeric.of_readDigits? hdigits
    rw [Text.of_readMark? hmark]
    refine ⟨⟨ds ++ [mark], by simp, .inr ?_⟩, ?_⟩
    · cases ds with
      | nil => simp at hlength
      | cons d ds => exact ⟨d, ds ++ [mark], rfl, hall d List.mem_cons_self⟩
    · rintro y ⟨⟩
      simpa [hlength] using Numeric.ofDigits_lt hall

/-- The end of a date leaves the text after it, up to its day mark. -/
theorem of_readEnd? (h : p.readEnd? cs = some (after, rest)) : ∃ mark, cs = mark ++ after := by
  have hlonger : ∃ mark,
      cs = mark ++ if p.dayMark && startsWithDayMark cs then cs.tail else cs := by
    split
    · cases cs with
      | nil => exact ⟨[], rfl⟩
      | cons c cs => exact ⟨[c], rfl⟩
    · exact ⟨[], rfl⟩
  unfold readEnd? at h
  dsimp only at h
  split at h
  · split at h
    · cases h
      exact hlonger
    · obtain ⟨_, _, heq⟩ := Option.map_eq_some_iff.mp h
      cases heq
      exact ⟨[], rfl⟩
  · cases h
    exact hlonger

/-- A date is read off the front of a text, from its first digit on. -/
theorem of_read? (h : p.read? cs = some (date, after, rest)) :
    (∃ part, cs = part ++ after ∧ BeginsWithDigit part) ∧
      ∀ year, date.year = some year → year < 10000 := by
  unfold read? at h
  simp only [Option.bind_eq_bind, Option.bind_eq_some_iff, Option.pure_def, Option.some.injEq,
    Prod.mk.injEq, Prod.exists] at h
  obtain ⟨year, afterYear, hyear, month, afterMonth, hmonth, afterMark, hmark, day, afterDay,
    hday, after', rest', hend, rfl, rfl, rfl⟩ := h
  obtain ⟨⟨front, rfl, hfront⟩, hlimit⟩ := of_readYear? hyear
  obtain ⟨months, rfl, hmonths⟩ := of_readNumber? hmonth
  obtain rfl := Text.of_readMark? hmark
  obtain ⟨days, rfl, -⟩ := of_readNumber? hday
  obtain ⟨mark, rfl⟩ := of_readEnd? hend
  refine ⟨⟨front ++ (months ++ (p.monthMark :: (days ++ mark))), by simp, ?_⟩, hlimit⟩
  rcases hfront with rfl | ⟨c, ds, rfl, hc⟩
  · obtain ⟨c, ds, rfl, hc⟩ := hmonths
    exact ⟨c, _, rfl, hc⟩
  · exact ⟨c, _, rfl, hc⟩

variable {found : DateMatch}

/-- A match stands at a part of a text where the pattern reads its date. -/
def Stands (p : DatePattern) (cs : List Char) (found : DateMatch) : Prop :=
  ∃ front part back rest, cs = front ++ part ++ back ∧
    found.span = ⟨Text.byteLength front, Text.byteLength front + Text.byteLength part⟩ ∧
    p.read? (part ++ back) = some (found.date, back, rest)

/-- A match stands behind a character that may stand beside it, or at the start of the text. -/
def StandsApart (p : DatePattern) (cs : List Char) (found : DateMatch) : Prop :=
  ∃ front part back rest, (cs = front ++ part ++ back ∧
    found.span = ⟨Text.byteLength front, Text.byteLength front + Text.byteLength part⟩ ∧
    p.read? (part ++ back) = some (found.date, back, rest)) ∧
    ∀ c, front.getLast? = some c → p.allowsBeside c = true

/-- What stands apart stands in the text. -/
theorem StandsApart.stands (h : p.StandsApart cs found) : p.Stands cs found := by
  obtain ⟨front, part, back, rest, hstands, -⟩ := h
  exact ⟨front, part, back, rest, hstands⟩

/-- A pattern reads a date at the front of a text that begins at byte position `start`. -/
def ReadsAt (p : DatePattern) (start : Nat) (cs : List Char) (found : DateMatch) : Prop :=
  ∃ after rest, p.read? cs = some (found.date, after, rest) ∧
    found.span = ⟨start, start + (Text.byteLength cs - Text.byteLength after)⟩

/-- One date at most is read at the front of a text. -/
theorem readsAt_iff {start : Nat} (h : p.read? cs = some (date, after, rest)) :
    p.ReadsAt start cs found ↔
      found = ⟨⟨start, start + (Text.byteLength cs - Text.byteLength after)⟩, date⟩ := by
  constructor
  · rintro ⟨after', rest', hread, hspan⟩
    obtain ⟨hdate, rfl, rfl⟩ : date = found.date ∧ after = after' ∧ rest = rest' := by
      simpa [h] using hread
    rw [hdate, ← hspan]
  · rintro rfl
    exact ⟨after, rest, h, rfl⟩

/-- A date that is read behind a front stands there. -/
theorem ReadsAt.standsApart (front : List Char)
    (hfront : ∀ c, front.getLast? = some c → p.allowsBeside c = true)
    (h : p.ReadsAt (Text.byteLength front) cs found) : p.StandsApart (front ++ cs) found := by
  obtain ⟨after, rest, hread, hspan⟩ := h
  obtain ⟨⟨part, rfl, -⟩, -⟩ := of_read? hread
  exact ⟨front, part, after, rest, ⟨by simp, by simpa using hspan, hread⟩, hfront⟩

/-- The dates that a pattern reads in a text at byte position `offset`, behind each character
that may stand beside one. -/
def datesFrom (p : DatePattern) (offset : Nat) : List Char → List DateMatch
  | [] => []
  | c :: cs =>
    let start := offset + c.utf8Size
    match if p.allowsBeside c then p.read? cs else none with
    | none => datesFrom p start cs
    | some (date, after, _) =>
      ⟨⟨start, start + (Text.byteLength cs - Text.byteLength after)⟩, date⟩ ::
        datesFrom p start cs

/-- The dates that a pattern reads in a text, also where a scan from left to right does not try
it because a match before goes on there. -/
def dates (p : DatePattern) (cs : List Char) : List DateMatch :=
  match p.read? cs with
  | none => p.datesFrom 0 cs
  | some (date, after, _) =>
    ⟨⟨0, Text.byteLength cs - Text.byteLength after⟩, date⟩ :: p.datesFrom 0 cs

/-- A date is read directly behind the first character of a text, or further behind. -/
theorem mem_datesFrom_cons {offset : Nat} {c : Char} : found ∈ p.datesFrom offset (c :: cs) ↔
    (p.allowsBeside c = true ∧ p.ReadsAt (offset + c.utf8Size) cs found) ∨
      found ∈ p.datesFrom (offset + c.utf8Size) cs := by
  rw [datesFrom]
  cases hc : p.allowsBeside c with
  | false => simp
  | true =>
    cases hread : p.read? cs with
    | none => simp [ReadsAt, hread]
    | some read => simp [readsAt_iff hread]

/-- A date of a text is read at its front, or behind one of its characters. -/
theorem mem_dates : found ∈ p.dates cs ↔ p.ReadsAt 0 cs found ∨ found ∈ p.datesFrom 0 cs := by
  rw [dates]
  cases hread : p.read? cs with
  | none => simp [ReadsAt, hread]
  | some read => simp [readsAt_iff hread]

/-- A date that is read behind a character of a text stands there, apart from what may not be
beside it. -/
theorem standsApart_of_mem_datesFrom (front : List Char)
    (h : found ∈ p.datesFrom (Text.byteLength front) cs) : p.StandsApart (front ++ cs) found := by
  induction cs generalizing front with
  | nil => cases h
  | cons c cs ih =>
    have hfront : Text.byteLength front + c.utf8Size = Text.byteLength (front ++ [c]) := by simp
    have happend : (front ++ [c]) ++ cs = front ++ c :: cs := by simp
    rw [mem_datesFrom_cons, hfront] at h
    rw [← happend]
    rcases h with ⟨hc, hreads⟩ | hmem
    · exact hreads.standsApart (front ++ [c]) (by simpa using hc)
    · exact ih (front ++ [c]) hmem

/-- A date that is read behind a character of a text is one of those that are read there. -/
theorem mem_datesFrom {c : Char} (hc : p.allowsBeside c = true) (front : List Char) (offset : Nat)
    (h : p.ReadsAt (offset + Text.byteLength (front ++ [c])) cs found) :
    found ∈ p.datesFrom offset (front ++ c :: cs) := by
  induction front generalizing offset with
  | nil => exact mem_datesFrom_cons.mpr (.inl ⟨hc, by simpa using h⟩)
  | cons d front ih =>
    rw [List.cons_append, Text.byteLength_cons, ← Nat.add_assoc] at h
    exact mem_datesFrom_cons.mpr (.inr (ih _ h))

/-- The dates of a text are what stands in it apart from what may not be beside it. -/
theorem mem_dates_iff : found ∈ p.dates cs ↔ p.StandsApart cs found := by
  rw [mem_dates]
  constructor
  · rintro (hreads | hmem)
    · exact hreads.standsApart [] (by simp)
    · exact standsApart_of_mem_datesFrom [] hmem
  · rintro ⟨front, part, back, rest, ⟨rfl, hspan, hread⟩, hfront⟩
    have hreads : p.ReadsAt (Text.byteLength front) (part ++ back) found :=
      ⟨back, rest, hread, by simpa using hspan⟩
    rcases List.eq_nil_or_concat' front with rfl | ⟨front, c, rfl⟩
    · exact .inl hreads
    · rw [← Nat.zero_add (Text.byteLength _)] at hreads
      simpa using Or.inr (mem_datesFrom (hfront c (by simp)) front 0 hreads)

/-- What a scan finds are dates of the text. -/
theorem mem_datesFrom_of_mem_matchesFrom {skip offset : Nat}
    (h : found ∈ p.matchesFrom skip offset cs) : found ∈ p.datesFrom offset cs := by
  induction cs generalizing skip offset with
  | nil => cases h
  | cons c cs ih =>
    rw [mem_datesFrom_cons]
    cases skip with
    | succ skip => exact .inr (ih h)
    | zero =>
      rw [matchesFrom] at h
      split at h
      · exact .inr (ih h)
      · rename_i date after rest hread
        rcases List.mem_cons.mp h with rfl | hmem
        · split at hread
          · rename_i hc
            exact .inl ⟨hc, after, rest, hread, rfl⟩
          · cases hread
        · exact .inr (ih hmem)

/-- Every match that is found is a date of the text. -/
theorem mem_dates_of_mem_findAll (h : found ∈ p.findAll cs) : found ∈ p.dates cs := by
  rw [mem_dates]
  rw [findAll] at h
  split at h
  · exact .inr (mem_datesFrom_of_mem_matchesFrom h)
  · rename_i date after rest hread
    rcases List.mem_cons.mp h with rfl | hmem
    · exact .inl ⟨after, rest, hread, (congrArg (Text.Span.mk 0) (Nat.zero_add _)).symm⟩
    · exact .inr (mem_datesFrom_of_mem_matchesFrom hmem)

/-- Every match that is found stands in the text, apart from what may not be beside it. -/
theorem standsApart_of_mem_findAll (h : found ∈ p.findAll cs) : p.StandsApart cs found :=
  mem_dates_iff.mp (mem_dates_of_mem_findAll h)

/-- Every match that is found stands in the text. -/
theorem stands_of_mem_findAll (h : found ∈ p.findAll cs) : p.Stands cs found :=
  (standsApart_of_mem_findAll h).stands

/-- A date begins at a digit of the text. -/
theorem Stands.exists_digit (h : p.Stands cs found) :
    ∃ front c part back, cs = front ++ c :: (part ++ back) ∧ c.isDigit = true ∧
      found.span.start = Text.byteLength front ∧
      found.span.stop = Text.byteLength (front ++ c :: part) := by
  obtain ⟨front, part, back, rest, rfl, hspan, hread⟩ := h
  obtain ⟨⟨digits, hdigits, c, ds, rfl, hc⟩, -⟩ := of_read? hread
  obtain rfl : part = c :: ds := List.append_cancel_right hdigits
  exact ⟨front, c, ds, back, List.append_assoc _ _ _, hc, by rw [hspan],
    by rw [hspan, Text.byteLength_append]⟩

/-- Without digits there is no date. -/
theorem dates_eq_nil (h : HasNoDigit cs) : p.dates cs = [] := by
  refine List.eq_nil_iff_forall_not_mem.mpr fun found hfound => ?_
  obtain ⟨front, c, part, back, rfl, hc, -⟩ := (mem_dates_iff.mp hfound).stands.exists_digit
  rw [h c (by simp)] at hc
  cases hc

/-- Without digits there is no match. -/
theorem findAll_eq_nil (h : HasNoDigit cs) : p.findAll cs = [] := by
  refine List.eq_nil_iff_forall_not_mem.mpr fun found hfound => ?_
  have hdate := mem_dates_of_mem_findAll hfound
  rw [dates_eq_nil h] at hdate
  cases hdate

end DatePattern

end Daybook
