import Daybook.Proofs.Time.DatesApart
import Daybook.Time.Resolution

/-!
# What stripping leaves

Stripping a text takes out the written dates and the phrases for times that are found in it.
What is left may speak of a time again: a date or a phrase may have stood so close to a date
that it was not found, and the words of a phrase may have stood apart. A text whose dates stand
apart, and in which a word of every phrase of several words is missing, is stripped of all
times.
-/

namespace Daybook

open Text

namespace Phrase

/-- What is known of the text of a phrase. -/
structure IsPlain (p : Phrase) : Prop where
  lower : Text.lower p.text.toList = p.text.toList
  ne_nil : p.text.toList ≠ []
  /-- The blanks of a phrase are spaces. -/
  blanks : ∀ c ∈ p.text.toList, isBlank c = true → c = ' '
  /-- A phrase begins with no character before which another one is part of a longer word, and
  with a letter or digit only if it is an ASCII phrase. -/
  first : ∀ c ∈ p.text.toList.head?, isBlank c = false ∧ c ∉ sundayCompounds ∧
    (c.isAlphanum = true → isAsciiWord p.text.toList = true)
  /-- It ends with no character after which another one is part of a longer word, and with a
  letter or digit only if it is an ASCII phrase. -/
  last : ∀ c ∈ p.text.toList.getLast?, c ∉ nowCompounds ∧
    (c.isAlphanum = true → isAsciiWord p.text.toList = true)
  /-- Its digits apart, a phrase may stand beside a date. -/
  beside : ∀ c ∈ p.text.toList, ∀ q ∈ DatePattern.all, c.isDigit = true ∨ q.allowsBeside c = true
  /-- Its words hide nothing. Those that are ASCII words have letters and digits only, and
  belong to an ASCII phrase. -/
  words : ∀ w ∈ Text.words p.text.toList, (Text.lower w = w ∧ HidesNothing w) ∧
    (isAsciiWord w = true → w.all Char.isAlphanum = true ∧ isAsciiWord p.text.toList = true)

/-- Each phrase of the table is plain, by a look at its characters and its words. -/
theorem isPlain_of_mem_table : ∀ p ∈ table, p.IsPlain := by
  have hall : ∀ p ∈ table, (Text.lower p.text.toList = p.text.toList ∧ p.text.toList ≠ []) ∧
      p.text.toList.all (fun c => !isBlank c || c == ' ') = true ∧
      p.text.toList.head?.all (fun c => !isBlank c && (!sundayCompounds.contains c &&
        (!c.isAlphanum || isAsciiWord p.text.toList))) = true ∧
      p.text.toList.getLast?.all (fun c => !nowCompounds.contains c &&
        (!c.isAlphanum || isAsciiWord p.text.toList)) = true ∧
      p.text.toList.all (fun c =>
        DatePattern.all.all fun q => c.isDigit || q.allowsBeside c) = true ∧
      ∀ w ∈ Text.words p.text.toList, (Text.lower w = w ∧ HidesNothing w) ∧
        (isAsciiWord w = true →
          w.all Char.isAlphanum = true ∧ isAsciiWord p.text.toList = true) := by
    decide +kernel
  intro p hp
  obtain ⟨⟨hlower, hne⟩, hblanks, hfirst, hlast, hbeside, hwords⟩ := hall p hp
  refine ⟨hlower, hne, fun c hc hblank => ?_, fun c hc => ?_, fun c hc => ?_,
    fun c hc q hq => by
      simpa using List.all_eq_true.mp (List.all_eq_true.mp hbeside c hc) q hq, hwords⟩
  · simpa [hblank] using List.all_eq_true.mp hblanks c hc
  · rw [Option.mem_def.mp hc, Option.all_some, Bool.and_eq_true, Bool.and_eq_true,
      Bool.or_eq_true, Bool.not_eq_true', Bool.not_eq_true', Bool.not_eq_true'] at hfirst
    obtain ⟨hblank, hnot, hword⟩ := hfirst
    exact ⟨hblank, by simpa using hnot, fun halnum => hword.resolve_left (by simp [halnum])⟩
  · rw [Option.mem_def.mp hc, Option.all_some, Bool.and_eq_true, Bool.or_eq_true,
      Bool.not_eq_true', Bool.not_eq_true'] at hlast
    obtain ⟨hnot, hword⟩ := hlast
    exact ⟨by simpa using hnot, fun halnum => hword.resolve_left (by simp [halnum])⟩

/-- The characters that make a phrase part of a longer word are among two rows of them. -/
theorem guards_of_mem_table : ∀ p ∈ table,
    (∀ c ∈ p.notAfter, c ∈ nowCompounds) ∧ ∀ c ∈ p.notBefore, c ∈ sundayCompounds := by
  have hall : ∀ p ∈ table, p.notAfter ⊆ nowCompounds ∧ p.notBefore ⊆ sundayCompounds := by
    decide +kernel
  exact fun p hp => ⟨fun c hc => (hall p hp).1 hc, fun c hc => (hall p hp).2 hc⟩

/-- These characters are not blank and have no other lower case. -/
theorem of_mem_compounds {c : Char} (h : c ∈ nowCompounds ++ sundayCompounds) :
    c.toLower = c ∧ isBlank c = false := by
  have hall : (nowCompounds ++ sundayCompounds).all
      (fun c => c.toLower == c && !isBlank c) = true := by decide +kernel
  simpa using List.all_eq_true.mp hall c h

/-- Where a phrase occurs stands a part of the text that is the phrase up to case, on its own if
it is an ASCII phrase. -/
theorem parts_of_mem_occurrences {p : Phrase} (hp : p ∈ table) {cs : List Char} {o : Occurrence}
    (h : o ∈ Text.occurrences cs p.text.toList) :
    ∃ front part back, cs = front ++ part ++ back ∧ part ≠ [] ∧ lower part = p.text.toList ∧
      o = .between front part back ∧ (isAsciiWord p.text.toList = true → o.isolated = true) := by
  obtain ⟨front, part, back, hcs, hpart, ho, hisolated⟩ := of_mem_occurrences h
  have hplain := isPlain_of_mem_table p hp
  rw [hplain.lower] at hpart hisolated
  have hne : part ≠ [] := fun hnil => hplain.ne_nil (by rw [← hpart, hnil]; rfl)
  exact ⟨front, part, back, hcs, hne, hpart, ho, hisolated⟩

/-- A phrase is not held back where no more of the characters that could do so are seen. -/
theorem accepts_of_seen {p : Phrase} (hp : p ∈ table) {before after before' after' : Option Char}
    (hbefore : ∀ c, before' = some c → seen (some c) = seen before ∨ c ∉ nowCompounds)
    (hafter : ∀ c, after' = some c → seen (some c) = seen after ∨ c ∉ sundayCompounds)
    (h : p.accepts before after = true) : p.accepts before' after' = true := by
  obtain ⟨hnotAfter, hnotBefore⟩ := guards_of_mem_table p hp
  simp only [accepts, Bool.and_eq_true, Bool.not_eq_true'] at h ⊢
  constructor
  · refine any_eq_false_of_seen (fun c hc => ?_)
      (fun c hc => (hbefore c hc).imp_right fun hnot => ?_) h.1
    · have hmem := hnotAfter c (List.contains_iff_mem.mp hc)
      exact (of_mem_compounds (List.mem_append_left _ hmem)).2
    · simpa using mt (hnotAfter c) hnot
  · refine any_eq_false_of_seen (fun c hc => ?_)
      (fun c hc => (hafter c hc).imp_right fun hnot => ?_) h.2
    · have hmem := hnotBefore c (List.contains_iff_mem.mp hc)
      exact (of_mem_compounds (List.mem_append_right _ hmem)).2
    · simpa using mt (hnotBefore c) hnot

end Phrase

namespace Resolution

variable {cs front part back left right : List Char} {span : Span}

/-- What is taken out of a text are its written dates and the phrases that stand for themselves. -/
theorem mem_timeSpans : span ∈ timeSpans cs ↔
    (∃ p ∈ DatePattern.all, ∃ found ∈ p.findAll cs, found.span = span) ∨
      ∃ p ∈ Phrase.table, ∃ o ∈ p.occurrences cs, o.span = span := by
  simp [timeSpans]

/-- What is taken out begins with a character that is not blank. -/
theorem exists_of_mem_timeSpans (h : span ∈ timeSpans cs) :
    ∃ front c part back, cs = front ++ c :: (part ++ back) ∧ isBlank c = false ∧
      span.start = byteLength front ∧ span.stop = byteLength (front ++ c :: part) := by
  rcases mem_timeSpans.mp h with ⟨p, -, found, hfound, rfl⟩ | ⟨p, hp, o, ho, rfl⟩
  · obtain ⟨front, c, part, back, hcs, hc, hplace⟩ :=
      (DatePattern.stands_of_mem_findAll hfound).exists_digit
    exact ⟨front, c, part, back, hcs, isBlank_of_isDigit hc, hplace⟩
  · obtain ⟨front, part, back, rfl, hne, hpart, rfl, -⟩ :=
      Phrase.parts_of_mem_occurrences hp (List.mem_filter.mp ho).1
    obtain ⟨c, part, rfl⟩ := List.exists_cons_of_ne_nil hne
    have hc := ((Phrase.isPlain_of_mem_table p hp).first c.toLower (by rw [← hpart]; rfl)).1
    refine ⟨front, c, part, back, List.append_assoc _ _ _, ?_, rfl, (byteLength_append _ _).symm⟩
    rwa [isBlank_toLower] at hc

/-- What is taken out consists of parts of the text. -/
theorem standsIn_of_mem_timeSpans : ∀ span ∈ timeSpans cs, span.StandsIn cs := by
  intro span h
  obtain ⟨front, c, part, back, hcs, -, hstart, hstop⟩ := exists_of_mem_timeSpans h
  refine ⟨front, c :: part, back, ?_, List.cons_ne_nil _ _, hstart, hstop⟩
  rw [hcs, List.append_assoc, List.cons_append]

/-- Stripping meets no fault. It makes a space of every character of a written date or a
phrase, and collapses the blanks. -/
theorem strip_eq (text : String) : strip text = .ok (String.ofList
    (collapse (masked (timeSpans text.toList) 0 text.toList))) := by
  unfold strip
  dsimp only
  rw [blankSpans_eq standsIn_of_mem_timeSpans, ← collapse_blanked standsIn_of_mem_timeSpans]
  rfl

/-- A text without superfluous blanks is left as it is if it speaks of no time, and only
then. -/
theorem strip_eq_self_iff {text : String} (h : collapse text.toList = text.toList) :
    strip text = .ok text ↔ timeSpans text.toList = [] := by
  rw [strip_eq]
  constructor
  · intro hself
    have hself : collapse (masked (timeSpans text.toList) 0 text.toList) = text.toList := by
      rw [← String.toList_ofList (l := collapse _), Except.ok.inj hself]
    by_contra hsome
    obtain ⟨span, hspan⟩ := List.exists_mem_of_ne_nil _ hsome
    obtain ⟨front, c, part, back, hcs, hc, hstart, hstop⟩ := exists_of_mem_timeSpans hspan
    have hcovered : isCovered (timeSpans text.toList) (byteLength front) = true := by
      refine isCovered_eq_true_iff.mpr ⟨span, hspan, Nat.le_of_eq hstart, ?_⟩
      rw [hstop, byteLength_append]
      exact Nat.lt_add_of_pos_right byteLength_pos
    have hfewer := countP_masked_lt hcs hc hcovered
    rw [List.countP_eq_length_filter, List.countP_eq_length_filter, ← filter_collapse,
      hself] at hfewer
    exact Nat.lt_irrefl _ hfewer
  · intro hnone
    rw [hnone, masked_none, h, String.ofList_toList]

/-- Without any match there is no written date. -/
theorem writtenDate?_eq_none (h : ∀ p ∈ DatePattern.all, p.findAll cs = []) :
    writtenDate? cs = none := by
  refine List.findSome?_eq_none_iff.mpr fun p hp => ?_
  rw [h p hp]
  rfl

/-- Without digits there is no written date. -/
theorem absoluteDate?_eq_none (h : HasNoDigit cs) (today : Date) :
    absoluteDate? cs today = none := by
  rw [absoluteDate?, writtenDate?_eq_none fun p _ => DatePattern.findAll_eq_nil h]
  rfl

/-- A text without written dates and phrases for times speaks of no time. -/
theorem resolve_of_timeSpans {text : String} (h : timeSpans text.toList = []) (now : Instant) :
    resolve text now = .ok none := by
  have hnot : ∀ span, span ∉ timeSpans text.toList := fun span => h ▸ List.not_mem_nil
  have hdates : writtenDate? text.toList = none := by
    refine writtenDate?_eq_none fun p hp => ?_
    refine List.eq_nil_iff_forall_not_mem.mpr fun found hfound => ?_
    exact hnot found.span (mem_timeSpans.mpr (.inl ⟨p, hp, found, hfound, rfl⟩))
  have hphrases : Phrase.mentioned text.toList = [] := by
    refine List.filter_eq_nil_iff.mpr fun p hp => ?_
    cases hfound : p.occurrences text.toList with
    | nil => simp
    | cons o rest =>
      refine absurd (mem_timeSpans.mpr (.inr ⟨p, hp, o, ?_, rfl⟩)) (hnot o.span)
      rw [hfound]
      exact List.mem_cons_self
  have habsolute : absoluteDate? text.toList now.date = none := by
    rw [absoluteDate?, hdates]
    rfl
  unfold resolve
  simp only [hphrases, habsolute]
  split <;> rfl

/-- No character that makes a phrase part of a longer word belongs to a date. -/
theorem not_mem_compounds {c : Char} (h : c.isDigit = true ∨ c = '日' ∨ c = '号') :
    c ∉ Phrase.nowCompounds ∧ c ∉ Phrase.sundayCompounds := by
  have hall : (Phrase.nowCompounds ++ Phrase.sundayCompounds).all
      (fun c => !c.isDigit && (c != '日' && c != '号')) = true := by decide +kernel
  have hnot : c ∉ Phrase.nowCompounds ++ Phrase.sundayCompounds := by
    intro hmem
    have hc := List.all_eq_true.mp hall c hmem
    simp only [Bool.and_eq_true, Bool.not_eq_true', bne_iff_ne] at hc
    rcases h with hdigit | rfl | rfl
    · rw [hc.1] at hdigit
      cases hdigit
    · exact hc.2.1 rfl
    · exact hc.2.2 rfl
  simpa using hnot

/-- A character `c` that is taken out directly beside one that is left, `d`, hides neither a
phrase nor a date there: it is not among the `compounds` that make a phrase part of a longer
word, no letter or digit beside another one, and may stand beside a date. -/
structure IsHarmless (compounds : List Char) (c d : Char) : Prop where
  compounds : c ∉ compounds
  alphanum : c.isAlphanum = true → d.isAlphanum = false
  date : d.isDigit = true → ∀ p ∈ DatePattern.all, p.allowsBeside c = true

/-- A character beside a text of letters and digits is none, if it is harmless beside one of
them. -/
theorem IsHarmless.isAlphanum_eq_false {compounds : List Char} {c d : Char}
    (h : IsHarmless compounds c d) (hd : d ∈ part) (hall : part.all Char.isAlphanum = true) :
    c.isAlphanum = false := by
  by_contra hc
  rw [Bool.not_eq_false] at hc
  have hdAlnum := List.all_eq_true.mp hall d hd
  rw [h.alphanum hc] at hdAlnum
  cases hdAlnum

/-- A character of a date is harmless beside one that is no letter or digit. -/
theorem isHarmless_of_date {compounds : List Char} {c d : Char} (hc : c ∉ compounds)
    (hd : d.isAlphanum = false) : IsHarmless compounds c d := by
  refine ⟨hc, fun _ => hd, fun hdigit => ?_⟩
  rw [Char.isAlphanum, hdigit, Bool.or_true] at hd
  cases hd

/-- A character of a phrase is harmless if its lower case is not among the compounds, and is a
letter or digit only in an ASCII phrase, beside which no other one stands. -/
theorem isHarmless_of_phrase {compounds : List Char} {p : Phrase} (hp : p ∈ Phrase.table)
    {c d : Char} (hmem : c.toLower ∈ p.text.toList) (hc : c.toLower ∉ compounds)
    (hcompounds : ∀ c ∈ compounds, c.toLower = c)
    (hword : c.toLower.isAlphanum = true → isAsciiWord p.text.toList = true)
    (hbeside : isAsciiWord p.text.toList = true → d.isAlphanum = false) :
    IsHarmless compounds c d := by
  rw [isAlphanum_toLower] at hword
  have hd : c.isAlphanum = true → d.isAlphanum = false := fun halnum => hbeside (hword halnum)
  refine ⟨fun hnot => hc ((hcompounds c hnot).symm ▸ hnot), hd, fun hdigit q hq => ?_⟩
  have hplace := (Phrase.isPlain_of_mem_table p hp).beside _ hmem q hq
  rw [isDigit_toLower,
    DatePattern.allowsBeside_toLower (DatePattern.isLetterless_of_mem_all q hq)] at hplace
  refine hplace.resolve_left fun hcDigit => ?_
  have hnot := hd (by rw [Char.isAlphanum, hcDigit, Bool.or_true])
  rw [Char.isAlphanum, hdigit, Bool.or_true] at hnot
  cases hnot

section DatesApart

variable {c d : Char} (hdates : DatesApart cs)
include hdates

/-- Beside a date that is taken out stands no letter or digit. The date begins with a digit,
and ends with a digit or a mark of the day. -/
theorem parts_of_mem_findAll {p : DatePattern} (hp : p ∈ DatePattern.all) {found : DateMatch}
    (h : found ∈ p.findAll cs) : ∃ front part back, cs = front ++ part ++ back ∧ part ≠ [] ∧
      found.span = ⟨byteLength front, byteLength (front ++ part)⟩ ∧
      (∀ c, part.head? = some c → c.isDigit = true) ∧
      (∀ c, part.getLast? = some c → c.isDigit = true ∨ c = '日' ∨ c = '号') ∧
      front.getLast?.any Char.isAlphanum = false ∧ back.head?.any Char.isAlphanum = false := by
  have hfound := DatePattern.mem_dates_of_mem_findAll h
  obtain ⟨front, part, back, rest, ⟨rfl, hspan, hread⟩, -⟩ := DatePattern.mem_dates_iff.mp hfound
  obtain ⟨hword, hfirst, hlast⟩ := DatePattern.shape_of_read? hp hread
  have hsides := hdates.untouched p hp found hfound (front.getLast?, back.head?)
    (by rw [hspan]; exact beside_between front part back)
  exact ⟨front, part, back, rfl, hword.ne_nil, by rw [hspan, byteLength_append], hfirst, hlast,
    hsides⟩

/-- A character that is taken out before one that is left hides nothing behind it. -/
theorem before_of_left (hcs : cs = front ++ c :: d :: back)
    (hc : isCovered (timeSpans cs) (byteLength front) = true)
    (hd : isCovered (timeSpans cs) (byteLength (front ++ [c])) = false) :
    IsHarmless Phrase.nowCompounds c d := by
  obtain ⟨span, hspan, hstop⟩ := exists_stop_eq standsIn_of_mem_timeSpans hcs hc hd
  have hends : ∀ {before part after}, cs = before ++ part ++ after → part ≠ [] →
      span.stop = byteLength (before ++ part) → part.getLast? = some c ∧ after = d :: back := by
    intro before part after hsplit hne hend
    have hsplit : before ++ part ++ after = (front ++ [c]) ++ d :: back := by
      rw [← hsplit, hcs, List.append_assoc, List.singleton_append]
    obtain ⟨hfront, hafter⟩ := eq_and_eq_of_byteLength_eq hsplit (hend.symm.trans hstop)
    have hlast := congrArg List.getLast? hfront
    rw [List.getLast?_append_of_ne_nil _ hne, List.getLast?_concat] at hlast
    exact ⟨hlast, hafter⟩
  rcases mem_timeSpans.mp hspan with ⟨p, hp, found, hfound, rfl⟩ | ⟨p, hp, o, ho, rfl⟩
  · obtain ⟨before, part, after, hsplit, hne, hplace, -, hshape, -, hafter⟩ :=
      parts_of_mem_findAll hdates hp hfound
    obtain ⟨hlast, rfl⟩ := hends hsplit hne (by rw [hplace])
    exact isHarmless_of_date (not_mem_compounds (hshape c hlast)).1 hafter
  · obtain ⟨before, part, after, hsplit, hne, hpart, rfl, hisolated⟩ :=
      Phrase.parts_of_mem_occurrences hp (List.mem_filter.mp ho).1
    obtain ⟨hlast, rfl⟩ := hends hsplit hne (byteLength_append _ _).symm
    have hlower : c.toLower ∈ p.text.toList.getLast? := by
      rw [← hpart, lower, List.getLast?_map, hlast]
      rfl
    obtain ⟨hnot, hword⟩ := (Phrase.isPlain_of_mem_table p hp).last _ hlower
    refine isHarmless_of_phrase hp (List.mem_of_getLast? hlower) hnot
      (fun c hmem => (Phrase.of_mem_compounds (List.mem_append_left _ hmem)).1) hword
      fun hascii => ?_
    simpa [Occurrence.between] using (Bool.and_eq_true_iff.mp (hisolated hascii)).2

/-- A character that is taken out after one that is left hides nothing before it. -/
theorem after_of_left (hcs : cs = front ++ d :: c :: back)
    (hd : isCovered (timeSpans cs) (byteLength front) = false)
    (hc : isCovered (timeSpans cs) (byteLength (front ++ [d])) = true) :
    IsHarmless Phrase.sundayCompounds c d := by
  have hopened := isOpened_of_isCovered standsIn_of_mem_timeSpans hcs hd hc
  obtain ⟨⟨span, hspan, hstart⟩, -⟩ := isOpened_eq_true_iff.mp hopened
  have hends : ∀ {before part after}, cs = before ++ part ++ after → part ≠ [] →
      span.start = byteLength before → part.head? = some c ∧ before = front ++ [d] := by
    intro before part after hsplit hne hbegin
    have hsplit : before ++ (part ++ after) = (front ++ [d]) ++ c :: back := by
      rw [← List.append_assoc, ← hsplit, hcs, List.append_assoc, List.singleton_append]
    obtain ⟨hbefore, hafter⟩ := eq_and_eq_of_byteLength_eq hsplit (hbegin.symm.trans hstart)
    have hfirst := congrArg List.head? hafter
    rw [List.head?_append_of_ne_nil _ hne, List.head?_cons] at hfirst
    exact ⟨hfirst, hbefore⟩
  rcases mem_timeSpans.mp hspan with ⟨p, hp, found, hfound, rfl⟩ | ⟨p, hp, o, ho, rfl⟩
  · obtain ⟨before, part, after, hsplit, hne, hplace, hshape, -, hbefore, -⟩ :=
      parts_of_mem_findAll hdates hp hfound
    obtain ⟨hfirst, rfl⟩ := hends hsplit hne (by rw [hplace])
    exact isHarmless_of_date (not_mem_compounds (.inl (hshape c hfirst))).2
      (by simpa using hbefore)
  · obtain ⟨before, part, after, hsplit, hne, hpart, rfl, hisolated⟩ :=
      Phrase.parts_of_mem_occurrences hp (List.mem_filter.mp ho).1
    obtain ⟨hfirst, rfl⟩ := hends hsplit hne rfl
    have hlower : c.toLower ∈ p.text.toList.head? := by
      rw [← hpart, lower, List.head?_map, hfirst]
      rfl
    obtain ⟨-, hnot, hword⟩ := (Phrase.isPlain_of_mem_table p hp).first _ hlower
    refine isHarmless_of_phrase hp (List.mem_of_mem_head? hlower) hnot
      (fun c hmem => (Phrase.of_mem_compounds (List.mem_append_right _ hmem)).1) hword
      fun hascii => ?_
    simpa [Occurrence.between] using (Bool.and_eq_true_iff.mp (hisolated hascii)).1

/-- A part without blanks that is left stood in the text. What was beside it is seen beside
it still, or hid nothing there. -/
theorem stands_of_left (hword : IsWord part)
    (hleft : collapse (masked (timeSpans cs) 0 cs) = left ++ part ++ right) :
    ∃ front back, cs = front ++ part ++ back ∧
      isCovered (timeSpans cs) (byteLength front) = false ∧
      (∀ c, front.getLast? = some c → seen (some c) = seen left.getLast? ∨
        ∃ d, part.head? = some d ∧ IsHarmless Phrase.nowCompounds c d) ∧
      ∀ c, back.head? = some c → seen (some c) = seen right.head? ∨
        ∃ d, part.getLast? = some d ∧ IsHarmless Phrase.sundayCompounds c d := by
  obtain ⟨front, back, hcs, hkept, hfront, hback⟩ := stands_of_collapse_masked hword hleft
  refine ⟨front, back, hcs, ?_, fun c hc => ?_, fun c hc => ?_⟩
  · obtain ⟨d, rest, rfl⟩ := List.exists_cons_of_ne_nil hword.ne_nil
    simpa using hkept [] d rest rfl
  · obtain ⟨before, rfl⟩ := List.getLast?_eq_some_iff.mp hc
    obtain ⟨d, rest, rfl⟩ := List.exists_cons_of_ne_nil hword.ne_nil
    refine (hfront before c rfl).imp_right fun hcovered => ?_
    have hsplit : cs = before ++ c :: d :: (rest ++ back) := by simp [hcs]
    exact ⟨d, rfl, before_of_left hdates hsplit hcovered (by simpa using hkept [] d rest rfl)⟩
  · obtain ⟨after, rfl⟩ := List.head?_eq_some_iff.mp hc
    obtain ⟨rest, d, rfl⟩ := (List.eq_nil_or_concat part).resolve_left hword.ne_nil
    rw [List.concat_eq_append] at *
    refine (hback c after rfl).imp_right fun hcovered => ?_
    have hsplit : cs = (front ++ rest) ++ d :: c :: after := by simp [hcs]
    exact ⟨d, by simp, after_of_left hdates hsplit (hkept rest d [] rfl)
      (by simpa using hcovered)⟩

/-- A word that is left stood on its own in the text if it does so now, and no phrase is held
back there that is not held back now. -/
theorem exists_occurrence_of_left {w : List Char} (hword : IsWord w) (hlower : lower w = w)
    (hhides : HidesNothing w) (halnum : isAsciiWord w = true → w.all Char.isAlphanum = true)
    (hleft : collapse (masked (timeSpans cs) 0 cs) = left ++ part ++ right)
    (hpart : lower part = w)
    (hisolated : isAsciiWord w = true → (Occurrence.between left part right).isolated = true) :
    ∃ front back, .between front part back ∈ occurrences cs w ∧
      isCovered (timeSpans cs) (byteLength front) = false ∧
      ∀ p ∈ Phrase.table, p.accepts left.getLast? right.head? = true →
        p.accepts front.getLast? back.head? = true := by
  have hpartWord : IsWord part := isWord_of_lower (hpart ▸ hword)
  obtain ⟨front, back, hcs, hkept, hbefore, hafter⟩ := stands_of_left hdates hpartWord hleft
  have hpartAlnum : isAsciiWord w = true → part.all Char.isAlphanum = true := by
    intro hascii
    rw [← halnum hascii, ← hpart, lower, List.all_map]
    exact congrArg part.all (funext fun c => (isAlphanum_toLower c).symm)
  refine ⟨front, back, ?_, hkept, fun p hp haccepts => ?_⟩
  · rw [hcs]
    refine mem_occurrences (by rw [hlower]; exact hhides.hidesNoOther)
      (hpart.trans hlower.symm) hpartWord.ne_nil fun hascii => ?_
    rw [hlower] at hascii
    have hisolated := hisolated hascii
    simp only [Occurrence.isolated, Occurrence.between, Bool.and_eq_true, Bool.not_eq_true']
      at hisolated ⊢
    have hclear := hpartAlnum hascii
    refine ⟨any_eq_false_of_seen (fun _ => isBlank_of_isAlphanum)
        (fun c hc => (hbefore c hc).imp_right ?_) hisolated.1,
      any_eq_false_of_seen (fun _ => isBlank_of_isAlphanum)
        (fun c hc => (hafter c hc).imp_right ?_) hisolated.2⟩
    · rintro ⟨_, hd, hharmless⟩
      exact hharmless.isAlphanum_eq_false (List.mem_of_mem_head? hd) hclear
    · rintro ⟨_, hd, hharmless⟩
      exact hharmless.isAlphanum_eq_false (List.mem_of_getLast? hd) hclear
  · refine Phrase.accepts_of_seen hp (fun c hc => (hbefore c hc).imp_right ?_)
      (fun c hc => (hafter c hc).imp_right ?_) haccepts
    · rintro ⟨_, _, hharmless⟩
      exact hharmless.compounds
    · rintro ⟨_, _, hharmless⟩
      exact hharmless.compounds

/-- The words of a phrase that is left stood on their own in the text. -/
theorem containsTerm_of_left {p : Phrase} (hp : p ∈ Phrase.table)
    (hleft : collapse (masked (timeSpans cs) 0 cs) = left ++ part ++ right)
    (hpart : lower part = p.text.toList)
    (hisolated : isAsciiWord p.text.toList = true →
      (Occurrence.between left part right).isolated = true) :
    ∀ w ∈ words p.text.toList, containsTerm cs w = true := by
  intro w hw
  obtain ⟨⟨hlower, hhides⟩, hascii⟩ := (Phrase.isPlain_of_mem_table p hp).words w hw
  obtain ⟨before, after, htext, hbefore, hafter⟩ := stands_of_mem_words hw
  obtain ⟨start, stop, rfl, hstart, rfl⟩ := List.map_eq_append_iff.mp (hpart.trans htext)
  obtain ⟨start, middle, rfl, rfl, hmiddle⟩ := List.map_eq_append_iff.mp hstart
  rw [List.getLast?_map] at hbefore
  rw [List.head?_map] at hafter
  obtain ⟨front, back, hmem, -⟩ := exists_occurrence_of_left hdates (isWord_of_mem_words w hw)
    hlower hhides (fun h => (hascii h).1) (by rw [hleft]; simp) hmiddle fun h =>
      isolated_of_isolated (hisolated (hascii h).2) (any_isAlphanum_of_seen hbefore)
        (any_isAlphanum_of_seen hafter)
  exact containsTerm_of_mem hmem

/-- A phrase that is left has several words, and each of them stood on its own in the text. A
phrase of one word would have been found where it stood, and been taken out. -/
theorem phrase_of_left {p : Phrase} (hp : p ∈ Phrase.table) {o : Occurrence}
    (ho : o ∈ p.occurrences (collapse (masked (timeSpans cs) 0 cs))) :
    ' ' ∈ p.text.toList ∧ ∀ w ∈ words p.text.toList, containsTerm cs w = true := by
  obtain ⟨hmem, haccepts⟩ := List.mem_filter.mp ho
  obtain ⟨left, part, right, hleft, -, hpart, rfl, hisolated⟩ :=
    Phrase.parts_of_mem_occurrences hp hmem
  have hplain := Phrase.isPlain_of_mem_table p hp
  refine ⟨?_, containsTerm_of_left hdates hp hleft hpart hisolated⟩
  by_contra hspace
  have hword : IsWord p.text.toList := by
    refine ⟨hplain.ne_nil, fun c hc => ?_⟩
    by_contra hblank
    rw [Bool.not_eq_false] at hblank
    exact hspace (hplain.blanks c hc hblank ▸ hc)
  obtain ⟨⟨-, hhides⟩, hascii⟩ := hplain.words p.text.toList
    (by rw [words_of_isWord hword]; exact List.mem_singleton_self _)
  obtain ⟨front, back, hfound, hkept, hguards⟩ := exists_occurrence_of_left hdates hword
    hplain.lower hhides (fun h => (hascii h).1) hleft hpart hisolated
  have hspan : (Occurrence.between front part back).span ∈ timeSpans cs :=
    mem_timeSpans.mpr (.inr ⟨p, hp, _, List.mem_filter.mpr ⟨hfound, hguards p hp haccepts⟩, rfl⟩)
  have hlt := (standsIn_of_mem_timeSpans _ hspan).lt
  have hcovered : isCovered (timeSpans cs) (byteLength front) = true :=
    isCovered_eq_true_iff.mpr ⟨_, hspan, Nat.le_refl _, hlt⟩
  rw [hkept] at hcovered
  cases hcovered

/-- A date that is left was a date of the text already, and no part of one that is found. -/
theorem exists_date_of_left {p : DatePattern} (hp : p ∈ DatePattern.all) {found : DateMatch}
    (hfound : found ∈ p.findAll (collapse (masked (timeSpans cs) 0 cs))) :
    ∃ b ∈ p.dates cs, isCovered (timeSpans cs) b.span.start = false := by
  obtain ⟨left, part, right, rest, ⟨hleft, -, hread⟩, hbeside⟩ :=
    DatePattern.standsApart_of_mem_findAll hfound
  obtain ⟨hword, hfirst, -⟩ := DatePattern.shape_of_read? hp hread
  obtain ⟨front, back, hcs, hkept, hbefore, hafter⟩ := stands_of_left hdates hword hleft
  have hfront : ∀ c, front.getLast? = some c → p.allowsBeside c = true := by
    intro c hc
    rcases hbefore c hc with hseen | ⟨d, hd, hharmless⟩
    · exact (DatePattern.allowsBeside_of_seen hp hseen).elim (hbeside c) id
    · exact hharmless.date (hfirst d hd) p hp
  have hback : ∀ d, part.getLast? = some d → d.isDigit = true →
      ∀ c, back.head? = some c → right.head? = some c ∨ p.allowsBeside c = true := by
    intro d hd hdigit c hc
    rcases hafter c hc with hseen | ⟨d', hd', hharmless⟩
    · exact DatePattern.allowsBeside_of_seen hp hseen
    · obtain rfl : d = d' := Option.some_inj.mp (hd.symm.trans hd')
      exact .inr (hharmless.date hdigit p hp)
  obtain ⟨after, rest', hread'⟩ := DatePattern.exists_read?_of_next hp hread hback
  have hstands := ((DatePattern.readsAt_iff hread').mpr rfl).standsApart front hfront
  rw [← List.append_assoc, ← hcs] at hstands
  exact ⟨_, DatePattern.mem_dates_iff.mpr hstands, hkept⟩

/-- No written date is left of a text whose dates stand apart. -/
theorem findAll_of_left {p : DatePattern} (hp : p ∈ DatePattern.all) :
    p.findAll (collapse (masked (timeSpans cs) 0 cs)) = [] := by
  refine List.eq_nil_iff_forall_not_mem.mpr fun found hfound => ?_
  obtain ⟨b, hb, hkept⟩ := exists_date_of_left hdates hp hfound
  obtain ⟨a, ha, hstart, hstop⟩ := hdates.exists_found hp hb
  have hspan : a.span ∈ timeSpans cs := mem_timeSpans.mpr (.inl ⟨p, hp, a, ha, rfl⟩)
  rw [isCovered_eq_true_iff.mpr ⟨a.span, hspan, hstart, hstop⟩] at hkept
  cases hkept

end DatesApart

/-- Nothing that speaks of a time is left of a text whose dates stand apart, unless the text has
all the words of a phrase of several words. What is left then speaks of no time, seen from
anywhere, and stripping it again does not change it. A text without digits has no dates that
could stand too close. -/
theorem strip_complete (text : String) (hdates : DatesApart text.toList)
    (hwords : ∀ p ∈ Phrase.table, ' ' ∈ p.text.toList →
      ∃ w ∈ words p.text.toList, containsTerm text.toList w = false) :
    ∃ rest, strip text = .ok rest ∧ timeSpans rest.toList = [] ∧
      (∀ now, resolve rest now = .ok none) ∧ strip rest = .ok rest := by
  have hnone : timeSpans (collapse (masked (timeSpans text.toList) 0 text.toList)) = [] := by
    refine List.eq_nil_iff_forall_not_mem.mpr fun span hspan => ?_
    rcases mem_timeSpans.mp hspan with ⟨p, hp, found, hfound, -⟩ | ⟨p, hp, o, ho, -⟩
    · rw [findAll_of_left hdates hp] at hfound
      cases hfound
    · obtain ⟨hspace, hall⟩ := phrase_of_left hdates hp ho
      obtain ⟨w, hw, hmissing⟩ := hwords p hp hspace
      rw [hall w hw] at hmissing
      cases hmissing
  refine ⟨_, strip_eq text, ?_, ?_, ?_⟩
  · rw [String.toList_ofList, hnone]
  · exact resolve_of_timeSpans (by rw [String.toList_ofList, hnone])
  · rw [strip_eq_self_iff (by rw [String.toList_ofList, collapse_collapse]),
      String.toList_ofList, hnone]

/-- Dates in three notations and two phrases go. What is no date and a word of a third phrase
stay. -/
theorem strip_complete_of_two_phrases :
    let text := "1月21日下午和Alice开会, 3/4 or 03-15, 1/2/3, this tonight"
    DatesApart text.toList ∧
    (∀ p ∈ Phrase.table, ' ' ∈ p.text.toList →
      ∃ w ∈ words p.text.toList, containsTerm text.toList w = false) ∧
    strip text = .ok "和Alice开会, or , 1/2/3, this" ∧
    ∃ rest, strip text = .ok rest ∧ timeSpans rest.toList = [] ∧
      (∀ now, resolve rest now = .ok none) ∧ strip rest = .ok rest := by
  intro text
  have hdates : DatesApart text.toList := by decide +kernel
  have hwords : ∀ p ∈ Phrase.table, ' ' ∈ p.text.toList →
      ∃ w ∈ words p.text.toList, containsTerm text.toList w = false := by decide +kernel
  have hspans : timeSpans text.toList = [⟨0, 9⟩, ⟨38, 43⟩, ⟨31, 34⟩, ⟨9, 15⟩, ⟨57, 64⟩] := by
    decide +kernel
  refine ⟨hdates, hwords, ?_, strip_complete text hdates hwords⟩
  rw [strip_eq, hspans]
  decide +kernel

/-- The space between two dates belongs to the match of the first one, so that the second one
is not seen. It is left, and is found and taken out when the text is stripped again. -/
theorem strip_leaves_date :
    ∃ rest, strip "1/21 3/4" = .ok rest ∧ timeSpans rest.toList ≠ [] ∧ strip rest ≠ .ok rest ∧
      resolve rest (Instant.midnight Date.first) ≠ .ok none := by
  have hrest : timeSpans "3/4".toList ≠ [] ∧
      resolve "3/4" (Instant.midnight Date.first) ≠ .ok none := by decide +kernel
  refine ⟨"3/4", ?_, hrest.1, mt (strip_eq_self_iff (by decide)).mp hrest.1, hrest.2⟩
  rw [strip_eq]
  decide +kernel

/-- The words of a phrase that stood apart make up the phrase when what was between them is
gone. -/
example : strip "this today week" = .ok "this week" := by
  rw [strip_eq]
  decide +kernel

end Resolution

end Daybook
