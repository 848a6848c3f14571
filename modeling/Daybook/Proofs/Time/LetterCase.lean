import Daybook.Proofs.Text.LetterCase
import Daybook.Proofs.Time.Stripping

/-!
# Times in lower case

The marks of written dates and the characters that hold phrases back are no letters, so that
times are found at the same places of a text and of its lower case. Both are resolved to the
same time, and the same is left of both up to case.
-/

namespace Daybook

open Text

/-- Digits are read off a text in lower case as off the text. -/
theorem Numeric.readDigits?_lower (count : Nat) (cs : List Char) :
    readDigits? count (lower cs) =
      (readDigits? count cs).map fun (n, rest) => (n, lower rest) := by
  have htake : (lower cs).take count = lower (cs.take count) := List.map_take.symm
  have hdrop : (lower cs).drop count = lower (cs.drop count) := List.map_drop.symm
  unfold readDigits?
  simp only [htake, hdrop, length_lower, all_lower isDigit_toLower]
  split
  · rename_i hdigits
    rw [Bool.and_eq_true, List.all_eq_true] at hdigits
    rw [lower_of_digits hdigits.2, Option.map_some]
  · rfl

namespace DatePattern

/-- A number is read off a text in lower case as off the text. -/
theorem readNumber?_lower (cs : List Char) :
    readNumber? (lower cs) = (readNumber? cs).map fun (n, rest) => (n, lower rest) := by
  simp only [readNumber?, Numeric.readDigits?_lower]
  cases Numeric.readDigits? 2 cs <;> rfl

/-- The marks of a day have no case. -/
theorem startsWithDayMark_lower (cs : List Char) :
    startsWithDayMark (lower cs) = startsWithDayMark cs := by
  have hmark : ∀ c : Char, (c.toLower == '日' || c.toLower == '号') = (c == '日' || c == '号') :=
    fun c => by rw [beq_toLower rfl, beq_toLower rfl]
  cases cs with
  | nil => rfl
  | cons c cs => exact hmark c

variable {p : DatePattern} (hp : p.IsLetterless)
include hp

/-- A year is read off a text in lower case as off the text. -/
theorem readYear?_lower (cs : List Char) :
    p.readYear? (lower cs) = (p.readYear? cs).map fun (year, rest) => (year, lower rest) := by
  unfold readYear?
  cases hmark : p.yearMark with
  | none => rfl
  | some mark =>
    simp only [Numeric.readDigits?_lower]
    cases Numeric.readDigits? 4 cs with
    | none => rfl
    | some found =>
      simp only [Option.map_some, Option.bind_eq_bind, Option.bind_some,
        readMark?_lower (hp.yearMark mark hmark)]
      cases readMark? mark found.2 <;> rfl

/-- The closing character of a date is read off a text in lower case as off the text. -/
theorem readClosing?_lower (cs : List Char) :
    p.readClosing? (lower cs) = (p.readClosing? cs).map lower := by
  cases cs with
  | nil => rfl
  | cons c cs =>
    simp only [lower_cons, readClosing?, allowsBeside_toLower hp]
    split <;> rfl

/-- The end of a date is read off a text in lower case as off the text. -/
theorem readEnd?_lower (cs : List Char) :
    p.readEnd? (lower cs) =
      (p.readEnd? cs).map fun (after, rest) => (lower after, lower rest) := by
  have hlonger : (if p.dayMark && startsWithDayMark (lower cs) then (lower cs).tail
      else lower cs) = lower (if p.dayMark && startsWithDayMark cs then cs.tail else cs) := by
    rw [startsWithDayMark_lower]
    split
    · exact List.map_tail.symm
    · rfl
  simp only [readEnd?, hlonger, readClosing?_lower hp]
  split
  · cases p.readClosing? (if p.dayMark && startsWithDayMark cs then cs.tail else cs) with
    | some rest => rfl
    | none => cases p.readClosing? cs <;> rfl
  · rfl

/-- A date is read off a text in lower case as off the text. -/
theorem read?_lower (cs : List Char) : p.read? (lower cs) =
    (p.read? cs).map fun (date, after, rest) => (date, lower after, lower rest) := by
  simp only [read?, readYear?_lower hp]
  cases p.readYear? cs with
  | none => rfl
  | some year =>
    simp only [Option.map_some, Option.bind_eq_bind, Option.bind_some, readNumber?_lower]
    cases readNumber? year.2 with
    | none => rfl
    | some month =>
      simp only [Option.map_some, Option.bind_some, readMark?_lower hp.monthMark]
      cases readMark? p.monthMark month.2 with
      | none => rfl
      | some rest =>
        simp only [Option.map_some, Option.bind_some, readNumber?_lower]
        cases readNumber? rest with
        | none => rfl
        | some day =>
          simp only [Option.map_some, Option.bind_some, readEnd?_lower hp]
          cases p.readEnd? day.2 <;> rfl

/-- A scan finds the same dates in a text and in its lower case. -/
theorem matchesFrom_lower (skip offset : Nat) (cs : List Char) :
    p.matchesFrom skip offset (lower cs) = p.matchesFrom skip offset cs := by
  induction cs generalizing skip offset with
  | nil => rfl
  | cons c cs ih =>
    cases skip with
    | succ skip => simp only [lower_cons, matchesFrom, utf8Size_toLower, ih]
    | zero =>
      have hread : (if p.allowsBeside c then p.read? (lower cs) else none) =
          (if p.allowsBeside c then p.read? cs else none).map
            fun (date, after, rest) => (date, lower after, lower rest) := by
        rw [read?_lower hp]
        split <;> rfl
      simp only [lower_cons, matchesFrom, utf8Size_toLower, allowsBeside_toLower hp, hread]
      cases if p.allowsBeside c then p.read? cs else none with
      | none => exact ih _ _
      | some found => simp only [Option.map_some, byteLength_lower, length_lower, ih]

/-- Dates are written in a text and in its lower case at the same places. -/
theorem findAll_lower (cs : List Char) : p.findAll (lower cs) = p.findAll cs := by
  simp only [findAll, read?_lower hp]
  cases p.read? cs with
  | none => exact matchesFrom_lower hp 0 0 cs
  | some found =>
    simp only [Option.map_some, byteLength_lower, length_lower, matchesFrom_lower hp]

end DatePattern

namespace Phrase

variable {p : Phrase}

/-- The characters that hold a phrase back are no letters. -/
theorem accepts_lower (hp : p ∈ table) (before after : Option Char) :
    p.accepts (before.map Char.toLower) (after.map Char.toLower) = p.accepts before after := by
  have hall : (nowCompounds ++ sundayCompounds).all (!·.isAlpha) = true := by rfl
  have hplain : ∀ {marks : List Char}, (∀ c ∈ marks, c ∈ nowCompounds ++ sundayCompounds) →
      marks.all (!·.isAlpha) = true := fun h =>
    List.all_eq_true.mpr fun c hc => List.all_eq_true.mp hall c (h c hc)
  obtain ⟨hnotAfter, hnotBefore⟩ := guards_of_mem_table p hp
  have hafter := hplain fun c hc => List.mem_append_left sundayCompounds (hnotAfter c hc)
  have hbefore := hplain fun c hc => List.mem_append_right nowCompounds (hnotBefore c hc)
  rw [accepts, any_map_toLower (contains_toLower hafter),
    any_map_toLower (contains_toLower hbefore), accepts]

/-- A phrase occurs in a text in lower case where it occurs in the text. -/
theorem occurrences_lower (hp : p ∈ table) (cs : List Char) :
    p.occurrences (lower cs) = (p.occurrences cs).map Occurrence.lower := by
  unfold occurrences
  rw [Text.occurrences_lower, List.filter_map]
  refine congrArg _ (List.filter_congr fun o _ => ?_)
  exact accepts_lower hp o.before o.after

/-- A text and its lower case mention the same phrases. -/
theorem mentioned_lower (cs : List Char) : mentioned (lower cs) = mentioned cs := by
  refine List.filter_congr fun p hp => ?_
  rw [occurrences_lower hp, List.isEmpty_map]

end Phrase

namespace Resolution

/-- A text and its lower case have the same date written in them. -/
theorem absoluteDate?_lower (cs : List Char) (today : Date) :
    absoluteDate? (lower cs) today = absoluteDate? cs today := by
  have hwritten : writtenDate? (lower cs) = writtenDate? cs := by
    rw [writtenDate?, writtenDate?, ← List.head?_filterMap, ← List.head?_filterMap]
    refine congrArg _ (List.filterMap_congr fun p hp => ?_)
    rw [DatePattern.findAll_lower (DatePattern.isLetterless_of_mem_all p hp)]
  rw [absoluteDate?, hwritten, absoluteDate?]

/-- The same spans of a text and of its lower case speak of times. -/
theorem timeSpans_lower (cs : List Char) : timeSpans (lower cs) = timeSpans cs := by
  unfold timeSpans
  congr 1
  · refine List.flatMap_congr fun p hp => ?_
    rw [DatePattern.findAll_lower (DatePattern.isLetterless_of_mem_all p hp)]
  · refine List.flatMap_congr fun p hp => ?_
    rw [Phrase.occurrences_lower hp, List.map_map]
    rfl

/-- A text in lower case speaks of the time that the text speaks of. -/
theorem resolve_inLowerCase (text : String) (now : Instant) :
    resolve (inLowerCase text) now = resolve text now := by
  simp only [resolve, toList_inLowerCase, allBlank_lower, Phrase.mentioned_lower,
    absoluteDate?_lower]

/-- What stripping leaves of a text in lower case is what it leaves of the text, in lower
case. -/
theorem strip_inLowerCase (text : String) :
    strip (inLowerCase text) = (strip text).map inLowerCase := by
  rw [strip_eq, strip_eq, toList_inLowerCase, timeSpans_lower, masked_lower, collapse_lower,
    Except.map, inLowerCase_ofList]

end Resolution

end Daybook
