import Daybook.Proofs.Time.Composition
import Daybook.Proofs.Time.JoinedPhrases

/-!
# Labels

The label of a range that phrases speak of is made of the labels of the phrases that were
chosen. As a text it speaks of the same day, week and part of a day, so that it is resolved to
the same range under the same label.
-/

namespace Daybook

namespace Phrase

variable {p q day day' week week' : Phrase} {cs : List Char} {leaders : List Phrase}
  {found : Option (Int × String)}

/-- A phrase of the table that is the label of another one, and refers to the same. -/
structure Represents (q p : Phrase) : Prop where
  mem : q ∈ table
  text : q.text = p.label
  label : q.label = p.label
  anchor : q.anchor = p.anchor

/-- The label of each phrase is a phrase of the table. -/
theorem exists_represents (hp : p ∈ table) : ∃ q : Phrase, q.Represents p := by
  have hall : ∀ p ∈ table, ∃ q ∈ table, q.text = p.label ∧ q.label = p.label ∧
      q.anchor = p.anchor := by
    decide +kernel
  obtain ⟨q, hq, htext, hlabel, hanchor⟩ := hall p hp
  exact ⟨q, hq, htext, hlabel, hanchor⟩

/-- Some phrases tell a day: one of them has its anchor and its label, and where it is a day of
the week, another one those of the week, if it has one. -/
structure Tell (leaders : List Phrase) (day : Phrase) (week : Option (Int × String)) : Prop where
  ofDay : ∃ p ∈ leaders, p.anchor = day.anchor ∧ p.label = day.label ∧
    ∀ q ∈ leaders, q.anchor.isDay = true → q = p
  ofWeek : day.anchor.isWeekday = true → ∀ found, week = some found → ∃ p ∈ leaders,
    p.anchor = .week found.1 ∧ p.label = found.2 ∧ ∀ q ∈ leaders, q.anchor.isWeek = true → q = p
  noWeek : day.anchor.isWeekday = true → week = none → ∀ q ∈ leaders, q.anchor.isWeek = false

/-- A phrase alone tells a day that needs no week. -/
theorem Represents.tell (h : day'.Represents day) (hisDay : day.anchor.isDay = true)
    (hweek : day.anchor.isWeekday = true → found = none) : Tell [day'] day found := by
  constructor
  · exact ⟨day', List.mem_singleton_self day', h.anchor, h.label,
      fun q hq _ => List.mem_singleton.mp hq⟩
  · intro hweekday week hsome
    rw [hweek hweekday] at hsome
    cases hsome
  · intro _ _ q hq
    rw [List.mem_singleton.mp hq, h.anchor]
    exact (Anchor.of_isDay hisDay).1

/-- A day of the week and a week tell the day, whichever stands first. -/
theorem Represents.tell_week {offset : Int} (h : day'.Represents day)
    (hweek : week'.Represents week) (hisDay : day.anchor.isDay = true)
    (hanchor : week.anchor = .week offset)
    (hmem : ∀ q, q ∈ leaders ↔ q = day' ∨ q = week') :
    Tell leaders day (some (offset, week.label)) := by
  have hisWeek : week.anchor.isWeek = true := by rw [hanchor]; rfl
  constructor
  · refine ⟨day', (hmem _).mpr (.inl rfl), h.anchor, h.label, fun q hq hqDay => ?_⟩
    rcases (hmem q).mp hq with rfl | rfl
    · rfl
    · rw [hweek.anchor, (Anchor.of_isWeek hisWeek).1] at hqDay
      cases hqDay
  · rintro - found ⟨⟩
    refine ⟨week', (hmem _).mpr (.inr rfl), hweek.anchor.trans hanchor, hweek.label,
      fun q hq hqWeek => ?_⟩
    rcases (hmem q).mp hq with rfl | rfl
    · rw [h.anchor, (Anchor.of_isDay hisDay).1] at hqWeek
      cases hqWeek
    · rfl
  · rintro - ⟨⟩

/-- A part of a day leaves the day that is told as it is. -/
theorem Tell.concat (h : Tell leaders day found) (hp : p.anchor.isDayPart = true) :
    Tell (leaders ++ [p]) day found := by
  have hkind : p.anchor.isDay = false ∧ p.anchor.isWeek = false := by
    cases hanchor : p.anchor <;> simp_all [Anchor.isDay, Anchor.isDayPart, Anchor.isWeek]
  have hothers : ∀ {wants : Anchor → Bool} {s : Phrase}, wants p.anchor = false →
      (∀ q ∈ leaders, wants q.anchor = true → q = s) →
        ∀ q ∈ leaders ++ [p], wants q.anchor = true → q = s := by
    intro wants s hnot hs q hq hwants
    rcases List.mem_append.mp hq with hq | hq
    · exact hs q hq hwants
    · rw [List.mem_singleton.mp hq, hnot] at hwants
      cases hwants
  constructor
  · obtain ⟨s, hs, hanchor, hlabel, honly⟩ := h.ofDay
    exact ⟨s, List.mem_append_left _ hs, hanchor, hlabel, hothers hkind.1 honly⟩
  · intro hweekday week hsome
    obtain ⟨s, hs, hanchor, hlabel, honly⟩ := h.ofWeek hweekday week hsome
    exact ⟨s, List.mem_append_left _ hs, hanchor, hlabel, hothers hkind.2 honly⟩
  · intro hweekday hnone q hq
    rcases List.mem_append.mp hq with hq | hq
    · exact h.noWeek hweekday hnone q hq
    · rw [List.mem_singleton.mp hq]
      exact hkind.2

end Phrase

namespace Resolution

open Phrase

variable {now : Instant} {r : Range} {day day' : Phrase} {week : Option (Int × String)}
  {date : Date} {label : String} {part : Option (DayPart × String)} {phrases : List Phrase}

/-- The label of a day, with its week where the day is one of the week. -/
def dayLabel (day : Phrase) (week : Option (Int × String)) : String :=
  match day.anchor, week with
  | .weekday _, some (_, weekLabel) =>
    if isAscii weekLabel then day.label ++ " " ++ weekLabel
    else weekLabel ++ String.ofList (day.label.toList.dropWhile (· == '周'))
  | _, _ => day.label

/-- The label of a day tells how it was found. -/
theorem label_of_dayOf (h : dayOf day week now = .ok (some (date, label))) :
    label = dayLabel day week := by
  unfold dayOf at h
  unfold dayLabel
  cases hanchor : day.anchor with
  | day offset =>
    simp only [hanchor] at h
    obtain ⟨found, -, heq⟩ := Option.map_eq_some_iff.mp (Except.ok.inj h)
    cases heq
    rfl
  | weekday index =>
    simp only [hanchor] at h
    cases week with
    | none =>
      obtain ⟨found, -, heq⟩ := Option.map_eq_some_iff.mp (Except.ok.inj h)
      cases heq
      rfl
    | some found =>
      obtain ⟨monday, -, h⟩ := bind_eq_ok_iff.mp h
      obtain ⟨found, -, heq⟩ := Option.map_eq_some_iff.mp (Except.ok.inj h)
      cases heq
      rfl
  | _ =>
    simp only [hanchor] at h
    cases h

/-- A day depends on the anchor and the label of its phrase, and only a day of the week on the
week. -/
theorem dayOf_congr {week' : Option (Int × String)} (hanchor : day'.anchor = day.anchor)
    (hlabel : day'.label = day.label) (hweek : day.anchor.isWeekday = true → week' = week) :
    dayOf day' week' now = dayOf day week now := by
  unfold dayOf
  rw [hanchor, hlabel]
  cases hday : day.anchor with
  | weekday index => rw [hweek (by rw [hday]; rfl)]
  | _ => rfl

/-- The label of its range has that of the part of the day behind it. -/
theorem label_of_dayRange (h : dayRange date label part = .ok (some r)) :
    r.label = part.elim label fun found => joinLabels label found.2 := by
  have hmake : ∀ {start stop : Instant} {label : String},
      Range.make? start stop label = some r → r.label = label := by
    intro start stop label hr
    obtain ⟨-, heq⟩ := Option.ite_none_right_eq_some.mp hr
    cases heq
    rfl
  unfold dayRange at h
  cases part with
  | none =>
    obtain ⟨stop, -, h⟩ := bind_eq_ok_iff.mp h
    exact hmake (Except.ok.inj h)
  | some found =>
    obtain ⟨start, -, h⟩ := bind_eq_ok_iff.mp h
    obtain ⟨stop, -, h⟩ := bind_eq_ok_iff.mp h
    exact hmake (Except.ok.inj h)

variable {cs : List Char} {leaders : List Phrase} {s : Phrase}

/-- A text speaks of a day, with its week where the day is one of the week, and of no part of
it. -/
def SpeaksOfDay (cs : List Char) (day : Phrase) (week : Option (Int × String)) : Prop :=
  ∃ leaders, SpeaksOf cs leaders ∧ Tell leaders day week ∧
    ∀ q ∈ leaders, q.anchor.isDayPart = false

/-- The label of a phrase for a day speaks of the day, if this needs no week. -/
theorem speaksOfDay_label (hday : day ∈ table) (hisDay : day.anchor.isDay = true)
    (hweek : day.anchor.isWeekday = true → week = none) :
    SpeaksOfDay day.label.toList day week := by
  obtain ⟨day', hday'⟩ := exists_represents hday
  have hleader : day'.IsLeader := isLeader_of_mem_table hday'.mem (by simp [hday'.anchor, hisDay])
  refine ⟨[day'], ?_, hday'.tell hisDay hweek, fun q hq => ?_⟩
  · rw [← hday'.text]
    exact hleader.speaksOf
  · rw [List.mem_singleton.mp hq, hday'.anchor]
    exact (Anchor.of_isDay hisDay).2

/-- The label of a day of the week and of its week speaks of both. -/
theorem speaksOfDay_weekday {found : Phrase} {index : Nat} {offset : Int} (hday : day ∈ table)
    (hanchor : day.anchor = .weekday index) (hfound : found ∈ table)
    (hweek : found.anchor = .week offset) :
    SpeaksOfDay (dayLabel day (some (offset, found.label))).toList day
      (some (offset, found.label)) := by
  obtain ⟨day', hday'⟩ := exists_represents hday
  obtain ⟨week', hweek'⟩ := exists_represents hfound
  have hisDay : day.anchor.isDay = true := by rw [hanchor]; rfl
  have hisWeekday : day'.anchor.isWeekday = true := by rw [hday'.anchor, hanchor]; rfl
  have hisWeek : week'.anchor.isWeek = true := by rw [hweek'.anchor, hweek]; rfl
  have hleader : day'.IsLeader := isLeader_of_mem_table hday'.mem (by simp [hday'.anchor, hisDay])
  have hweekLeader : week'.IsLeader := isLeader_of_mem_table hweek'.mem (by simp [hisWeek])
  have hnoParts : day'.anchor.isDayPart = false ∧ week'.anchor.isDayPart = false :=
    ⟨hday'.anchor ▸ (Anchor.of_isDay hisDay).2, (Anchor.of_isWeek hisWeek).2⟩
  unfold SpeaksOfDay
  simp only [dayLabel, hanchor]
  split
  · refine ⟨[day'] ++ [week'], ?_, hday'.tell_week hweek' hisDay hweek (by simp),
      by simpa using hnoParts⟩
    rw [String.toList_append, String.toList_append, ← hday'.text, ← hweek'.text,
      List.append_assoc]
    exact hleader.speaksOf.append_space hweekLeader (by simp [hisWeek])
  · rename_i hascii
    refine ⟨[week', day'], ?_, hday'.tell_week hweek' hisDay hweek (by simp [or_comm]),
      by simpa using hnoParts.symm⟩
    rw [Bool.not_eq_true, ← hweek'.text] at hascii
    rw [String.toList_append, String.toList_ofList, ← hday'.text, ← hweek'.text]
    exact speaksOf_weekday_of_week hweekLeader hleader hisWeek hisWeekday
      (hday'.text.trans hday'.label.symm) hascii

/-- The label of a day speaks of the day, and of its week. -/
theorem speaksOfDay_dayLabel (hday : day ∈ table) (hisDay : day.anchor.isDay = true)
    (hweek : ∀ found, week = some found →
      ∃ p ∈ table, p.anchor = .week found.1 ∧ p.label = found.2) :
    SpeaksOfDay (dayLabel day week).toList day week := by
  cases hanchor : day.anchor with
  | weekday index =>
    cases hfound : week with
    | none =>
      have hlabel : dayLabel day none = day.label := by simp [dayLabel, hanchor]
      rw [hlabel]
      exact speaksOfDay_label hday hisDay fun _ => rfl
    | some found =>
      obtain ⟨offset, weekLabel⟩ := found
      obtain ⟨p, hp, hweekAnchor, rfl⟩ := hweek _ hfound
      exact speaksOfDay_weekday hday hanchor hp hweekAnchor
  | _ =>
    have hlabel : dayLabel day week = day.label := by simp [dayLabel, hanchor]
    rw [hlabel]
    exact speaksOfDay_label hday hisDay (by simp [hanchor, Anchor.isWeekday])

/-- Behind the label of a day, the label of a part of it speaks of that part besides. -/
theorem speaksOf_joinLabels (h : SpeaksOf label.toList leaders) (hs : s.IsLeader)
    (hpart : s.anchor.isDayPart = true) (hothers : ∀ q ∈ leaders, q.anchor.isDayPart = false) :
    SpeaksOf (joinLabels label s.text).toList (leaders ++ [s]) := by
  have hne : label.isEmpty = false :=
    String.isEmpty_eq_false_iff.mpr (mt String.toList_eq_nil_iff.mpr h.ne_nil)
  unfold joinLabels
  rw [hne, if_neg (by decide)]
  split
  · rw [String.toList_append, String.toList_append, List.append_assoc]
    exact h.append_space hs (by simp [hpart])
  · rename_i hascii
    rw [String.toList_append]
    refine h.append_dayPart hs hpart ?_ hothers
    simp only [Bool.or_eq_true, not_or, Bool.not_eq_true] at hascii
    exact hascii.2

/-- A text that speaks of some phrases is resolved to what they speak of. -/
theorem resolve_of_speaksOf {text : String} (h : SpeaksOf text.toList leaders)
    (hr : ofPhrases (mentioned text.toList) now = .ok (some r)) :
    resolve text now = .ok (some ⟨r, .relative⟩) := by
  refine resolve_eq_relative_iff.mpr ⟨?_, ?_, hr⟩
  · obtain ⟨p, hp, -⟩ := h.ending
    obtain ⟨front, back, htext, -⟩ := h.standing p hp
    have hblank := (holds_itself p (h.isLeader p hp).mem).1
    unfold Text.allBlank at *
    simp [htext, hblank]
  · exact absoluteDate?_eq_none h.hasNoDigit now.date

/-- A text that tells a day speaks of it. -/
theorem ofPhrases_of_tell (h : SpeaksOf cs leaders) (htell : Tell leaders day week)
    (hisDay : day.anchor.isDay = true)
    (hdate : dayOf day week now = .ok (some (date, label))) :
    ofPhrases (mentioned cs) now = dayRange date label (bestDayPart? (mentioned cs)) := by
  obtain ⟨p, hp, hanchor, hlabel, honly⟩ := htell.ofDay
  have hday := h.isPreferred (fun a b hab => (Anchor.kinds_of_tier_eq hab).1) hp
    (hanchor ▸ hisDay) honly
  have hweek : day.anchor.isWeekday = true → bestWeek? (mentioned cs) = week := by
    intro hweekday
    cases hfound : week with
    | none =>
      exact bestWeek?_eq_none_iff.mpr (h.eq_false_of_mem_mentioned
        (fun a b hab => (Anchor.kinds_of_tier_eq hab).2.2) (htell.noWeek hweekday hfound))
    | some found =>
      obtain ⟨q, hq, hqAnchor, hqLabel, honly⟩ := htell.ofWeek hweekday found hfound
      have hpreferred := h.isPreferred (fun a b hab => (Anchor.kinds_of_tier_eq hab).2.2) hq
        (by rw [hqAnchor]; rfl) honly
      exact bestWeek?_eq_some_iff.mpr ⟨q, hpreferred, hqAnchor, hqLabel⟩
  exact ofPhrases_of_dayOf hday ((dayOf_congr hanchor hlabel hweek).trans hdate)

/-- A text whose leaders are all but one no parts of a day speaks of that part. -/
theorem bestDayPart?_concat {part : DayPart} (h : SpeaksOf cs (leaders ++ [s]))
    (hanchor : s.anchor = .dayPart part) (hothers : ∀ q ∈ leaders, q.anchor.isDayPart = false) :
    bestDayPart? (mentioned cs) = some (part, s.label) := by
  refine bestDayPart?_eq_some_iff.mpr ⟨s, ?_, hanchor, rfl⟩
  refine h.isPreferred (fun a b hab => (Anchor.kinds_of_tier_eq hab).2.1) (by simp)
    (by rw [hanchor]; rfl) fun q hq hqPart => ?_
  rcases List.mem_append.mp hq with hq | hq
  · rw [hothers q hq] at hqPart
    cases hqPart
  · exact List.mem_singleton.mp hq

/-- The label of a whole day is resolved to that day. -/
theorem resolve_of_speaksOfDay (h : SpeaksOfDay label.toList day week)
    (hisDay : day.anchor.isDay = true) (hdate : dayOf day week now = .ok (some (date, label)))
    (hrange : dayRange date label none = .ok (some r)) :
    resolve label now = .ok (some ⟨r, .relative⟩) := by
  obtain ⟨leaders, hspeaks, htell, hnoPart⟩ := h
  have hnone : bestDayPart? (mentioned label.toList) = none :=
    bestDayPart?_eq_none_iff.mpr (hspeaks.eq_false_of_mem_mentioned
      (fun a b hab => (Anchor.kinds_of_tier_eq hab).2.1) hnoPart)
  refine resolve_of_speaksOf hspeaks ?_
  rw [ofPhrases_of_tell hspeaks htell hisDay hdate, hnone]
  exact hrange

/-- The label of a part of a day is resolved to that part of the day. -/
theorem resolve_joinLabels {partOfDay : DayPart} {p : Phrase}
    (h : SpeaksOfDay label.toList day week) (hisDay : day.anchor.isDay = true)
    (hdate : dayOf day week now = .ok (some (date, label))) (hp : p ∈ table)
    (hanchor : p.anchor = .dayPart partOfDay)
    (hrange : dayRange date label (some (partOfDay, p.label)) = .ok (some r)) :
    resolve (joinLabels label p.label) now = .ok (some ⟨r, .relative⟩) := by
  obtain ⟨leaders, hspeaks, htell, hnoPart⟩ := h
  obtain ⟨s, hs⟩ := exists_represents hp
  have hisPart : s.anchor.isDayPart = true := by rw [hs.anchor, hanchor]; rfl
  have hleader : s.IsLeader := isLeader_of_mem_table hs.mem (by simp [hisPart])
  have hjoined := speaksOf_joinLabels hspeaks hleader hisPart hnoPart
  rw [← hs.text]
  refine resolve_of_speaksOf hjoined ?_
  rw [ofPhrases_of_tell hjoined (htell.concat hisPart) hisDay hdate,
    bestDayPart?_concat hjoined (hs.anchor.trans hanchor) hnoPart, hs.label]
  exact hrange

section Label

variable (hphrases : ∀ p ∈ phrases, p ∈ table)
include hphrases

/-- The label of a range that is found for a day is resolved to that range. -/
theorem resolve_label_of_day (hday : day.IsPreferred (phrases.filter (·.anchor.isDay)))
    (hr : ofPhrases phrases now = .ok (some r)) :
    resolve r.label now = .ok (some ⟨r, .relative⟩) := by
  obtain ⟨hmem, hisDay⟩ := List.mem_filter.mp hday.mem
  obtain ⟨date, label, hdate, hrange⟩ := exists_dayOf hday hr
  have hweek : ∀ found, bestWeek? phrases = some found →
      ∃ p ∈ table, p.anchor = .week found.1 ∧ p.label = found.2 := by
    intro found hfound
    obtain ⟨p, hp, hlabel, hanchor⟩ := mem_of_bestWeek? hfound
    exact ⟨p, hphrases p hp, hanchor, hlabel⟩
  have hspeaks := speaksOfDay_dayLabel (hphrases day hmem) hisDay hweek
  rw [← label_of_dayOf hdate] at hspeaks
  have hlabel := label_of_dayRange hrange
  cases hpart : bestDayPart? phrases with
  | none =>
    rw [hpart] at hlabel hrange
    rw [hlabel, Option.elim_none]
    exact resolve_of_speaksOfDay hspeaks hisDay hdate hrange
  | some found =>
    obtain ⟨part, partLabel⟩ := found
    rw [hpart] at hlabel hrange
    obtain ⟨p, hpreferred, hanchor, rfl⟩ := bestDayPart?_eq_some_iff.mp hpart
    rw [hlabel, Option.elim_some]
    exact resolve_joinLabels hspeaks hisDay hdate
      (hphrases p (List.mem_filter.mp hpreferred.mem).1) hanchor hrange

/-- The label of a part of today is resolved to that part of today. -/
theorem resolve_label_of_dayPart (hday : ∀ p ∈ phrases, p.anchor.isDay = false)
    {part : DayPart} {partLabel : String} (hpart : bestDayPart? phrases = some (part, partLabel))
    (hr : ofPhrases phrases now = .ok (some r)) :
    resolve r.label now = .ok (some ⟨r, .relative⟩) := by
  rw [ofPhrases_of_dayPart hday (by simp [hpart]), hpart] at hr
  have hlabel : r.label = partLabel := label_of_dayRange hr
  obtain ⟨p, hpreferred, hanchor, rfl⟩ := bestDayPart?_eq_some_iff.mp hpart
  obtain ⟨s, hs⟩ := exists_represents (hphrases p (List.mem_filter.mp hpreferred.mem).1)
  rw [hlabel, ← hs.text, resolve_alone hs.mem, ofPhrases_dayPart (hs.anchor.trans hanchor),
    hs.label, hr]
  rfl

omit hphrases in
/-- Without a day and a part of one, the preferred phrase refers to a band of days. -/
theorem ofPhrases_of_best? (hday : ∀ p ∈ phrases, p.anchor.isDay = false)
    (hpart : ∀ p ∈ phrases, p.anchor.isDayPart = false) (hbest : best? phrases = some s) :
    ofPhrases phrases now = (do
      match ← bandOf s.anchor now.date with
      | none => return none
      | some (start, stop) =>
        return Range.make? (Instant.midnight start) (Instant.midnight stop) s.label) := by
  unfold ofPhrases
  simp only [best?_filter_eq_none_iff.mpr hday, bestDayPart?_eq_none_iff.mpr hpart, hbest]
  rfl

/-- The label of a week, a month, a quarter, a year or of the recent days is resolved to them. -/
theorem resolve_label_of_band (hday : ∀ p ∈ phrases, p.anchor.isDay = false)
    (hpart : ∀ p ∈ phrases, p.anchor.isDayPart = false)
    (hr : ofPhrases phrases now = .ok (some r)) :
    resolve r.label now = .ok (some ⟨r, .relative⟩) := by
  cases hbest : best? phrases with
  | none =>
    rw [best?_eq_none_iff.mp hbest] at hr
    cases hr
  | some p =>
    have hmem := mem_of_best? hbest
    obtain ⟨s, hs⟩ := exists_represents (hphrases p hmem)
    have halone : ofPhrases [s] now = .ok (some r) := by
      have hdayAlone : ∀ q ∈ [s], q.anchor.isDay = false := by
        simpa [hs.anchor] using hday p hmem
      have hpartAlone : ∀ q ∈ [s], q.anchor.isDayPart = false := by
        simpa [hs.anchor] using hpart p hmem
      rw [ofPhrases_of_best? hday hpart hbest] at hr
      rw [ofPhrases_of_best? hdayAlone hpartAlone rfl, hs.anchor, hs.label]
      exact hr
    have hlabel : r.label = p.label := by
      rw [ofPhrases_of_best? hday hpart hbest] at hr
      obtain ⟨found, -, hr⟩ := bind_eq_ok_iff.mp hr
      cases found with
      | none => cases hr
      | some band =>
        obtain ⟨-, heq⟩ := Option.ite_none_right_eq_some.mp (Except.ok.inj hr)
        cases heq
        rfl
    rw [hlabel, ← hs.text, resolve_alone hs.mem, halone]
    rfl

end Label

/-- The label of what a text is resolved to by its phrases is itself resolved to the same range,
under the same label. -/
theorem resolve_label (text : String) (now : Instant) {r : Range}
    (h : resolve text now = .ok (some ⟨r, .relative⟩)) :
    resolve r.label now = .ok (some ⟨r, .relative⟩) := by
  obtain ⟨-, -, hr⟩ := resolve_eq_relative_iff.mp h
  have hphrases : ∀ p ∈ mentioned text.toList, p ∈ table := fun p hp => (List.mem_filter.mp hp).1
  cases hbest : best? ((mentioned text.toList).filter (·.anchor.isDay)) with
  | some day => exact resolve_label_of_day hphrases (best?_eq_some_iff.mp hbest) hr
  | none =>
    have hday := best?_filter_eq_none_iff.mp hbest
    cases hpart : bestDayPart? (mentioned text.toList) with
    | some found => exact resolve_label_of_dayPart hphrases hday hpart hr
    | none => exact resolve_label_of_band hphrases hday (bestDayPart?_eq_none_iff.mp hpart) hr

/-- A Friday evening of next week, spoken of in two languages. -/
theorem resolve_label_two_languages :
    let text := "Next Week 星期五, at night"
    let now : Instant := ⟨⟨20103, by decide, by decide⟩, 37800, 0, by decide, by decide⟩
    let r : Range := ⟨⟨⟨20112, by decide, by decide⟩, 64800, 0, by decide, by decide⟩,
      ⟨⟨20113, by decide, by decide⟩, 0, 0, by decide, by decide⟩, "周五 next week evening"⟩
    resolve text now = .ok (some ⟨r, .relative⟩) ∧
    resolve r.label now = .ok (some ⟨r, .relative⟩) := by
  intro text now r
  have hresolve : resolve text now = .ok (some ⟨r, .relative⟩) := by decide +kernel
  exact ⟨hresolve, resolve_label text now hresolve⟩

end Resolution

end Daybook
