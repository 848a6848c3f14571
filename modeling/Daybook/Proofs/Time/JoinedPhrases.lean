import Daybook.Proofs.Numeric.Digits
import Daybook.Proofs.Time.LonePhrases
import Daybook.Proofs.Time.Places
import Mathlib.Data.List.Chain

/-!
# Phrases that are joined

Where two texts are joined, a phrase that stands in neither of them begins in the first and ends
in the second. Where there is none, the joined text speaks of what the two texts speak of.
-/

namespace Daybook

/-- Whether the anchor names a day of the week. -/
def Anchor.isWeekday : Anchor → Bool
  | .weekday _ => true
  | _ => false

namespace Phrase

open Text

variable {p q s : Phrase} {cs front part back : List Char} {leaders others : List Phrase}

/-- A phrase stands for itself directly behind a character. -/
structure BearsBefore (p : Phrase) (c : Option Char) : Prop where
  apart : isAsciiWord p.text.toList = true → c.any Char.isAlphanum = false
  accepted : c.any (p.notAfter.contains ·) = false

/-- A phrase stands for itself directly before a character. -/
structure BearsAfter (p : Phrase) (c : Option Char) : Prop where
  apart : isAsciiWord p.text.toList = true → c.any Char.isAlphanum = false
  accepted : c.any (p.notBefore.contains ·) = false

/-- A phrase stands for itself at the beginning of a text. -/
@[simp] theorem bearsBefore_none (p : Phrase) : p.BearsBefore none := ⟨fun _ => rfl, rfl⟩

/-- A phrase stands for itself at the end of a text. -/
@[simp] theorem bearsAfter_none (p : Phrase) : p.BearsAfter none := ⟨fun _ => rfl, rfl⟩

/-- A phrase stands at a part of a text if the part is the phrase up to case, and the phrase bears
what is on either side. -/
theorem standsAt_iff : p.StandsAt front part back ↔
    lower part = p.text.toList ∧ p.BearsBefore front.getLast? ∧ p.BearsAfter back.head? := by
  constructor
  · rintro ⟨hspells, hisolated, haccepted⟩
    simp only [Occurrence.isolated, Occurrence.between, Bool.and_eq_true,
      Bool.not_eq_true'] at hisolated
    simp only [accepts, Bool.and_eq_true, Bool.not_eq_true'] at haccepted
    exact ⟨hspells, ⟨fun hword => (hisolated hword).1, haccepted.1⟩,
      fun hword => (hisolated hword).2, haccepted.2⟩
  · rintro ⟨hspells, hbefore, hafter⟩
    refine ⟨hspells, fun hword => ?_, ?_⟩
    · simp [Occurrence.isolated, Occurrence.between, hbefore.apart hword, hafter.apart hword]
    · rw [accepts, hbefore.accepted, hafter.accepted]
      rfl

/-- A phrase bears each character before it that is no first one of a compound, and that is no
letter or digit where the phrase is an ASCII word. -/
theorem bearsBefore_of_mem_table (hp : p ∈ table) {c : Option Char}
    (hnow : ∀ d ∈ c, d ∉ nowCompounds)
    (hword : isAsciiWord p.text.toList = true → c.any Char.isAlphanum = false) :
    p.BearsBefore c := by
  cases c with
  | none => exact p.bearsBefore_none
  | some d => exact ⟨hword, by simpa using mt ((guards_of_mem_table p hp).1 d) (hnow d rfl)⟩

/-- A phrase bears each character behind it that is no last one of a compound, and that is no
letter or digit where the phrase is an ASCII word. -/
theorem bearsAfter_of_mem_table (hp : p ∈ table) {c : Option Char}
    (hsunday : ∀ d ∈ c, d ∉ sundayCompounds)
    (hword : isAsciiWord p.text.toList = true → c.any Char.isAlphanum = false) :
    p.BearsAfter c := by
  cases c with
  | none => exact p.bearsAfter_none
  | some d => exact ⟨hword, by simpa using mt ((guards_of_mem_table p hp).2 d) (hsunday d rfl)⟩

/-- A phrase in Chinese bears letters and digits beside it. -/
theorem bears_of_mem_table (hp : p ∈ table) (hword : isAsciiWord p.text.toList = false)
    {c : Option Char} : ((∀ d ∈ c, d ∉ nowCompounds) → p.BearsBefore c) ∧
      ((∀ d ∈ c, d ∉ sundayCompounds) → p.BearsAfter c) := by
  have hnot : isAsciiWord p.text.toList = true → c.any Char.isAlphanum = false := by
    intro htrue
    rw [hword] at htrue
    cases htrue
  exact ⟨fun hnow => bearsBefore_of_mem_table hp hnow hnot,
    fun hsunday => bearsAfter_of_mem_table hp hsunday hnot⟩

/-- The characters that parts of a day begin with in Chinese. -/
def dayPartFirsts : List Char := ['凌', '上', '早', '中', '下', '晚']

/-- The characters that stand before these within phrases. -/
def dayPartBefore : List Char := ['早', '晚']

/-- Which characters follow each other in the phrases of the table. -/
structure IsChained (q : Phrase) : Prop where
  /-- Before the first character of a part of a day stands 早 or 晚. -/
  dayPart : q.text.toList.IsChain fun x y => y ∈ dayPartFirsts → x ∈ dayPartBefore
  /-- Behind 周 stands no letter. -/
  week : q.text.toList.IsChain fun x y => x = '周' → y.isAlphanum = false
  /-- At 周 a phrase begins or ends. -/
  outer : '周' ∉ q.text.toList.tail.dropLast

/-- The characters of each phrase follow each other as those of the table do. -/
theorem isChained_of_mem_table : ∀ q ∈ table, q.IsChained := by
  have hall : ∀ q ∈ table,
      (q.text.toList.IsChain fun x y => y ∈ dayPartFirsts → x ∈ dayPartBefore) ∧
      (q.text.toList.IsChain fun x y => x = '周' → y.isAlphanum = false) ∧
      '周' ∉ q.text.toList.tail.dropLast := by
    decide +kernel
  intro q hq
  obtain ⟨hdayPart, hweek, houter⟩ := hall q hq
  exact ⟨hdayPart, hweek, houter⟩

/-- What stands behind a space within a phrase is not how a week or a part of a day begins. -/
theorem not_prefix_of_space : ∀ q ∈ table, ∀ rest ∈ q.text.toList.tails, rest.head? = some ' ' →
    ∀ s ∈ table, (s.anchor.isWeek || s.anchor.isDayPart) = true →
      ¬rest <+: ' ' :: s.text.toList := by
  decide +kernel

/-- What is known of a phrase for a day, a week or a part of a day. -/
structure IsLeader (p : Phrase) : Prop where
  mem : p ∈ table
  hasNoDigit : HasNoDigit p.text.toList
  last : p.anchor.isDayPart = false → ∀ c ∈ p.text.toList.getLast?, c ∉ dayPartBefore
  dayPart : p.anchor.isDayPart = true → Resolution.isAscii p.text = false →
    isAsciiWord p.text.toList = false ∧ ∀ c ∈ p.text.toList.head?, c ∈ dayPartFirsts
  week : p.anchor.isWeek = true → Resolution.isAscii p.text = false →
    isAsciiWord p.text.toList = false ∧ p.text.toList.tail = ['周']

/-- A phrase for a day, a week or a part of a day has what is asked of a leader. -/
theorem isLeader_of_mem_table (hp : p ∈ table)
    (hkind : (p.anchor.isDay || p.anchor.isWeek || p.anchor.isDayPart) = true) : p.IsLeader := by
  have hall : ∀ p ∈ table, (p.anchor.isDay || p.anchor.isWeek || p.anchor.isDayPart) = true →
      HasNoDigit p.text.toList ∧
      (p.anchor.isDayPart = false →
        p.text.toList.getLast?.all (fun c => !dayPartBefore.contains c) = true) ∧
      (p.anchor.isDayPart = true → Resolution.isAscii p.text = false →
        isAsciiWord p.text.toList = false ∧
        p.text.toList.head?.all (dayPartFirsts.contains ·) = true) ∧
      (p.anchor.isWeek = true → Resolution.isAscii p.text = false →
        isAsciiWord p.text.toList = false ∧ p.text.toList.tail = ['周']) := by
    decide +kernel
  obtain ⟨hdigit, hlast, hdayPart, hweek⟩ := hall p hp hkind
  refine ⟨hp, hdigit, fun hnot c hc => ?_, fun hpart hascii => ?_, hweek⟩
  · simpa [Option.mem_def.mp hc] using hlast hnot
  · obtain ⟨hword, hfirst⟩ := hdayPart hpart hascii
    exact ⟨hword, fun c hc => by simpa [Option.mem_def.mp hc] using hfirst⟩

/-- The label of a day of the week is 周 with one more character, or begins with a letter. -/
theorem weekday_of_mem_table (hp : p ∈ table) (hkind : p.anchor.isWeekday = true)
    (hlabel : p.text = p.label) : p.text.toList.head?.any Char.isAlphanum = true ∨
      (isAsciiWord p.text.toList = false ∧ p.notAfter = [] ∧
        ∃ x, p.text.toList = ['周', x] ∧ x ≠ '周' ∧ x ∉ sundayCompounds) := by
  have hall : ∀ p ∈ table, p.anchor.isWeekday = true → p.text = p.label →
      p.text.toList.head?.any Char.isAlphanum = true ∨
        ((isAsciiWord p.text.toList = false ∧ p.notAfter = []) ∧
          (p.text.toList.head? = some '周' ∧ p.text.toList.tail.length = 1) ∧
          p.text.toList.tail.all (fun x => x != '周' && !sundayCompounds.contains x) = true) := by
    decide +kernel
  rcases hall p hp hkind hlabel with hfirst | ⟨⟨hword, hnotAfter⟩, ⟨hhead, hlength⟩, hrest⟩
  · exact .inl hfirst
  · obtain ⟨rest, htext⟩ := List.head?_eq_some_iff.mp hhead
    rw [htext, List.tail_cons] at hlength hrest
    obtain ⟨x, rfl⟩ := List.length_eq_one_iff.mp hlength
    exact .inr ⟨hword, hnotAfter, x, htext, by simpa using hrest⟩

/-- A text in lower case speaks of some phrases: they stand in it, the last one at its end, and
all others that do are shorter than an equally specific one of them. -/
structure SpeaksOf (cs : List Char) (leaders : List Phrase) : Prop where
  lower : Text.lower cs = cs
  hasNoDigit : HasNoDigit cs
  isLeader : ∀ p ∈ leaders, p.IsLeader
  standing : ∀ p ∈ leaders, ∃ front back, cs = front ++ p.text.toList ++ back ∧
    p.BearsBefore front.getLast? ∧ p.BearsAfter back.head?
  ending : ∃ p ∈ leaders, cs.getLast? = p.text.toList.getLast?
  leading : ∀ q ∈ table, q.text.toList <:+: cs →
    ∃ p ∈ leaders, q = p ∨ (q.size < p.size ∧ q.anchor.tier = p.anchor.tier)

/-- A leader speaks of itself. -/
theorem IsLeader.speaksOf (hp : p.IsLeader) : SpeaksOf p.text.toList [p] := by
  have hsame : ∀ q ∈ [p], q = p := fun q hq => List.mem_singleton.mp hq
  constructor
  · exact (isPlain_of_mem_table p hp.mem).lower
  · exact hp.hasNoDigit
  · intro q hq
    rwa [hsame q hq]
  · intro q hq
    rw [hsame q hq]
    exact ⟨[], [], by simp, p.bearsBefore_none, p.bearsAfter_none⟩
  · exact ⟨p, List.mem_singleton_self p, rfl⟩
  · exact fun q hq hinfix =>
      ⟨p, List.mem_singleton_self p, part_of_mem_table hp.mem hq hinfix⟩

/-- A text that speaks of some phrases is not empty. -/
theorem SpeaksOf.ne_nil (h : SpeaksOf cs leaders) : cs ≠ [] := by
  rintro rfl
  obtain ⟨p, hp, hlast⟩ := h.ending
  have hplain := isPlain_of_mem_table p (h.isLeader p hp).mem
  exact hplain.ne_nil (List.getLast?_eq_none_iff.mp hlast.symm)

/-- No phrase begins with a space. -/
theorem infix_of_infix_space (hq : q ∈ table) (h : q.text.toList <:+: ' ' :: back) :
    q.text.toList <:+: back := by
  rcases List.infix_cons_iff.mp h with hprefix | hinfix
  · exfalso
    have hplain := isPlain_of_mem_table q hq
    cases htext : q.text.toList with
    | nil => exact hplain.ne_nil htext
    | cons c cs =>
      rw [htext] at hprefix
      obtain ⟨rfl, -⟩ := List.cons_prefix_cons.mp hprefix
      have hblank := (hplain.first ' ' (by simp [htext])).1
      cases hblank
  · exact hinfix

/-- No phrase begins in the first text and ends in the second. -/
def Quiet (front back : List Char) : Prop :=
  ∀ q ∈ table, ∀ u v, u ≠ [] → v ≠ [] → q.text.toList = u ++ v → u <:+ front → ¬v <+: back

/-- Two texts that are joined, with or without a space, speak of what each of them speaks of. -/
theorem SpeaksOf.join {sep : List Char} (hfront : SpeaksOf front leaders)
    (hback : SpeaksOf back others) (hsep : sep = [] ∨ sep = [' '])
    (hquiet : Quiet front (sep ++ back))
    (hafter : ∀ p ∈ leaders, p.BearsAfter (sep ++ back).head?)
    (hbefore : ∀ p ∈ others, p.BearsBefore (front ++ sep).getLast?) :
    SpeaksOf (front ++ (sep ++ back)) (leaders ++ others) := by
  have hseparator : HasNoDigit sep ∧ Text.lower sep = sep := by
    rcases hsep with rfl | rfl
    · exact ⟨by decide, rfl⟩
    · exact ⟨by decide, rfl⟩
  constructor
  · have hlower := hfront.lower
    have hlower' := hback.lower
    simp only [Text.lower, List.map_append] at *
    rw [hlower, hlower', hseparator.2]
  · exact hasNoDigit_append.mpr ⟨hfront.hasNoDigit,
      hasNoDigit_append.mpr ⟨hseparator.1, hback.hasNoDigit⟩⟩
  · intro p hp
    rcases List.mem_append.mp hp with hp | hp
    · exact hfront.isLeader p hp
    · exact hback.isLeader p hp
  · intro p hp
    rcases List.mem_append.mp hp with hp | hp
    · obtain ⟨left, right, rfl, hbears, hbears'⟩ := hfront.standing p hp
      refine ⟨left, right ++ (sep ++ back), by simp, hbears, ?_⟩
      cases right with
      | nil => exact hafter p hp
      | cons c right => exact hbears'
    · obtain ⟨left, right, rfl, hbears, hbears'⟩ := hback.standing p hp
      refine ⟨front ++ (sep ++ left), right, by simp, ?_, hbears'⟩
      rcases List.eq_nil_or_concat' left with rfl | ⟨left, c, rfl⟩
      · simpa using hbefore p hp
      · simpa [← List.append_assoc] using hbears
  · obtain ⟨p, hp, hlast⟩ := hback.ending
    refine ⟨p, List.mem_append_right _ hp, ?_⟩
    rw [← List.append_assoc, List.getLast?_append_of_ne_nil _ hback.ne_nil, hlast]
  · intro q hq hinfix
    rcases List.infix_append_iff_ne_nil.mp hinfix with hin | hin | ⟨u, v, hu, hv, htext, hsuf, hpre⟩
    · obtain ⟨p, hp, hleads⟩ := hfront.leading q hq hin
      exact ⟨p, List.mem_append_left _ hp, hleads⟩
    · have hin : q.text.toList <:+: back := by
        rcases hsep with rfl | rfl
        · exact hin
        · exact infix_of_infix_space hq hin
      obtain ⟨p, hp, hleads⟩ := hback.leading q hq hin
      exact ⟨p, List.mem_append_right _ hp, hleads⟩
    · exact absurd hpre (hquiet q hq u v hu hv htext hsuf)

/-- No phrase goes on from a text across a space into a phrase for a week or a part of a day. -/
theorem quiet_space (hs : s ∈ table) (hkind : (s.anchor.isWeek || s.anchor.isDayPart) = true)
    (front : List Char) : Quiet front ([' '] ++ s.text.toList) := by
  intro q hq u v _ hv htext _ hpre
  refine not_prefix_of_space q hq v ((List.mem_tails _ _).mpr ⟨u, htext.symm⟩) ?_ s hs hkind hpre
  cases v with
  | nil => exact absurd rfl hv
  | cons c v => rw [(List.cons_prefix_cons.mp hpre).1, List.head?_cons]

/-- Two texts are joined quietly where two characters meet that are not beside each other in any
phrase. -/
theorem quiet_of_isChain {R : Char → Char → Prop} (hchain : ∀ q ∈ table, q.text.toList.IsChain R)
    (hmeet : ∀ x ∈ front.getLast?, ∀ y ∈ back.head?, ¬R x y) : Quiet front back := by
  rintro q hq u v hu hv htext ⟨left, rfl⟩ ⟨right, rfl⟩
  rw [List.getLast?_append_of_ne_nil _ hu, List.head?_append_of_ne_nil _ hv] at hmeet
  obtain ⟨-, -, hbeside⟩ := List.isChain_append.mp (htext ▸ hchain q hq)
  obtain ⟨x, hx⟩ := Option.ne_none_iff_exists'.mp (mt List.getLast?_eq_none_iff.mp hu)
  obtain ⟨y, hy⟩ := Option.ne_none_iff_exists'.mp (mt List.head?_eq_none_iff.mp hv)
  exact hmeet x hx y hy (hbeside x hx y hy)

/-- Behind any text and a space stands a week or a part of a day. -/
theorem SpeaksOf.append_space (h : SpeaksOf front leaders) (hs : s.IsLeader)
    (hkind : (s.anchor.isWeek || s.anchor.isDayPart) = true) :
    SpeaksOf (front ++ ([' '] ++ s.text.toList)) (leaders ++ [s]) := by
  refine h.join hs.speaksOf (.inr rfl) (quiet_space hs.mem hkind front)
    (fun p hp => ?_) fun p hp => ?_
  · refine bearsAfter_of_mem_table (h.isLeader p hp).mem ?_ fun _ => rfl
    rintro d ⟨⟩
    decide
  · obtain rfl := List.mem_singleton.mp hp
    rw [List.getLast?_concat]
    refine bearsBefore_of_mem_table hs.mem ?_ fun _ => rfl
    rintro d ⟨⟩
    decide

/-- Behind a day or a week stands a part of a day in Chinese. -/
theorem SpeaksOf.append_dayPart (h : SpeaksOf front leaders) (hs : s.IsLeader)
    (hpart : s.anchor.isDayPart = true) (hascii : Resolution.isAscii s.text = false)
    (hothers : ∀ p ∈ leaders, p.anchor.isDayPart = false) :
    SpeaksOf (front ++ ([] ++ s.text.toList)) (leaders ++ [s]) := by
  obtain ⟨p, hp, hending⟩ := h.ending
  have hlast := (h.isLeader p hp).last (hothers p hp)
  have hnow := (isPlain_of_mem_table p (h.isLeader p hp).mem).last
  rw [← hending] at hlast hnow
  obtain ⟨hword, hfirst⟩ := hs.dayPart hpart hascii
  have hfirsts : ∀ c ∈ dayPartFirsts, c ∉ sundayCompounds ∧ c.isAlphanum = false := by
    simp only [dayPartFirsts, List.forall_mem_cons, List.not_mem_nil, false_implies, implies_true]
    decide
  refine h.join hs.speaksOf (.inl rfl) ?_ (fun p hp => ?_) fun p hp => ?_
  · refine quiet_of_isChain (fun q hq => (isChained_of_mem_table q hq).dayPart) ?_
    intro x hx y hy hbeside
    exact hlast x hx (hbeside (hfirst y hy))
  · refine bearsAfter_of_mem_table (h.isLeader p hp).mem (fun d hd => (hfirsts d (hfirst d hd)).1)
      fun _ => ?_
    rw [List.nil_append]
    cases hhead : s.text.toList.head? with
    | none => rfl
    | some d => exact (hfirsts d (hfirst d hhead)).2
  · obtain rfl := List.mem_singleton.mp hp
    rw [List.append_nil]
    exact (bears_of_mem_table hs.mem hword).1 fun c hc => (hnow c hc).1

/-- Behind a week in Chinese stands a day of the week in English. -/
theorem SpeaksOf.append_weekday (h : SpeaksOf front leaders) (hs : s.IsLeader)
    (hword : ∀ p ∈ leaders, isAsciiWord p.text.toList = false)
    (hlast : front.getLast? = some '周') (hfirst : s.text.toList.head?.any Char.isAlphanum = true) :
    SpeaksOf (front ++ ([] ++ s.text.toList)) (leaders ++ [s]) := by
  refine h.join hs.speaksOf (.inl rfl) ?_ (fun p hp => ?_) fun p hp => ?_
  · refine quiet_of_isChain (fun q hq => (isChained_of_mem_table q hq).week) ?_
    intro x hx y hy hbeside
    rw [hlast] at hx
    cases hx
    rw [List.nil_append, Option.mem_def] at hy
    rw [hy, Option.any_some, hbeside rfl] at hfirst
    cases hfirst
  · exact (bears_of_mem_table (h.isLeader p hp).mem (hword p hp)).2
      fun d hd => ((isPlain_of_mem_table s hs.mem).first d hd).2.1
  · obtain rfl := List.mem_singleton.mp hp
    rw [List.append_nil, hlast]
    refine bearsBefore_of_mem_table hs.mem ?_ fun _ => rfl
    rintro d ⟨⟩
    decide

/-- Of three characters with 周 between the others, a phrase has the first two or the last
two. -/
theorem infix_of_infix_shared {c x : Char} (hq : q ∈ table)
    (h : q.text.toList <:+: [c, '周', x]) :
    q.text.toList <:+: [c, '周'] ∨ q.text.toList <:+: ['周', x] := by
  have houter := (isChained_of_mem_table q hq).outer
  rcases List.infix_cons_iff.mp h with hprefix | hinfix
  · left
    rcases List.prefix_concat_iff.mp (show q.text.toList <+: [c, '周'] ++ [x] from hprefix) with
      hall | hfront
    · rw [hall] at houter
      simp at houter
    · exact hfront.isInfix
  · exact .inr hinfix

/-- A week and a day of the week in Chinese share the character 周. -/
theorem speaksOf_shared {week day : Phrase} {c x : Char} (hweek : week.IsLeader)
    (hday : day.IsLeader) (hweekText : week.text.toList = [c, '周'])
    (hdayText : day.text.toList = ['周', x]) (hx : x ∉ sundayCompounds)
    (hweekWord : isAsciiWord week.text.toList = false)
    (hdayWord : isAsciiWord day.text.toList = false) (hnotAfter : day.notAfter = []) :
    SpeaksOf [c, '周', x] [week, day] := by
  have hweekLower := (isPlain_of_mem_table week hweek.mem).lower
  have hdayLower := (isPlain_of_mem_table day hday.mem).lower
  have hweekDigit := hweek.hasNoDigit
  have hdayDigit := hday.hasNoDigit
  rw [hweekText] at hweekLower hweekDigit
  rw [hdayText] at hdayLower hdayDigit
  constructor
  · simp_all [Text.lower]
  · exact hasNoDigit_cons.mpr ⟨hweekDigit c List.mem_cons_self, hdayDigit⟩
  · simp [hweek, hday]
  · intro p hp
    simp only [List.mem_cons, List.not_mem_nil, or_false] at hp
    rcases hp with rfl | rfl
    · refine ⟨[], [x], by simp [hweekText], bearsBefore_none _, ?_⟩
      refine (bears_of_mem_table hweek.mem hweekWord).2 ?_
      rintro d ⟨⟩
      exact hx
    · refine ⟨[c], [], by simp [hdayText], ⟨fun htrue => ?_, ?_⟩, bearsAfter_none _⟩
      · rw [hdayWord] at htrue
        cases htrue
      · simp [hnotAfter]
  · exact ⟨day, by simp, by simp [hdayText]⟩
  · intro q hq hinfix
    rcases infix_of_infix_shared hq hinfix with hin | hin
    · exact ⟨week, by simp, part_of_mem_table hweek.mem hq (hweekText ▸ hin)⟩
    · exact ⟨day, by simp, part_of_mem_table hday.mem hq (hdayText ▸ hin)⟩

/-- No 周 is dropped before a letter. -/
theorem dropWhile_of_isAlphanum (h : cs.head?.any Char.isAlphanum = true) :
    cs.dropWhile (· == '周') = cs := by
  cases cs with
  | nil => rfl
  | cons c cs =>
    rw [List.dropWhile_cons_of_neg]
    intro hweek
    rw [beq_iff_eq.mp hweek] at h
    cases h

/-- A day of the week behind a week in Chinese, where 周 is not repeated. -/
theorem speaksOf_weekday_of_week {week day : Phrase} (hweek : week.IsLeader)
    (hday : day.IsLeader) (hisWeek : week.anchor.isWeek = true)
    (hisWeekday : day.anchor.isWeekday = true) (hlabel : day.text = day.label)
    (hascii : Resolution.isAscii week.text = false) :
    SpeaksOf (week.text.toList ++ day.text.toList.dropWhile (· == '周')) [week, day] := by
  obtain ⟨hword, htail⟩ := hweek.week hisWeek hascii
  obtain ⟨c, hweekText⟩ : ∃ c, week.text.toList = [c, '周'] := by
    cases htext : week.text.toList with
    | nil => simp [htext] at htail
    | cons c cs => exact ⟨c, by simpa [htext] using htail⟩
  rcases weekday_of_mem_table hday.mem hisWeekday hlabel with
    hfirst | ⟨hdayWord, hnotAfter, x, htext, hne, hx⟩
  · rw [dropWhile_of_isAlphanum hfirst]
    refine hweek.speaksOf.append_weekday hday ?_ ?_ hfirst
    · intro p hp
      rw [List.mem_singleton.mp hp]
      exact hword
    · rw [hweekText]
      rfl
  · have hdropped : day.text.toList.dropWhile (· == '周') = [x] := by
      simp [htext, hne]
    rw [hdropped, hweekText]
    exact speaksOf_shared hweek hday hweekText htext hx hword hdayWord hnotAfter

/-- The phrases that a text speaks of are mentioned in it. -/
theorem SpeaksOf.mem_mentioned (h : SpeaksOf cs leaders) (hp : p ∈ leaders) :
    p ∈ mentioned cs := by
  obtain ⟨front, back, rfl, hbefore, hafter⟩ := h.standing p hp
  have hmem := (h.isLeader p hp).mem
  refine mem_mentioned_iff.mpr ⟨hmem, front, p.text.toList, back, rfl, ?_⟩
  exact standsAt_iff.mpr ⟨(isPlain_of_mem_table p hmem).lower, hbefore, hafter⟩

/-- Any other phrase that is mentioned is shorter than an equally specific one of them. -/
theorem SpeaksOf.exists_leader (h : SpeaksOf cs leaders) (hq : q ∈ mentioned cs) :
    ∃ p ∈ leaders, q = p ∨ (q.size < p.size ∧ q.anchor.tier = p.anchor.tier) :=
  h.leading q (List.mem_filter.mp hq).1 (infix_of_mem_mentioned h.lower hq)

section Kind

variable {wants : Anchor → Bool} (hwants : ∀ a b : Anchor, a.tier = b.tier → wants a = wants b)
include hwants

/-- The only leader of a kind is preferred to all other phrases of that kind. -/
theorem SpeaksOf.isPreferred (h : SpeaksOf cs leaders) (hp : p ∈ leaders)
    (hkind : wants p.anchor = true) (honly : ∀ q ∈ leaders, wants q.anchor = true → q = p) :
    p.IsPreferred ((mentioned cs).filter (wants ·.anchor)) := by
  refine Leads.isPreferred ⟨List.mem_filter.mpr ⟨h.mem_mentioned hp, hkind⟩, fun q hq => ?_⟩
  obtain ⟨hq, hqKind⟩ := List.mem_filter.mp hq
  obtain ⟨p', hp', hleads⟩ := h.exists_leader hq
  have hp'Kind : wants p'.anchor = true := by
    rcases hleads with rfl | ⟨-, htier⟩
    · exact hqKind
    · rw [← hwants _ _ htier]
      exact hqKind
  obtain rfl := honly p' hp' hp'Kind
  exact hleads

/-- If no leader is of a kind, no phrase is. -/
theorem SpeaksOf.eq_false_of_mem_mentioned (h : SpeaksOf cs leaders)
    (hnone : ∀ p ∈ leaders, wants p.anchor = false) :
    ∀ q ∈ mentioned cs, wants q.anchor = false := by
  intro q hq
  obtain ⟨p, hp, rfl | ⟨-, htier⟩⟩ := h.exists_leader hq
  · exact hnone q hp
  · rw [hwants _ _ htier]
    exact hnone p hp

end Kind

end Phrase

end Daybook
