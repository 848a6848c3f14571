import Daybook.Proofs.Text.Blanking
import Daybook.Proofs.Text.LetterCase
import Daybook.Proofs.Time.WrittenNumbers

/-!
# Dates that stand apart

A match of a pattern takes the characters that the pattern looks at on both sides of the date.
A scan from left to right overlooks a date only if a match before takes its first character or
the one directly before it. If the dates of a text have enough characters between them, each of
them is found, or begins inside one that is found.
-/

namespace Daybook

open Text

namespace DatePattern

variable {p : DatePattern} {cs part back right after rest : List Char} {date : WrittenDate}
variable {a b found : DateMatch} {c : Char}

/-- The pattern looks for no letters. -/
structure IsLetterless (p : DatePattern) : Prop where
  yearMark : ∀ mark, p.yearMark = some mark → mark.isAlpha = false
  monthMark : p.monthMark.isAlpha = false
  notBeside : p.notBeside.all (!·.isAlpha) = true

/-- Years and months are marked by Chinese characters, hyphens and slashes. -/
theorem isLetterless_of_mem_all : ∀ p ∈ all, p.IsLetterless := by
  have hall : ∀ p ∈ all, p.yearMark.all (!·.isAlpha) = true ∧ p.monthMark.isAlpha = false ∧
      p.notBeside.all (!·.isAlpha) = true := by decide
  intro p hp
  obtain ⟨hyear, hmonth, hbeside⟩ := hall p hp
  exact ⟨fun mark hmark => by simpa [hmark] using hyear, hmonth, hbeside⟩

/-- A letter may stand beside a date in either case. -/
theorem allowsBeside_toLower (hp : p.IsLetterless) (c : Char) :
    p.allowsBeside c.toLower = p.allowsBeside c := by
  simp only [allowsBeside, isDigit_toLower, contains_toLower hp.notBeside]

/-- A blank may stand beside a date. -/
theorem allowsBeside_of_isBlank (hp : p ∈ all) (hc : isBlank c = true) :
    p.allowsBeside c = true := by
  have hall : ∀ p ∈ all, p.notBeside.all (!isBlank ·) = true := by decide
  have hdigit : c.isDigit = false := by
    by_contra hdigit
    rw [Bool.not_eq_false] at hdigit
    rw [isBlank_of_isDigit hdigit] at hc
    cases hc
  have hnot : c ∉ p.notBeside := by
    intro hmem
    have hblank := List.all_eq_true.mp (hall p hp) c hmem
    rw [hc] at hblank
    cases hblank
  simp [allowsBeside, hdigit, hnot]

/-- What is seen beside a date in place of a blank, or as what it is, may stand there. -/
theorem allowsBeside_of_seen (hp : p ∈ all) {d : Option Char} (h : seen (some c) = seen d) :
    d = some c ∨ p.allowsBeside c = true := by
  cases hc : isBlank c with
  | true => exact .inr (allowsBeside_of_isBlank hp hc)
  | false =>
    left
    rw [seen, Option.filter_some, hc] at h
    exact (Option.filter_eq_some_iff.mp h.symm).1

/-- The written parts of a date end with a digit of the day, or with its mark. -/
theorem Parts.Spell.getLast?_written {parts : Parts} (h : parts.Spell p date)
    (hc : (parts.written p).getLast? = some c) :
    (parts.dayMark = [] ∧ c.isDigit = true) ∨ (parts.dayMark = [c] ∧ (c = '日' ∨ c = '号')) := by
  have hday : parts.day ≠ [] := by
    intro hnil
    simpa [hnil] using h.day
  have hlast : (parts.day ++ parts.dayMark).getLast? = some c := by
    have hwritten : parts.written p = parts.year ++ p.yearMark.toList ++
        (parts.month ++ [p.monthMark]) ++ (parts.day ++ parts.dayMark) := by simp [written]
    have hne : parts.day ++ parts.dayMark ≠ [] := by simp [hday]
    rw [← hc, hwritten, List.getLast?_append_of_ne_nil _ hne]
  rcases h.dayMark with hnone | ⟨-, d, hmark, hd⟩
  · rw [hnone, List.append_nil] at hlast
    refine .inl ⟨hnone, h.isDigit c ?_⟩
    exact List.mem_append_right _ (List.mem_append_right _ (List.mem_of_getLast? hlast))
  · rw [hmark, List.getLast?_concat, Option.some_inj] at hlast
    subst hlast
    exact .inr ⟨hmark, hd⟩

/-- A date is written without blanks. -/
theorem Parts.Spell.isWord {parts : Parts} (h : parts.Spell p date) (hp : p ∈ all) :
    IsWord (parts.written p) := by
  have hall : ∀ p ∈ all, (p.yearMark.toList ++ [p.monthMark]).all (!isBlank ·) = true := by decide
  have hmarks : ∀ c ∈ p.yearMark.toList ++ [p.monthMark], isBlank c = false := fun c hc => by
    simpa using List.all_eq_true.mp (hall p hp) c hc
  have hdayMark : ∀ c ∈ parts.dayMark, isBlank c = false := by
    intro c hc
    rcases h.dayMark with hnone | ⟨-, d, hmark, rfl | rfl⟩
    · rw [hnone] at hc
      cases hc
    · rw [hmark, List.mem_singleton] at hc
      exact hc ▸ rfl
    · rw [hmark, List.mem_singleton] at hc
      exact hc ▸ rfl
  refine ⟨by simp [written], fun c hc => ?_⟩
  simp only [written, List.mem_append, List.mem_cons] at hc
  rcases hc with hc | hc | hc | rfl | hc | hc
  · exact isBlank_of_isDigit (h.isDigit c (List.mem_append_left _ hc))
  · exact hmarks c (List.mem_append_left _ hc)
  · exact isBlank_of_isDigit (h.isDigit c (List.mem_append_right _ (List.mem_append_left _ hc)))
  · exact hmarks _ (by simp)
  · exact isBlank_of_isDigit (h.isDigit c (List.mem_append_right _ (List.mem_append_right _ hc)))
  · exact hdayMark c hc

/-- What is read as a date has no blanks, begins with a digit, and ends with a digit or a mark
of the day. -/
theorem shape_of_read? (hp : p ∈ all) (h : p.read? (part ++ back) = some (date, back, rest)) :
    IsWord part ∧ (∀ c, part.head? = some c → c.isDigit = true) ∧
      ∀ c, part.getLast? = some c → c.isDigit = true ∨ c = '日' ∨ c = '号' := by
  obtain ⟨⟨first, hfirst, d, ds, rfl, hd⟩, -⟩ := of_read? h
  obtain rfl : part = d :: ds := List.append_cancel_right hfirst
  obtain ⟨parts, ⟨-, rfl⟩, htext, hspell, -, -⟩ := parts_of_read? [] hp h
  have hwritten : d :: ds = parts.written p :=
    List.append_cancel_right (htext.trans (parts.year_append_afterYear p))
  refine ⟨hwritten ▸ hspell.isWord hp, ?_, fun c hc => ?_⟩
  · rintro c ⟨⟩
    exact hd
  · rw [hwritten] at hc
    exact (hspell.getLast?_written hc).imp And.right And.right

/-- Behind a mark of the day anything may follow for the date to be read. Behind a digit, a
character does not change the reading if it stood there, or may stand beside a date. -/
theorem exists_read?_of_next (hp : p ∈ all)
    (h : p.read? (part ++ right) = some (date, right, rest))
    (hback : ∀ d, part.getLast? = some d → d.isDigit = true →
      ∀ c, back.head? = some c → right.head? = some c ∨ p.allowsBeside c = true) :
    ∃ after rest, p.read? (part ++ back) = some (date, after, rest) := by
  obtain ⟨parts, ⟨-, rfl⟩, htext, hspell, hday, hend⟩ := parts_of_read? [] hp h
  obtain rfl : part = parts.written p :=
    List.append_cancel_right (htext.trans (parts.year_append_afterYear p))
  have hnext : ∀ c, (parts.dayMark ++ back).head? = some c →
      parts.afterDay.head? = some c ∨ p.allowsBeside c = true := by
    intro c hc
    have hne := (hspell.isWord hp).ne_nil
    rcases hspell.getLast?_written (List.getLast?_eq_some_getLast hne) with
      ⟨hnone, hdigit⟩ | ⟨hmark, -⟩
    · rw [hnone] at hc
      rw [Parts.afterDay, hnone]
      exact hback _ (List.getLast?_eq_some_getLast hne) hdigit c hc
    · rw [hmark] at hc
      rw [Parts.afterDay, hmark]
      exact .inl hc
  have hnotDigit : ∀ c, p.allowsBeside c = true → c.isDigit = false := fun c hc => by
    simpa using (Bool.and_eq_true_iff.mp hc).1
  have hspell : Parts.Spell p date { parts with back := back } :=
    ⟨hspell.numbers, hspell.isDigit, hspell.year, hspell.month, hspell.day, hspell.dayMark⟩
  have hread := hspell.exists_read? hp
    (hday.imp_right fun hnot c hc => (hnext c hc).elim (hnot c) (hnotDigit c))
    (fun hclosed c hc => (hnext c hc).elim (hend hclosed c) id)
  rwa [Parts.year_append_afterYear] at hread

/-- How many characters the dates of a pattern need between them: one before the later date,
and one after the earlier date in a closed pattern. -/
def spacing (p : DatePattern) : Nat := if p.closed then 2 else 1

/-- A match reaches a date that begins behind its own beginning, but with too few characters
between them, or none because it begins inside the match. -/
def Reaches (p : DatePattern) (cs : List Char) (a b : DateMatch) : Prop :=
  a.span.start < b.span.start ∧ ∀ between,
    slice a.span.stop b.span.start cs = .ok between → between.length < p.spacing

/-- The closing character of a date, if any, is the only one behind it that its match takes. -/
theorem closing_of_read? (h : p.read? cs = some (date, after, rest)) :
    ∃ closing, after = closing ++ rest ∧ closing.length < p.spacing := by
  have hclosing : ∀ {cs rest : List Char}, p.readClosing? cs = some rest →
      ∃ closing, cs = closing ++ rest ∧ closing.length < 2 := by
    intro cs rest hread
    cases cs with
    | nil =>
      cases hread
      exact ⟨[], rfl, by decide⟩
    | cons c cs =>
      simp only [readClosing?] at hread
      split at hread
      · cases hread
        exact ⟨[c], rfl, Nat.lt_succ_self 1⟩
      · cases hread
  unfold read? at h
  simp only [Option.bind_eq_bind, Option.bind_eq_some_iff, Option.pure_def, Option.some.injEq,
    Prod.mk.injEq, Prod.exists] at h
  obtain ⟨-, -, -, -, -, -, -, -, -, afterDay, -, after', rest', hend, -, rfl, rfl⟩ := h
  unfold readEnd? at hend
  dsimp only at hend
  split at hend
  · rename_i hclosed
    rw [spacing, if_pos hclosed]
    split at hend
    · rename_i hlonger
      cases hend
      exact hclosing hlonger
    · obtain ⟨_, hread, heq⟩ := Option.map_eq_some_iff.mp hend
      cases heq
      exact hclosing hread
  · rename_i hopen
    cases hend
    exact ⟨[], rfl, by rw [spacing, if_neg hopen]; decide⟩

/-- A match reaches the dates that do not begin behind what it takes. -/
theorem reaches_of_le (front : List Char) (hread : p.read? cs = some (date, after, rest))
    (hb : p.StandsApart (front ++ cs) b) (hlt : byteLength front < b.span.start)
    (hle : b.span.start ≤ byteLength (front ++ cs.take (cs.length - rest.length))) :
    p.Reaches (front ++ cs) ⟨⟨byteLength front,
      byteLength front + (byteLength cs - byteLength after)⟩, date⟩ b := by
  obtain ⟨⟨part, rfl, -⟩, -⟩ := of_read? hread
  obtain ⟨closing, rfl, hshort⟩ := closing_of_read? hread
  obtain ⟨front', part', back', -, ⟨htext, hspan, -⟩, -⟩ := hb
  have htaken : (part ++ (closing ++ rest)).take
      ((part ++ (closing ++ rest)).length - rest.length) = part ++ closing := by
    rw [← List.append_assoc]
    exact List.take_left' (by simp only [List.length_append]; omega)
  have hstop : byteLength front + (byteLength (part ++ (closing ++ rest)) -
      byteLength (closing ++ rest)) = byteLength (front ++ part) := by simp
  rw [hspan, htaken] at hle
  refine ⟨hlt, fun between hbetween => ?_⟩
  have hsplit : (front ++ part) ++ (closing ++ rest) = front' ++ (part' ++ back') := by
    rw [List.append_assoc, htext, List.append_assoc]
  simp only [hspan, hstop] at hbetween
  rw [← List.append_assoc front part, slice_eq_ok_iff hsplit] at hbetween
  subst hbetween
  obtain ⟨_, hclosing, -⟩ := exists_of_byteLength_le
    (show (front ++ part ++ between) ++ (part' ++ back') = (front ++ (part ++ closing)) ++ rest by
      rw [← hsplit]; simp) hle
  have hlength := congrArg List.length hclosing
  simp only [List.length_append] at hlength
  omega

/-- A date that is read behind some character begins behind the beginning of the text. -/
theorem lt_start_of_mem_datesFrom {offset : Nat} (h : b ∈ p.datesFrom offset cs) :
    offset < b.span.start := by
  induction cs generalizing offset with
  | nil => cases h
  | cons c cs ih =>
    rcases mem_datesFrom_cons.mp h with ⟨-, after, rest, -, hspan⟩ | hmem
    · rw [hspan]
      exact Nat.lt_add_of_pos_right (Char.utf8Size_pos c)
    · exact Nat.lt_of_le_of_lt (Nat.le_add_right _ _) (ih hmem)

/-- A scan finds a date unless the character before it is skipped, or a match that is found
reaches the date. -/
theorem mem_matchesFrom_or_reached (front : List Char) (skip : Nat)
    (h : b ∈ p.datesFrom (byteLength front) cs) :
    b ∈ p.matchesFrom skip (byteLength front) cs ∨
      b.span.start ≤ byteLength (front ++ cs.take skip) ∨
      ∃ a ∈ p.matchesFrom skip (byteLength front) cs, p.Reaches (front ++ cs) a b := by
  induction cs generalizing front skip with
  | nil => cases h
  | cons c cs ih =>
    have hfront : byteLength front + c.utf8Size = byteLength (front ++ [c]) := by simp
    have happend : ∀ back, front ++ c :: back = (front ++ [c]) ++ back := by simp
    have hapart := standsApart_of_mem_datesFrom front h
    rw [mem_datesFrom_cons, hfront] at h
    cases skip with
    | succ skip =>
      rw [matchesFrom, hfront, List.take_succ_cons, happend (cs.take skip), happend cs]
      rcases h with ⟨-, after, rest, -, hspan⟩ | hmem
      · refine .inr (.inl ?_)
        rw [hspan, byteLength_append _ (cs.take skip)]
        exact Nat.le_add_right _ _
      · exact ih (front ++ [c]) skip hmem
    | zero =>
      rw [happend cs] at hapart ⊢
      rw [matchesFrom, hfront]
      cases hbehind : (if p.allowsBeside c then p.read? cs else none) with
      | none =>
        rcases h with ⟨hc, after, rest, hread, -⟩ | hmem
        · simp [hc, hread] at hbehind
        · refine (ih (front ++ [c]) 0 hmem).imp_right fun h => .inr (h.resolve_left fun hle => ?_)
          rw [List.take_zero, List.append_nil] at hle
          exact Nat.not_le_of_lt (lt_start_of_mem_datesFrom hmem) hle
      | some read =>
        obtain ⟨date, after, rest⟩ := read
        obtain ⟨hc, hread⟩ : p.allowsBeside c = true ∧ p.read? cs = some (date, after, rest) := by
          simpa using hbehind
        rw [readsAt_iff hread] at h
        rcases h with ⟨-, rfl⟩ | hmem
        · exact .inl List.mem_cons_self
        rcases ih (front ++ [c]) (cs.length - rest.length) hmem with
          hfound | hle | ⟨a, ha, hreached⟩
        · exact .inl (List.mem_cons_of_mem _ hfound)
        · exact .inr (.inr ⟨_, List.mem_cons_self,
            reaches_of_le _ hread hapart (lt_start_of_mem_datesFrom hmem) hle⟩)
        · exact .inr (.inr ⟨a, List.mem_cons_of_mem _ ha, hreached⟩)

/-- A date is overlooked only if a match that is found reaches it. -/
theorem mem_findAll_or_reached (h : b ∈ p.dates cs) :
    b ∈ p.findAll cs ∨ ∃ a ∈ p.findAll cs, p.Reaches cs a b := by
  have hapart := mem_dates_iff.mp h
  rw [mem_dates] at h
  rw [findAll]
  cases hread : p.read? cs with
  | none =>
    rcases h with ⟨after, rest, hread', -⟩ | hmem
    · rw [hread] at hread'
      cases hread'
    · refine (mem_matchesFrom_or_reached [] 0 hmem).imp_right fun h => h.resolve_left fun hle => ?_
      exact Nat.not_le_of_lt (lt_start_of_mem_datesFrom hmem) hle
  | some read =>
    obtain ⟨date, after, rest⟩ := read
    rw [readsAt_iff hread, Nat.zero_add] at h
    rcases h with rfl | hmem
    · exact .inl List.mem_cons_self
    rcases mem_matchesFrom_or_reached [] (cs.length - rest.length) hmem with
      hfound | hle | ⟨a, ha, hreached⟩
    · exact .inl (List.mem_cons_of_mem _ hfound)
    · have hreached := reaches_of_le [] hread hapart (lt_start_of_mem_datesFrom hmem) hle
      rw [byteLength_nil, Nat.zero_add] at hreached
      exact .inr ⟨_, List.mem_cons_self, hreached⟩
    · exact .inr ⟨a, List.mem_cons_of_mem _ ha, hreached⟩

end DatePattern

/-- The dates of a text stand apart from each other, and from the words beside them. -/
structure DatesApart (cs : List Char) : Prop where
  /-- No ASCII letter or digit stands directly before or after a date. -/
  untouched : ∀ p ∈ DatePattern.all, ∀ found ∈ p.dates cs, ∀ sides,
    beside cs found.span = .ok sides →
      sides.1.any Char.isAlphanum = false ∧ sides.2.any Char.isAlphanum = false
  /-- Two dates of a pattern, one behind the other, have enough characters between them. -/
  spaced : ∀ p ∈ DatePattern.all, ∀ a ∈ p.dates cs, ∀ b ∈ p.dates cs, ∀ between,
    slice a.span.stop b.span.start cs = .ok between → p.spacing ≤ between.length

/-- What is to hold of a result can be tested on the result, and holds without one. -/
instance decidableForallOk {ε α : Type} {P : α → Prop} [DecidablePred P] :
    (e : Except ε α) → Decidable (∀ a, e = .ok a → P a)
  | .error _ => isTrue fun _ h => by cases h
  | .ok a => decidable_of_iff (P a)
    ⟨fun ha _ h => by cases h; exact ha, fun h => h a rfl⟩

/-- Whether the dates of a text stand apart is tested on the dates that it has. -/
instance (cs : List Char) : Decidable (DatesApart cs) :=
  decidable_of_iff (_ ∧ _) ⟨fun h => ⟨h.1, h.2⟩, fun h => ⟨h.untouched, h.spaced⟩⟩

/-- A text without digits has no dates that could stand too close. -/
theorem datesApart_of_hasNoDigit {cs : List Char} (h : HasNoDigit cs) : DatesApart cs := by
  constructor
  case untouched =>
    intro p _ found hfound
    rw [DatePattern.dates_eq_nil h] at hfound
    cases hfound
  case spaced =>
    intro p _ a ha
    rw [DatePattern.dates_eq_nil h] at ha
    cases ha

namespace DatesApart

variable {cs : List Char} (h : DatesApart cs)
include h

/-- Each date is found, or begins inside one that is found. -/
theorem exists_found {p : DatePattern} (hp : p ∈ DatePattern.all) {b : DateMatch}
    (hb : b ∈ p.dates cs) :
    ∃ a ∈ p.findAll cs, a.span.start ≤ b.span.start ∧ b.span.start < a.span.stop := by
  have hplace : ∀ {found}, found ∈ p.dates cs → ∃ front part back, cs = front ++ part ++ back ∧
      part ≠ [] ∧ found.span = ⟨byteLength front, byteLength (front ++ part)⟩ := by
    intro found hfound
    obtain ⟨front, part, back, rest, ⟨hcs, hspan, hread⟩, -⟩ := DatePattern.mem_dates_iff.mp hfound
    exact ⟨front, part, back, hcs, (DatePattern.shape_of_read? hp hread).1.ne_nil,
      by rw [hspan, byteLength_append]⟩
  obtain ⟨front', part', back', hcs', hne', hspan'⟩ := hplace hb
  rcases DatePattern.mem_findAll_or_reached hb with hmem | ⟨a, ha, hlt, hshort⟩
  · refine ⟨b, hmem, Nat.le_refl _, ?_⟩
    have hpos := mt byteLength_eq_zero.mp hne'
    simp only [hspan', byteLength_append]
    omega
  · refine ⟨a, ha, Nat.le_of_lt hlt, ?_⟩
    have hadates := DatePattern.mem_dates_of_mem_findAll ha
    obtain ⟨front, part, back, hcs, -, hspan⟩ := hplace hadates
    by_contra hbehind
    have hsplit : (front ++ part) ++ back = front' ++ (part' ++ back') := by
      rw [← hcs, hcs', List.append_assoc]
    rw [hspan, hspan', Nat.not_lt] at hbehind
    obtain ⟨between, hbetween, -⟩ := exists_of_byteLength_le hsplit hbehind
    have hslice : slice a.span.stop b.span.start cs = .ok between := by
      rw [hspan, hspan', hcs]
      exact (slice_eq_ok_iff hsplit).mpr hbetween
    exact absurd (h.spaced p hp a hadates b hb between hslice)
      (Nat.not_le_of_lt (hshort between hslice))

end DatesApart

end Daybook
