import Daybook.Proofs.Routing.Decisions
import Daybook.Proofs.Time.WrittenNumbers

/-!
# What is read of the clock

Times are seen from a day, before or after one o'clock in the afternoon. Nothing else of the
clock is read, and a date that is written with its year is the same from every day.
-/

namespace Daybook

namespace Instant

/-- Two instants of one day, both before one o'clock in the afternoon or both after. -/
structure SharesHalf (now other : Instant) : Prop where
  date_eq : now.date = other.date
  noon : now.hour ≤ 12 ∧ other.hour ≤ 12 ∨ 12 < now.hour ∧ 12 < other.hour

namespace SharesHalf

variable {now other : Instant} (h : now.SharesHalf other)
include h

/-- A day of the week that is today is behind from one o'clock on; no other phrase for a day
depends on the hour. -/
theorem dayOf_eq (day : Phrase) (week : Option (Int × String)) :
    Resolution.dayOf day week now = Resolution.dayOf day week other := by
  have hnoon : 12 < now.hour ↔ 12 < other.hour := by
    have := h.noon
    omega
  simp only [Resolution.dayOf, h.date_eq, hnoon]

/-- Phrases are resolved alike at two instants of one half of a day. -/
theorem ofPhrases_eq (phrases : List Phrase) :
    Resolution.ofPhrases phrases now = Resolution.ofPhrases phrases other := by
  simp only [Resolution.ofPhrases, h.date_eq, h.dayOf_eq]

/-- A text is resolved alike at two instants of one half of a day, as a written date is seen from
the day alone. -/
theorem resolve_eq (text : String) :
    Resolution.resolve text now = Resolution.resolve text other := by
  simp only [Resolution.resolve, h.date_eq, h.ofPhrases_eq]

/-- A query is routed alike at two instants of one half of a day, as nothing but what it is
resolved to depends on the instant. -/
theorem route_eq (router : Router) (query : String) :
    router.route query now = router.route query other := by
  simp only [Router.route, Router.classify, h.resolve_eq]

end SharesHalf

end Instant

namespace Resolution

variable {cs : List Char}

/-- The first pattern that finds a date in a text. -/
def decidingPattern? (cs : List Char) : Option DatePattern :=
  DatePattern.all.find? fun p => !(p.findAll cs).isEmpty

/-- A pattern finds dates with a year if it has one. -/
theorem isSome_year {p : DatePattern} (hp : p ∈ DatePattern.all) {found : DateMatch}
    (h : found ∈ p.findAll cs) : found.date.year.isSome = p.yearMark.isSome := by
  obtain ⟨front, part, back, rest, -, -, hread⟩ := DatePattern.stands_of_mem_findAll h
  obtain ⟨parts, -, -, hspell, -⟩ := DatePattern.parts_of_read? front hp hread
  rw [hspell.numbers, Option.isSome_map]

/-- The date that decides is the first one that the deciding pattern finds. -/
theorem exists_writtenDate? {p : DatePattern} (h : decidingPattern? cs = some p) :
    ∃ written, writtenDate? cs = some (p.style, written) ∧
      written.year.isSome = p.yearMark.isSome := by
  obtain ⟨hfound, before, after, hall, hbefore⟩ := List.find?_eq_some_iff_append.mp h
  cases hfirst : p.findAll cs with
  | nil => simp [hfirst] at hfound
  | cons found rest =>
    have hwritten : writtenDate? cs = some (p.style, found.date) :=
      writtenDate?_eq_some hall (fun q hq => by simpa using hbefore q hq) (by rw [hfirst]; rfl)
    exact ⟨found.date, hwritten, isSome_year (by simp [hall]) (hfirst ▸ List.mem_cons_self)⟩

/-- A date that is written with its year is the same from every day. -/
theorem absoluteDate?_congr {p : DatePattern} (hp : decidingPattern? cs = some p)
    (hyear : p.yearMark.isSome = true) (today other : Date) :
    absoluteDate? cs today = absoluteDate? cs other := by
  obtain ⟨written, hwritten, hsome⟩ := exists_writtenDate? hp
  obtain ⟨year, hwrittenYear⟩ := Option.isSome_iff_exists.mp (hsome.trans hyear)
  simp only [absoluteDate?, hwritten, dateOf?, hwrittenYear, Option.bind_eq_bind, Option.bind_some]

/-- What is resolved by a date that is written with its year is resolved so at all times. -/
theorem resolve_eq_of_year {text : String} {now : Instant} {p : DatePattern} {time : Resolution}
    (hp : decidingPattern? text.toList = some p) (hyear : p.yearMark.isSome = true)
    (h : resolve text now = .ok (some time)) (hsource : time.source = .absolute)
    (other : Instant) : resolve text other = .ok (some time) := by
  have hsame := absoluteDate?_congr hp hyear now.date other.date
  cases hdate : absoluteDate? text.toList now.date with
  | none =>
    rw [source_eq_relative hdate h] at hsource
    cases hsource
  | some written =>
    rw [hdate] at hsame
    rw [← h]
    simp only [resolve, hdate, ← hsame]

end Resolution

namespace Router

/-- With any word lists, a text is resolved and a query decided about as at any other instant
of the same half of the day. What is resolved by a date that is written with its year is
resolved so at all times. -/
theorem reads_half_days (lexicon : Settings.Lexicon) (text : String) (now other : Instant) :
    (now.SharesHalf other → Resolution.resolve text now = Resolution.resolve text other ∧
      (ofLexicon lexicon).route text now = (ofLexicon lexicon).route text other) ∧
    ∀ p time, Resolution.decidingPattern? text.toList = some p → p.yearMark.isSome = true →
      Resolution.resolve text now = .ok (some time) → time.source = .absolute →
      Resolution.resolve text other = .ok (some time) := by
  refine ⟨fun h => ⟨h.resolve_eq text, h.route_eq _ text⟩, fun p time hp hyear h hsource => ?_⟩
  exact Resolution.resolve_eq_of_year hp hyear h hsource other

/-- On a Monday, the day that is called Monday is today until one o'clock. A leap day that is
written with its year is the same at all times. -/
theorem reads_half_days_of_monday :
    let lexicon : Settings.Lexicon := {}
    let today : Date := ⟨19723, by decide, by decide⟩
    let early : Instant := ⟨today, 0, 0, by decide, by decide⟩
    let noon : Instant := ⟨today, 46799, 1999999999, by decide, by decide⟩
    let late : Instant := ⟨today, 46800, 0, by decide, by decide⟩
    let text := "monday standup"
    (early.SharesHalf noon ∧ Resolution.resolve text early = Resolution.resolve text noon ∧
      (ofLexicon lexicon).route text early = (ofLexicon lexicon).route text noon ∧
      Resolution.resolve text early ≠ Resolution.resolve text late) ∧
    ∃ time, time.source = .absolute ∧
      ∀ other, Resolution.resolve "2024-02-29 noon" other = .ok (some time) := by
  intro lexicon today early noon late text
  have hhalf : early.SharesHalf noon := ⟨rfl, .inl (by decide)⟩
  obtain ⟨hresolve, hroute⟩ := (reads_half_days lexicon text early noon).1 hhalf
  refine ⟨⟨hhalf, hresolve, hroute, by decide +kernel⟩, ?_⟩
  have hpattern : Resolution.decidingPattern? "2024-02-29 noon".toList =
      some ⟨.hyphens, some '-', '-', false, [], true⟩ := by decide +kernel
  have hsource : (Resolution.resolve "2024-02-29 noon" early).map (·.map (·.source)) =
      .ok (some .absolute) := by decide +kernel
  cases hfound : Resolution.resolve "2024-02-29 noon" early with
  | error fault => simp [hfound, Except.map] at hsource
  | ok found =>
    rw [hfound, Except.map, Except.ok.injEq, Option.map_eq_some_iff] at hsource
    obtain ⟨time, rfl, habsolute⟩ := hsource
    exact ⟨time, habsolute, fun other => (reads_half_days lexicon _ early other).2 _ time hpattern
      rfl hfound habsolute⟩

end Router

end Daybook
