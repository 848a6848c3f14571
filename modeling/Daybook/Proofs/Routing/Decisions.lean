import Daybook.Proofs.Retrieval.Conclusions
import Daybook.Proofs.Text.Removal
import Daybook.Proofs.Time.Resolving
import Daybook.Proofs.Time.Stripping
import Daybook.Routing.Router

/-!
# How queries are routed

Each decision is made in one of six ways, with any word lists. What it says of time,
strategy, content and reranker fits together, and the request that is made from it is not
refused for its range, nor for its length if the query was short enough.
-/

namespace Daybook

open Text

namespace Resolution

/-- A day that has a next one has a range, and so has each part of it. -/
theorem exists_dayRange {date : Date} (hdate : date.day < Date.last.day) (label : String)
    (part : Option (DayPart × String)) : ∃ range, dayRange date label part = .ok (some range) := by
  obtain ⟨start, stop, hrange, -, -, hordered, -⟩ := exists_hours hdate label part
  exact ⟨_, hrange.trans (congrArg Except.ok (if_pos hordered))⟩

/-- A blank text has no digits, so no date is written in it. -/
theorem absoluteDate?_of_allBlank {cs : List Char} (hblank : allBlank cs = true) (today : Date) :
    absoluteDate? cs today = none := by
  refine absoluteDate?_eq_none (fun c hc => ?_) today
  by_contra hdigit
  rw [Bool.not_eq_false] at hdigit
  have hc' : isBlank c = true := List.all_eq_true.mp hblank c hc
  rw [isBlank_of_isDigit hdigit] at hc'
  cases hc'

/-- The time of a text comes from a written date if there is one, and only then. -/
theorem isAbsolute_iff {text : String} {now : Instant} {found : Option Resolution}
    (hlast : now.date.year ≤ 262141) (h : resolve text now = .ok found) :
    (∃ time, found = some time ∧ time.source = .absolute) ↔
      (absoluteDate? text.toList now.date).isSome = true := by
  cases hdate : absoluteDate? text.toList now.date with
  | none =>
    refine ⟨?_, fun hsome => by cases hsome⟩
    rintro ⟨time, rfl, hsource⟩
    rw [source_eq_relative hdate h] at hsource
    cases hsource
  | some written =>
    obtain ⟨date, label⟩ := written
    obtain ⟨range, hrange⟩ := exists_dayRange (isSoundDay_of_absoluteDate? hlast hdate).1 label
      (Phrase.bestDayPart? (Phrase.mentioned text.toList))
    unfold resolve at h
    simp only [hdate, hrange] at h
    split at h
    · rename_i hblank
      rw [absoluteDate?_of_allBlank hblank] at hdate
      cases hdate
    · cases h
      exact ⟨fun _ => rfl, fun _ => ⟨_, rfl, rfl⟩⟩

/-- Stripping a text does not make it longer. -/
theorem length_strip_le {text stripped : String} (h : strip text = .ok stripped) :
    stripped.toList.length ≤ text.toList.length := by
  rw [strip_eq, Except.ok.injEq] at h
  rw [← h, String.toList_ofList]
  exact Nat.le_trans (length_collapse_le _) (Nat.le_of_eq (length_masked _ _ _))

end Resolution

/-- A time, wherever it comes from, decides how schedules are matched. -/
theorem MatchMode.ofSource_ne_auto (source : TimeSource) : ofSource (some source) ≠ .auto := by
  cases source <;> decide

/-- Only a written date asks for strict matching. -/
theorem MatchMode.ofSource_eq_strict_iff {source : TimeSource} :
    ofSource (some source) = .strict ↔ source = .absolute := by
  cases source <;> decide

/-- What a decision says of time, strategy, content and reranker fits together, for a query
that speaks of a given time, if any. -/
structure Decision.IsCoherent (decision : Decision) (found : Option Resolution) : Prop where
  /-- The range is that of the time. -/
  range_eq : decision.range = found.map (·.range)
  timed_iff : decision.range.isSome = true ↔
    decision.strategy = .scheduleOnly ∨ decision.strategy = .hybridTimed
  auto_iff : decision.range.isSome = true ↔ decision.mode ≠ .auto
  /-- Only a time that was written as a date is taken at its word. -/
  strict_iff : decision.mode = .strict ↔ ∃ time, found = some time ∧ time.source = .absolute
  reranker_iff : decision.needsReranker = true ↔ decision.strategy = .reranked
  without_content : decision.strategy = .scheduleOnly ∨ decision.strategy = .hybridStandard →
    decision.semanticQuery = ""
  with_content : decision.strategy = .hybridTimed ∨ decision.strategy = .hybridLexical ∨
    decision.strategy = .reranked → allBlank decision.semanticQuery.toList = false

namespace Router

variable {router : Router} {query : String} {found : Option Resolution} {decision : Decision}

/-- A query has a content, which is not longer, and blank only if it is empty. -/
theorem exists_content (router : Router) (query : List Char) :
    ∃ content, router.content query = .ok content ∧ content.length ≤ query.length ∧
      (content ≠ [] → allBlank content = false) := by
  obtain ⟨rest, hrest, hlength⟩ :=
    exists_removeTerms router.lexicon.stopWords (blankPunctuation query)
  refine ⟨collapse rest, ?_, ?_, fun hne => ?_⟩
  · unfold content
    rw [hrest]
    rfl
  · rw [blankPunctuation, List.length_map] at hlength
    exact Nat.le_trans (length_collapse_le rest) hlength
  · rw [Bool.eq_false_iff, ne_eq, ← collapse_eq_nil_iff, collapse_collapse]
    exact hne

/-- A content is found to consist of words for schedules or not; an empty one does. -/
theorem exists_isScheduleOnly (router : Router) (content : List Char) :
    ∃ only, router.isScheduleOnly content = .ok only ∧ (content = [] → only = true) := by
  obtain ⟨rest, hrest, hlength⟩ := exists_removeTerms router.lexicon.scheduleWords content
  refine ⟨allBlank rest, ?_, ?_⟩
  · unfold isScheduleOnly
    rw [hrest]
    rfl
  · rintro rfl
    rw [List.length_eq_zero_iff.mp (Nat.le_zero.mp hlength)]
    rfl

/-- The six ways in which a trimmed query is decided about, given the time that it speaks of,
if any. -/
inductive Decides (router : Router) (query : String) : Option Resolution → Decision → Prop
  /-- Beside the time, there are words for schedules at most. -/
  | listed {time : Resolution} {stripped : String} {content : List Char}
      (hstripped : Resolution.strip query = .ok stripped)
      (hcontent : router.content stripped.toList = .ok content)
      (hschedules : router.isScheduleOnly content = .ok true) :
      Decides router query (some time)
        ⟨.scheduleOnly, 0.95, some time.range, "", false, .ofSource (some time.source)⟩
  /-- There is something else beside the time. -/
  | timed {time : Resolution} {stripped : String} {content : List Char}
      (hstripped : Resolution.strip query = .ok stripped)
      (hcontent : router.content stripped.toList = .ok content)
      (hother : router.isScheduleOnly content = .ok false) :
      Decides router query (some time)
        ⟨.hybridTimed, 0.90, some time.range, String.ofList content, false,
          .ofSource (some time.source)⟩
  /-- Notes are asked for, mostly by proper nouns. -/
  | lexical {content : List Char} (hmemo : holdsAny query.toList router.lexicon.memoKeywords = true)
      (hcontent : router.content query.toList = .ok content) (hwords : words content ≠ [])
      (hnouns : (words content).length < countProperNouns content * 2) :
      Decides router query none ⟨.hybridLexical, 0.85, none, String.ofList content, false, .auto⟩
  /-- Notes are asked for in other words, or in none. -/
  | semantic {content : List Char}
      (hmemo : holdsAny query.toList router.lexicon.memoKeywords = true)
      (hcontent : router.content query.toList = .ok content)
      (hother : words content = [] ∨ countProperNouns content * 2 ≤ (words content).length) :
      Decides router query none ⟨.memoSemantic, 0.90, none, String.ofList content, false, .auto⟩
  | question (hblank : allBlank query.toList = false)
      (hmemo : holdsAny query.toList router.lexicon.memoKeywords = false)
      (hquestion : holdsAny query.toList router.lexicon.questionKeywords = true) :
      Decides router query none ⟨.reranked, 0.70, none, query, true, .auto⟩
  | standard (hmemo : holdsAny query.toList router.lexicon.memoKeywords = false)
      (hquestion : holdsAny query.toList router.lexicon.questionKeywords = false) :
      Decides router query none .standard

/-- No term is in an empty query. -/
theorem holdsAny_nil (terms : List String) : holdsAny [] terms = false := by
  simp [holdsAny, containsTerm, findTerm, occurrences, occurrencesFrom]

/-- A query that speaks of a time is decided about without a fault, in one of the ways that a
decision with a time can be made. -/
theorem exists_routeTimed (router : Router) (query : String) (time : Resolution) :
    ∃ decision, router.routeTimed query time = .ok decision ∧
      router.Decides query (some time) decision := by
  have hstripped := Resolution.strip_eq query
  obtain ⟨content, hcontent, -⟩ := router.exists_content (collapse
    (masked (Resolution.timeSpans query.toList) 0 query.toList))
  rw [← String.toList_ofList (l := collapse _)] at hcontent
  obtain ⟨only, honly, -⟩ := router.exists_isScheduleOnly content
  unfold routeTimed
  rw [hstripped]
  dsimp only [bind, Except.bind]
  rw [hcontent]
  dsimp only
  rw [honly]
  cases only with
  | true => exact ⟨_, rfl, .listed hstripped hcontent honly⟩
  | false => exact ⟨_, rfl, .timed hstripped hcontent honly⟩

/-- A query about notes that speaks of no time is decided about without a fault, in one of the ways
that a decision without a time can be made. -/
theorem exists_routeMemo (hmemo : holdsAny query.toList router.lexicon.memoKeywords = true) :
    ∃ decision, router.routeMemo query = .ok decision ∧ router.Decides query none decision := by
  obtain ⟨content, hcontent, -⟩ := router.exists_content query.toList
  unfold routeMemo
  rw [hcontent]
  dsimp only [bind, Except.bind]
  split
  · rename_i hnouns
    simp only [Bool.and_eq_true, decide_eq_true_eq] at hnouns
    exact ⟨_, rfl, .lexical hmemo hcontent (List.ne_nil_of_length_pos hnouns.1) hnouns.2⟩
  · rename_i hother
    simp only [Bool.and_eq_true, decide_eq_true_eq, not_and_or, Nat.not_lt, Nat.le_zero,
      List.length_eq_zero_iff] at hother
    exact ⟨_, rfl, .semantic hmemo hcontent hother⟩

/-- A query that is not blank is decided about when it is known of which time it speaks. -/
theorem exists_classify (router : Router) {now : Instant}
    (hfound : Resolution.resolve query now = .ok found) (hblank : allBlank query.toList = false) :
    ∃ decision, router.classify query now = .ok decision ∧
      router.Decides query found decision := by
  unfold classify
  rw [hfound]
  dsimp only [bind, Except.bind]
  cases found with
  | some time => exact router.exists_routeTimed query time
  | none =>
    dsimp only
    split
    · rename_i hmemo
      exact exists_routeMemo hmemo
    · rename_i hmemo
      rw [Bool.not_eq_true] at hmemo
      split
      · rename_i hquestion
        exact ⟨_, rfl, .question hblank hmemo hquestion⟩
      · rename_i hquestion
        exact ⟨_, rfl, .standard hmemo (Bool.eq_false_iff.mpr hquestion)⟩

/-- Seen from a day that is not in the first or the last year of the calendar, each query is
decided about, in one of the six ways. A blank query is not classified. -/
theorem exists_route (router : Router) (query : String) {now : Instant}
    (hfirst : -262142 ≤ now.date.year) (hlast : now.date.year ≤ 262141) :
    ∃ decision found, router.route query now = .ok decision ∧
      Resolution.resolve (String.ofList (trim query.toList)) now = .ok found ∧
      (∀ time, found = some time → time.range.IsSound) ∧
      router.Decides (String.ofList (trim query.toList)) found decision := by
  obtain ⟨found, hfound, hsound⟩ :=
    Resolution.finds_resolve (String.ofList (trim query.toList)) hfirst hlast
  unfold route
  by_cases hnone : trim query.toList = []
  · rw [hnone] at hfound ⊢
    cases hfound
    exact ⟨.standard, none, rfl, rfl, hsound, .standard (holdsAny_nil _) (holdsAny_nil _)⟩
  · have hblank : allBlank (String.ofList (trim query.toList)).toList = false := by
      rw [String.toList_ofList]
      exact allBlank_trim_eq_false hnone
    obtain ⟨decision, hdecision, hdecides⟩ := router.exists_classify hfound hblank
    refine ⟨decision, found, ?_, hfound, hsound, hdecides⟩
    simpa [hnone] using hdecision

/-- The content of a text is not longer than the text, and is not blank where there is any. -/
theorem of_content {text content : List Char} (h : router.content text = .ok content) :
    content.length ≤ text.length ∧ (content ≠ [] → allBlank content = false) := by
  obtain ⟨found, hfound, hlength, hblank⟩ := router.exists_content text
  cases h.symm.trans hfound
  exact ⟨hlength, hblank⟩

/-- A content with a word beside those for schedules is not empty. -/
theorem ne_nil_of_isScheduleOnly {content : List Char}
    (h : router.isScheduleOnly content = .ok false) : content ≠ [] := by
  obtain ⟨only, honly, hempty⟩ := router.exists_isScheduleOnly content
  intro hnil
  rw [h, hempty hnil] at honly
  cases honly

/-- The semantic query is not longer than the query, also where it is the content of the stripped
one. -/
theorem Decides.length_le (h : router.Decides query found decision) :
    decision.semanticQuery.toList.length ≤ query.toList.length := by
  have hcontent : ∀ {text content : List Char}, router.content text = .ok content →
      text.length ≤ query.toList.length →
      (String.ofList content).toList.length ≤ query.toList.length := by
    intro text content hcontent htext
    rw [String.toList_ofList]
    exact Nat.le_trans (of_content hcontent).1 htext
  cases h with
  | listed => exact Nat.zero_le _
  | timed hstripped hrest => exact hcontent hrest (Resolution.length_strip_le hstripped)
  | lexical _ hrest => exact hcontent hrest (Nat.le_refl _)
  | semantic _ hrest => exact hcontent hrest (Nat.le_refl _)
  | question => exact Nat.le_refl _
  | standard => exact Nat.zero_le _

/-- Each way to decide is coherent. With a time the mode follows from its source. Without one there
is no range, and no mode but `auto`, so that only the content is left to look at. -/
theorem Decides.isCoherent (h : router.Decides query found decision) :
    decision.IsCoherent found := by
  cases h with
  | @listed time =>
    exact ⟨rfl, by simp, by simp [MatchMode.ofSource_ne_auto],
      by simp [MatchMode.ofSource_eq_strict_iff], by simp, fun _ => rfl, by simp⟩
  | @timed time stripped content _ hcontent hother =>
    have hwords : allBlank (String.ofList content).toList = false := by
      rw [String.toList_ofList]
      exact (of_content hcontent).2 (ne_nil_of_isScheduleOnly hother)
    exact ⟨rfl, by simp, by simp [MatchMode.ofSource_ne_auto],
      by simp [MatchMode.ofSource_eq_strict_iff], by simp, by simp, fun _ => hwords⟩
  | @lexical content _ _ hwords =>
    have hwords : allBlank (String.ofList content).toList = false := by
      rw [String.toList_ofList, Bool.eq_false_iff]
      exact fun hblank => hwords (allBlank_iff_words.mp hblank)
    exact ⟨rfl, by simp, by simp, by simp, by simp, by simp, fun _ => hwords⟩
  | semantic => exact ⟨rfl, by simp, by simp, by simp, by simp, by simp, by simp⟩
  | question hblank => exact ⟨rfl, by simp, by simp, by simp, by simp, by simp, fun _ => hblank⟩
  | standard =>
    exact ⟨rfl, by decide, by decide, by simp [Decision.standard], by decide, fun _ => rfl,
      by decide⟩

/-- Seen from a day that is not in the first or the last year of the calendar, the decision
for a query has the range of the time that the trimmed query speaks of, and is coherent; it
is strict for a written date. No request that is made from it is refused because its range
does not end after its start, whatever the settings are by then. -/
theorem route_coherent (router : Router) (query : String) (now : Instant)
    (hfirst : -262142 ≤ now.date.year) (hlast : now.date.year ≤ 262141) :
    let trimmed := String.ofList (trim query.toList)
    ∃ decision found, router.route query now = .ok decision ∧
      Resolution.resolve trimmed now = .ok found ∧ decision.IsCoherent found ∧
      (decision.mode = .strict ↔
        (Resolution.absoluteDate? trimmed.toList now.date).isSome = true) ∧
      ∀ text userId settings requestId current rerankerReady start world cancelAt a b,
        (((Request.ofDecision decision text userId settings requestId).retrieve current
          rerankerReady start).run world cancelAt).result ≠
            .error (.invalidRange (.notAfterStart a b)) := by
  intro trimmed
  obtain ⟨decision, found, hroute, hfound, hsound, hdecides⟩ :=
    router.exists_route query hfirst hlast
  have hcoherent := hdecides.isCoherent
  refine ⟨decision, found, hroute, hfound, hcoherent,
    hcoherent.strict_iff.trans (Resolution.isAbsolute_iff hlast hfound), ?_⟩
  intro text userId settings requestId current rerankerReady start world cancelAt
  apply Request.result_ne_notAfterStart
  intro range (hrange : decision.range = some range)
  rw [hcoherent.range_eq] at hrange
  obtain ⟨time, htime, rfl⟩ := Option.map_eq_some_iff.mp hrange
  exact (hsound time htime).ordered

/-- A stop word that is a blank does not hide the date. -/
theorem route_coherent_with_blank_word :
    let router := Router.ofLexicon { stopWords := [" ", "的", "a"], scheduleWords := ["会议"] }
    let now : Instant := ⟨⟨19723, by decide, by decide⟩, 3600, 0, by decide, by decide⟩
    (-262142 ≤ now.date.year ∧ now.date.year ≤ 262141) ∧
    ∃ decision, router.route " 2024-03-05 的 会议 " now = .ok decision ∧
      decision.mode = .strict ∧ decision.range.map (·.label) = some "2024-03-05" ∧
      decision.needsReranker = false := by
  intro router now
  have hyear : now.date.year = 2024 := by decide +kernel
  have hfirst : -262142 ≤ now.date.year := by omega
  have hlast : now.date.year ≤ 262141 := by omega
  obtain ⟨decision, found, hroute, hfound, hcoherent, hstrict, -⟩ :=
    route_coherent router " 2024-03-05 的 会议 " now hfirst hlast
  have hmode : decision.mode = .strict := hstrict.mpr (by decide +kernel)
  have hlabel : (Except.ok found).map (·.map (·.range.label)) =
      (.ok (some "2024-03-05") : Except Fault _) := by
    rw [← hfound]
    decide +kernel
  have hrange : decision.range.isSome = true := hcoherent.auto_iff.mpr (by simp [hmode])
  refine ⟨⟨hfirst, hlast⟩, decision, hroute, hmode, ?_, Bool.eq_false_iff.mpr fun hready => ?_⟩
  · rw [hcoherent.range_eq, Option.map_map]
    exact Except.ok.inj hlabel
  · have hstrategy := hcoherent.reranker_iff.mp hready
    simpa [hstrategy] using hcoherent.timed_iff.mp hrange

/-- Seen from a day that is not in the first or the last year of the calendar, the request
that is made for a routed query has a query that is not longer than the trimmed one. If that
is short enough, the request is not refused for its length, under any strategy. -/
theorem route_keeps_length (router : Router) (query : String) (now : Instant)
    (hfirst : -262142 ≤ now.date.year) (hlast : now.date.year ≤ 262141) :
    ∃ decision, router.route query now = .ok decision ∧ ∀ userId settings requestId,
      let request := Request.ofDecision decision query userId settings requestId
      let trimmed := trim query.toList
      request.query.toList.length ≤ trimmed.length ∧
      ∀ strategy current rerankerReady start world cancelAt,
        trimmed.length ≤ current.queryLimits.maxQueryLength → ∀ length limit,
        (({ request with strategy }.retrieve current rerankerReady start).run world
          cancelAt).result ≠ .error (.queryTooLong length limit) := by
  obtain ⟨decision, found, hroute, -, -, hdecides⟩ := router.exists_route query hfirst hlast
  refine ⟨decision, hroute, fun userId settings requestId => ?_⟩
  intro request trimmed
  have hlength : request.query.toList.length ≤ trimmed.length := by
    dsimp only [request, Request.ofDecision]
    split
    · rw [String.toList_ofList]
    · have hsemantic := hdecides.length_le
      rwa [String.toList_ofList] at hsemantic
  refine ⟨hlength, fun strategy current rerankerReady start world cancelAt hshort => ?_⟩
  exact Request.result_ne_queryTooLong (Nat.le_trans hlength hshort)

/-- The blanks around a query do not make it too long. -/
theorem route_keeps_length_of_padded :
    let router := Router.ofLexicon {}
    let now : Instant := ⟨⟨19723, by decide, by decide⟩, 3600, 0, by decide, by decide⟩
    let settings := Settings.default ""
    let limits := { settings.queryLimits with maxQueryLength := 12 }
    let current := { settings with queryLimits := limits }
    (-262142 ≤ now.date.year ∧ now.date.year ≤ 262141) ∧
    ∃ decision, router.route "  notes, Rust?  " now = .ok decision ∧ ∀ strategy length limit,
      let request := Request.ofDecision decision "  notes, Rust?  " 1 settings ""
      (({ request with strategy }.retrieve current false now).run Request.disorderly none).result ≠
        .error (.queryTooLong length limit) := by
  intro router now settings limits current
  have hyear : now.date.year = 2024 := by decide +kernel
  have hfirst : -262142 ≤ now.date.year := by omega
  have hlast : now.date.year ≤ 262141 := by omega
  obtain ⟨decision, hroute, hkeeps⟩ :=
    route_keeps_length router "  notes, Rust?  " now hfirst hlast
  refine ⟨⟨hfirst, hlast⟩, decision, hroute, fun strategy => ?_⟩
  exact (hkeeps 1 settings "").2 strategy current false now Request.disorderly none
    (by decide +kernel)

end Router

end Daybook
