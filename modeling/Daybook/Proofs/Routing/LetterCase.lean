import Daybook.Proofs.Routing.Decisions
import Daybook.Proofs.Time.LetterCase

/-!
# Routing without regard to case

A query in lower case is decided about as the query is, except that no proper noun is seen
in it. So two queries that differ in the case of letters only are decided about alike, up to
the weight of words against meaning where notes are asked for.
-/

namespace Daybook

open Text

namespace Decision

variable {first second : Decision}

/-- The decision that is made in the place of another one where no proper noun is seen, with
its content in lower case. -/
def caseless (decision : Decision) : Decision :=
  { decision with
    strategy :=
      if decision.strategy = .hybridLexical then .memoSemantic else decision.strategy
    confidence := if decision.strategy = .hybridLexical then 0.90 else decision.confidence
    semanticQuery := inLowerCase decision.semanticQuery }

/-- Two decisions say the same, except for the case of letters and for the weight of words in
a search for notes. -/
structure SameUpToCase (first second : Decision) : Prop where
  range_eq : first.range = second.range
  mode_eq : first.mode = second.mode
  needsReranker_eq : first.needsReranker = second.needsReranker
  semanticQuery : lower first.semanticQuery.toList = lower second.semanticQuery.toList
  strategy : first.strategy = second.strategy ∨
    (first.strategy = .memoSemantic ∧ second.strategy = .hybridLexical) ∨
    (first.strategy = .hybridLexical ∧ second.strategy = .memoSemantic)

/-- Decisions that agree in lower case are the same up to case. -/
theorem sameUpToCase_of_caseless (h : first.caseless = second.caseless) :
    first.SameUpToCase second := by
  simp only [caseless, Decision.mk.injEq] at h
  obtain ⟨hstrategy, -, hrange, hquery, hready, hmode⟩ := h
  refine ⟨hrange, hmode, hready, String.ofList_injective hquery, ?_⟩
  split at hstrategy <;> split at hstrategy
  · exact .inl (by simp_all)
  · exact .inr (.inr ⟨by assumption, hstrategy.symm⟩)
  · exact .inr (.inl ⟨hstrategy, by assumption⟩)
  · exact .inl hstrategy

/-- Where the same is said in lower case, the same is said up to case, or the same fault met. -/
theorem sameUpToCase_or_fault {first second : Except Fault Decision}
    (h : first.map caseless = second.map caseless) :
    (∃ decision decision', first = .ok decision ∧ second = .ok decision' ∧
      decision.SameUpToCase decision') ∨
    ∃ fault, first = .error fault ∧ second = .error fault := by
  cases first with
  | ok decision =>
    cases second with
    | ok decision' =>
      exact .inl ⟨decision, decision', rfl, rfl, sameUpToCase_of_caseless (Except.ok.inj h)⟩
    | error fault => cases h
  | error fault =>
    cases second with
    | ok decision' => cases h
    | error fault' => exact .inr ⟨fault, rfl, congrArg _ (Except.error.inj h).symm⟩

end Decision

namespace Router

variable {router : Router}

/-- The content of a query in lower case is that of the query, in lower case. -/
theorem content_lower (query : List Char) :
    router.content (lower query) = (router.content query).map lower := by
  unfold content
  rw [blankPunctuation_lower, removeTerms_lower]
  cases removeTerms (blankPunctuation query) router.lexicon.stopWords with
  | error fault => rfl
  | ok rest => exact congrArg Except.ok (collapse_lower rest)

/-- Whether a content has schedule words and nothing else does not depend on case. -/
theorem isScheduleOnly_lower (content : List Char) :
    router.isScheduleOnly (lower content) = router.isScheduleOnly content := by
  unfold isScheduleOnly
  rw [removeTerms_lower]
  cases removeTerms content router.lexicon.scheduleWords with
  | error fault => rfl
  | ok rest => exact congrArg Except.ok (allBlank_lower rest)

/-- Whether a query has one of some terms does not depend on case. -/
theorem holdsAny_lower (query : List Char) (terms : List String) :
    holdsAny (lower query) terms = holdsAny query terms := by
  simp only [holdsAny, containsTerm_lower]

/-- With the same time, a query in lower case is decided about alike, up to the case of its
content. -/
theorem routeTimed_inLowerCase (query : String) (time : Resolution) :
    router.routeTimed (inLowerCase query) time =
      (router.routeTimed query time).map Decision.caseless := by
  unfold routeTimed
  rw [Resolution.strip_inLowerCase]
  cases Resolution.strip query with
  | error fault => rfl
  | ok stripped =>
    simp only [Except.map, bind, Except.bind, toList_inLowerCase, content_lower]
    cases router.content stripped.toList with
    | error fault => rfl
    | ok content =>
      simp only [isScheduleOnly_lower]
      cases router.isScheduleOnly content with
      | error fault => rfl
      | ok only =>
        cases only with
        | true => rfl
        | false => simp [pure, Except.pure, Decision.caseless, inLowerCase_ofList]

/-- In lower case, notes are searched for by meaning. -/
theorem routeMemo_inLowerCase (query : String) :
    router.routeMemo (inLowerCase query) = (router.routeMemo query).map Decision.caseless := by
  unfold routeMemo
  rw [toList_inLowerCase, content_lower]
  cases router.content query.toList with
  | error fault => rfl
  | ok content =>
    simp only [Except.map, bind, Except.bind, countProperNouns_lower, Nat.zero_mul, Nat.not_lt_zero,
      decide_false, Bool.and_false, Bool.false_eq_true, if_false]
    by_cases hnouns : 0 < (words content).length ∧
        (words content).length < countProperNouns content * 2 <;>
      simp [hnouns, pure, Except.pure, Decision.caseless, inLowerCase_ofList]

/-- A query in lower case is classified alike, up to the case of its content. -/
theorem classify_inLowerCase (query : String) (now : Instant) :
    router.classify (inLowerCase query) now =
      (router.classify query now).map Decision.caseless := by
  unfold classify
  rw [Resolution.resolve_inLowerCase]
  cases Resolution.resolve query now with
  | error fault => rfl
  | ok found =>
    simp only [bind, Except.bind, toList_inLowerCase, holdsAny_lower]
    cases found with
    | some time => exact routeTimed_inLowerCase query time
    | none =>
      dsimp only
      split
      · exact routeMemo_inLowerCase query
      · split <;> rfl

/-- A query in lower case is decided about as the query is, but for proper nouns. -/
theorem route_inLowerCase (query : String) (now : Instant) :
    router.route (inLowerCase query) now = (router.route query now).map Decision.caseless := by
  have hclassify := router.classify_inLowerCase (String.ofList (trim query.toList)) now
  rw [inLowerCase, String.toList_ofList] at hclassify
  have hempty : (lower (trim query.toList)).isEmpty = (trim query.toList).isEmpty :=
    List.isEmpty_map
  simp only [route, toList_inLowerCase, trim_lower, hclassify, hempty]
  split <;> rfl

/-- Two queries that differ only in the case of ASCII letters speak of the same time, and
what is left of them without it differs only in case. With any word lists they are decided
about alike, up to the case of the content and the weight of words in a search for notes;
both are decided about unless the day is in the first or the last year of the calendar, where
both may meet the same fault. -/
theorem ignores_case (lexicon : Settings.Lexicon) {first second : String}
    (h : lower first.toList = lower second.toList) (now : Instant) :
    Resolution.resolve first now = Resolution.resolve second now ∧
    (∃ stripped stripped', Resolution.strip first = .ok stripped ∧
      Resolution.strip second = .ok stripped' ∧
      lower stripped.toList = lower stripped'.toList) ∧
    ((∃ decision decision', (ofLexicon lexicon).route first now = .ok decision ∧
      (ofLexicon lexicon).route second now = .ok decision' ∧ decision.SameUpToCase decision') ∨
    (¬(-262142 ≤ now.date.year ∧ now.date.year ≤ 262141) ∧
      ∃ fault, (ofLexicon lexicon).route first now = .error fault ∧
        (ofLexicon lexicon).route second now = .error fault)) := by
  have hlower : inLowerCase first = inLowerCase second := congrArg String.ofList h
  refine ⟨?_, ?_, ?_⟩
  · rw [← Resolution.resolve_inLowerCase first, hlower, Resolution.resolve_inLowerCase]
  · have hstrip : (Resolution.strip first).map inLowerCase =
        (Resolution.strip second).map inLowerCase := by
      rw [← Resolution.strip_inLowerCase, hlower, Resolution.strip_inLowerCase]
    rw [Resolution.strip_eq, Resolution.strip_eq] at hstrip
    exact ⟨_, _, Resolution.strip_eq first, Resolution.strip_eq second,
      String.ofList_injective (Except.ok.inj hstrip)⟩
  · have hroute : ((ofLexicon lexicon).route first now).map Decision.caseless =
        ((ofLexicon lexicon).route second now).map Decision.caseless := by
      rw [← route_inLowerCase, hlower, route_inLowerCase]
    refine (Decision.sameUpToCase_or_fault hroute).imp_right fun ⟨fault, hfirst, hsecond⟩ => ?_
    refine ⟨fun ⟨hlow, hhigh⟩ => ?_, fault, hfirst, hsecond⟩
    obtain ⟨decision, -, hdecision, -⟩ := (ofLexicon lexicon).exists_route first hlow hhigh
    rw [hfirst] at hdecision
    cases hdecision

/-- Word lists that come in the order of length are used as they are. -/
theorem ofLexicon_eq {lexicon : Settings.Lexicon}
    (hstop : lexicon.stopWords.Pairwise fun a b => b.toList.length ≤ a.toList.length)
    (hschedule : lexicon.scheduleWords.Pairwise fun a b => b.toList.length ≤ a.toList.length) :
    ofLexicon lexicon = ⟨lexicon⟩ := by
  have hsorted : ∀ {words : List String},
      words.Pairwise (fun a b => b.toList.length ≤ a.toList.length) → longestFirst words = words :=
    fun h => List.mergeSort_of_pairwise (h.imp decide_eq_true)
  simp only [ofLexicon, hsorted hstop, hsorted hschedule]

/-- Of two queries for notes about a person, words weigh more where the name is capitalised. -/
theorem ignores_case_but_names :
    let lexicon : Settings.Lexicon := { stopWords := ["about", "notes"], scheduleWords := ["plan"] }
    let now : Instant := ⟨⟨19723, by decide, by decide⟩, 3600, 0, by decide, by decide⟩
    let first := "NOTES about Ada Lovelace"
    let second := "notes About ada lovelace"
    lower first.toList = lower second.toList ∧
    ∃ decision decision', (ofLexicon lexicon).route first now = .ok decision ∧
      (ofLexicon lexicon).route second now = .ok decision' ∧ decision.SameUpToCase decision' ∧
      decision.strategy = .hybridLexical ∧ decision'.strategy = .memoSemantic := by
  intro lexicon now first second
  have hlower : lower first.toList = lower second.toList := by decide
  have hyear : now.date.year = 2024 := by decide +kernel
  have hrouter : ofLexicon lexicon = ⟨lexicon⟩ := ofLexicon_eq (by decide) (by decide)
  have hfirst : ((ofLexicon lexicon).route first now).map (·.strategy) = .ok .hybridLexical := by
    rw [hrouter]
    decide +kernel
  have hsecond : ((ofLexicon lexicon).route second now).map (·.strategy) = .ok .memoSemantic := by
    rw [hrouter]
    decide +kernel
  obtain ⟨-, -, ⟨decision, decision', hdecision, hdecision', hsame⟩ | ⟨hyears, -⟩⟩ :=
    ignores_case lexicon hlower now
  · rw [hdecision] at hfirst
    rw [hdecision'] at hsecond
    exact ⟨hlower, decision, decision', hdecision, hdecision', hsame, Except.ok.inj hfirst,
      Except.ok.inj hsecond⟩
  · omega

end Router

end Daybook
