import Daybook.Proofs.Retrieval.CallOrder

/-!
# Searching within a range

A search within a range issues the calls of the standard search and has its candidates. It
leaves out the schedules that start at another time, and only then cuts what is left to the
limit.
-/

namespace Daybook

/-- A program whose result is changed at its end runs as before. -/
theorem Program.runFrom_map {α β : Type} (f : α → β) (p : Program α) (world : Collaborators)
    (cancelAt : Option Nat) (time : Nat) (past : List Step) :
    (f <$> p).runFrom world cancelAt time past =
      let outcome := p.runFrom world cancelAt time past
      ⟨f outcome.result, outcome.steps, outcome.finish⟩ := by
  induction p generalizing time past with
  | done result => rfl
  | await call limitMs next ih => exact ih _ _ _

/-- A retrieval whose results are changed at its end issues the same calls, and fails as
before. -/
theorem Retrieval.run_map {α β : Type} (f : α → β) (retrieval : Retrieval α)
    (world : Collaborators) (cancelAt : Option Nat) :
    (f <$> retrieval).run world cancelAt =
      let outcome := retrieval.run world cancelAt
      ⟨f <$> outcome.result, outcome.steps, outcome.finish⟩ := by
  unfold run
  rw [ExceptT.run_map, Program.runFrom_map]
  rfl

/-- A schedule that starts at a time outside a range. -/
def SearchResult.startsOutside (range : Range) (r : SearchResult) : Bool :=
  match r.entity with
  | .memo _ => false
  | .schedule s => !(range.start ≤ s.start && s.start < range.stop)

namespace Request

variable {request : Request} {settings : Settings} {rerankerReady : Bool} {now : Instant}
  {range : Range}

/-- A result is kept by the filter unless it starts outside the range. -/
theorem startsWithin_eq (range : Range) (r : SearchResult) :
    startsWithin range r = !r.startsOutside range := by
  unfold startsWithin SearchResult.scheduleStart? SearchResult.startsOutside
  cases r.entity with
  | memo memo => rfl
  | schedule schedule => simp [Entity.schedule?, Range.contains]

/-- The candidates that the hits of a search are, weighted for a balanced search. -/
def balanced (settings : Settings) (found : List Hit) : List SearchResult :=
  found.map fun hit => weighted settings.scoring.semanticWeight (SearchResult.ofHit hit)

/-- No candidate is left out if all schedules among the hits start within the range. -/
theorem filter_balanced {found : List Hit}
    (hwithin : ∀ hit ∈ found, ∀ s, hit.entity = .schedule s →
      range.start ≤ s.start ∧ s.start < range.stop) :
    (balanced settings found).filter (!·.startsOutside range) = balanced settings found := by
  refine List.filter_eq_self.mpr fun r hr => ?_
  obtain ⟨hit, hhit, rfl⟩ := List.mem_map.mp hr
  have hsame : (weighted settings.scoring.semanticWeight (SearchResult.ofHit hit)).entity =
      hit.entity := rfl
  unfold SearchResult.startsOutside
  rw [hsame]
  cases hentity : hit.entity with
  | memo memo => rfl
  | schedule s =>
    obtain ⟨hstart, hstop⟩ := hwithin hit hhit s hentity
    simp [hstart, hstop]

/-- What is kept of the first results is found first among all that is kept. -/
theorem filter_take_isPrefix {α : Type} (p : α → Bool) (results : List α) (limit : Nat) :
    (results.take limit).filter p <+: (results.filter p).take limit := by
  rw [List.prefix_take_iff]
  refine ⟨(List.take_prefix limit results).filter p, ?_⟩
  exact Nat.le_trans (List.length_filter_le _ _) (List.length_take_le _ _)

/-- The standard search before the cut: the candidates, if the query is not too long. -/
def pool (request : Request) (settings : Settings) : Retrieval (List SearchResult) :=
  let length := request.query.toList.length
  let limit := settings.queryLimits.maxQueryLength
  if limit < length then Retrieval.ended (.error (.queryTooLong length limit))
  else request.candidates settings settings.scoring.semanticWeight

/-- A search has failed, or has its candidates from the hits that it was answered with. -/
def EndsBalanced (settings : Settings) (steps : List Step)
    (result : Except RetrievalError (List SearchResult)) : Prop :=
  (∃ error, result = .error error) ∨
    ∃ search ∈ steps, ∃ found, search.hits? = some found ∧ result = .ok (balanced settings found)

/-- The candidates of a hybrid search are the balanced ones, whatever the collaborators answer. -/
theorem endsBalanced_pool : (request.pool settings).Always (EndsBalanced settings) := by
  unfold pool
  dsimp only
  split
  · exact Retrieval.always_ended (.inl ⟨_, rfl⟩)
  · rw [← bind_pure (request.candidates settings _), candidates_bind]
    apply always_embed_search_bind
    · exact fun _ error _ => .inl ⟨error, rfl⟩
    · exact fun _ _ error _ _ _ => .inl ⟨error, rfl⟩
    · intro first second vector found _ _ hfound
      exact Retrieval.always_ended (.inr ⟨second, by simp, found, hfound, rfl⟩)

/-- The standard search cuts its candidates to the limit. -/
theorem retrieve_hybridStandard :
    { request with strategy := .hybridStandard }.retrieve settings rerankerReady now =
      (fun results => results.take (request.resultLimit settings)) <$> request.pool settings := by
  unfold retrieve byStrategy pool searchHybrid
  dsimp only
  split
  · rfl
  · simp only [checkWithin, Retrieval.ended_ok_bind, Option.all_none, List.filter_true,
      map_eq_pure_bind]
    rfl

/-- A search within a range leaves out what starts outside it, and cuts the rest. -/
theorem retrieve_hybridTimed (hrange : request.range = some range)
    (hordered : range.start < range.stop) :
    { request with strategy := .hybridTimed }.retrieve settings rerankerReady now =
      (fun results => (results.filter (!·.startsOutside range)).take
        (request.resultLimit settings)) <$> request.pool settings := by
  unfold retrieve byStrategy pool searchHybrid
  dsimp only
  split
  · rfl
  · have hcheck : checkWithin (some range) = .ok () := if_pos (decide_eq_true hordered)
    simp only [hrange, hcheck, Retrieval.ended_ok_bind, Option.all_some, startsWithin_eq,
      map_eq_pure_bind]
    rfl

/-- Without a range, the two searches are the same. -/
theorem retrieve_hybridTimed_none (hrange : request.range = none) :
    { request with strategy := .hybridTimed }.retrieve settings rerankerReady now =
      { request with strategy := .hybridStandard }.retrieve settings rerankerReady now := by
  unfold retrieve byStrategy
  simp only [hrange]
  rfl

/-- A request within a range beside the standard request for the same, under any settings and
with any collaborators, whenever the caller cancels. Without a range they are the same. With a
range that ends after its start, they issue the same calls and fail with the same error, or a
search has found some hits: the standard results are the first of its candidates, and the
results within the range are the first of those that are left without the schedules that start
outside. What the standard results have within the range comes first among these, and there is
no difference if no schedule that was found starts outside. -/
theorem retrieve_within (request : Request) (settings : Settings) (rerankerReady : Bool)
    (now : Instant) (world : Collaborators) (cancelAt : Option Nat) :
    let outcome (strategy : Strategy) :=
      ({ request with strategy }.retrieve settings rerankerReady now).run world cancelAt
    let plain := outcome .hybridStandard
    let timed := outcome .hybridTimed
    let limit := request.resultLimit settings
    (request.range = none → timed = plain) ∧
    ∀ range, request.range = some range → range.start < range.stop →
      timed.steps = plain.steps ∧
      ((∃ error, plain.result = .error error ∧ timed.result = .error error) ∨
        ∃ search ∈ plain.steps, ∃ found, search.hits? = some found ∧
          let candidates : List SearchResult := found.map fun hit =>
            weighted settings.scoring.semanticWeight (SearchResult.ofHit hit)
          let kept := candidates.filter (!·.startsOutside range)
          plain.result = .ok (candidates.take limit) ∧
          timed.result = .ok (kept.take limit) ∧
          (candidates.take limit).filter (!·.startsOutside range) <+: kept.take limit ∧
          ((∀ hit ∈ found, ∀ s, hit.entity = .schedule s →
              range.start ≤ s.start ∧ s.start < range.stop) →
            timed.result = plain.result)) := by
  intro outcome plain timed limit
  refine ⟨fun hnone => ?_, fun range hrange hordered => ?_⟩
  · exact congrArg (Retrieval.run · world cancelAt) (retrieve_hybridTimed_none hnone)
  · obtain ⟨before, hbefore⟩ : ∃ before, (request.pool settings).run world cancelAt = before :=
      ⟨_, rfl⟩
    have hpool : EndsBalanced settings before.steps before.result :=
      hbefore ▸ endsBalanced_pool.run world cancelAt
    have hplain : plain =
        ⟨(fun results => results.take limit) <$> before.result, before.steps, before.finish⟩ := by
      rw [← hbefore, ← Retrieval.run_map, ← retrieve_hybridStandard]
    have htimed : timed =
        ⟨(fun results => (results.filter (!·.startsOutside range)).take limit) <$> before.result,
          before.steps, before.finish⟩ := by
      rw [← hbefore, ← Retrieval.run_map, ← retrieve_hybridTimed hrange hordered]
    rw [hplain, htimed]
    refine ⟨rfl, ?_⟩
    rcases hpool with ⟨error, herror⟩ | ⟨search, hsearch, found, hfound, hresults⟩
    · exact .inl ⟨error, by rw [herror]; rfl, by rw [herror]; rfl⟩
    · refine .inr ⟨search, hsearch, found, hfound, by rw [hresults]; rfl, by rw [hresults]; rfl,
        filter_take_isPrefix _ _ _, fun hwithin => ?_⟩
      simp only [hresults, Except.map_ok, filter_balanced hwithin]

/-- A store that finds a holiday of another day before a meeting and the minutes of it. -/
def holidayStore : Collaborators
  | _, .embed _ => ⟨some 0, .ok []⟩
  | _, .vectorSearch .. => ⟨some 0, .ok
      [⟨.schedule ⟨1, 1, "Holiday", "", .midnight .last, none⟩, 1⟩,
        ⟨.schedule ⟨2, 1, "Meeting", "", .midnight .first, none⟩, 0.75⟩,
        ⟨.memo ⟨3, 1, "Minutes", .midnight .first⟩, 0.5⟩]⟩
  | _, _ => ⟨none, .error (.unavailable "")⟩

/-- The minutes take the place of the holiday. -/
theorem retrieve_within_but_holiday :
    let day : Range := ⟨.midnight .first, ⟨.first, 3600, 0, by decide, by decide⟩, "day"⟩
    let request : Request := ⟨"meeting", 1, .hybridTimed, some day, 0, 2, .standard, ""⟩
    let settings := Settings.default ""
    let outcome (strategy : Strategy) := ({ request with strategy }.retrieve settings false
      (.midnight .first)).run holidayStore none
    let ids (strategy : Strategy) :=
      (outcome strategy).result.toOption.map fun results => results.map (·.id)
    (request.range = some day ∧ day.start < day.stop) ∧
    (outcome .hybridTimed).steps = (outcome .hybridStandard).steps ∧
    ids .hybridStandard = some [1, 2] ∧ ids .hybridTimed = some [2, 3] := by
  intro day request settings outcome ids
  have hordered : day.start < day.stop := by decide
  exact ⟨⟨rfl, hordered⟩, ((retrieve_within request settings false (.midnight .first)
    holidayStore none).2 day rfl hordered).1, by decide +kernel, by decide +kernel⟩

end Request

end Daybook
