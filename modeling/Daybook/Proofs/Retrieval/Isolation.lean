import Daybook.Proofs.Retrieval.Runs
import Daybook.Retrieval.Session

/-!
# Isolation of requests

A request keeps the settings under which it has started. Whatever else happens in a
session, it goes on as it would alone, and the settings that it sees have passed the
check.
-/

namespace Daybook

/-- Calls end as they do in the steps of a run. -/
def Step.CompletedBy (steps : List Step) (completions : List Completion) : Prop :=
  List.Forall₂ (fun step completion => completion step.call = step.ending.outcome) steps
    completions

/-- A program whose calls end as in a run has the result of that run. -/
theorem Program.resumeAll_of_completedBy {α : Type} (p : Program α) (world : Collaborators)
    (cancelAt : Option Nat) (time : Nat) (past : List Step) :
    ∃ steps, (p.runFrom world cancelAt time past).steps = past ++ steps ∧
      ∀ completions, Step.CompletedBy steps completions →
        p.resumeAll completions = .done (p.runFrom world cancelAt time past).result := by
  induction p generalizing time past with
  | done result =>
    refine ⟨[], (List.append_nil _).symm, fun completions hcompletions => ?_⟩
    cases hcompletions
    rfl
  | await call limitMs next ih =>
    let ending := call.ending world cancelAt limitMs time (Step.startedCalls past)
    obtain ⟨steps, hsteps, hresult⟩ :=
      ih ending.outcome ending.finish (past ++ [⟨call, time, ending⟩])
    refine ⟨⟨call, time, ending⟩ :: steps, ?_, fun completions hcompletions => ?_⟩
    · rw [← List.singleton_append, ← List.append_assoc]
      exact hsteps
    · cases hcompletions with
      | @cons _ completion _ rest hcompletion hrest =>
        have hcompletion : completion call = ending.outcome := hcompletion
        have hresume : (Program.await call limitMs next).resumeAll (completion :: rest) =
            (next ending.outcome).resumeAll rest := by
          rw [← hcompletion]
          rfl
        rw [hresume]
        exact hresult rest hrest

/-- A retrieval whose calls end as in a run from the start has the result of that run. -/
theorem Retrieval.resumeAll_of_completedBy {α : Type} (retrieval : Retrieval α)
    (world : Collaborators) (cancelAt : Option Nat) {completions : List Completion}
    (h : Step.CompletedBy (retrieval.run world cancelAt).steps completions) :
    (ExceptT.run retrieval).resumeAll completions =
      .done (retrieval.run world cancelAt).result := by
  obtain ⟨steps, hsteps, hresult⟩ :=
    Program.resumeAll_of_completedBy (ExceptT.run retrieval) world cancelAt 0 []
  have hsteps : (retrieval.run world cancelAt).steps = steps := hsteps
  exact hresult completions (hsteps ▸ h)

namespace Session

variable {session : Session} {index : Nat} {flight : Flight} {settings : Settings}

/-- How the calls of the request at a position end in some events. -/
def Event.completionsOf (index : Nat) (events : List Event) : List Completion :=
  events.filterMap fun
    | .resume i completion => if i = index then some completion else none
    | _ => none

/-- The events that concern a request are those in which its calls end. -/
theorem flights_step (hflight : session.flights[index]? = some flight) (event : Event) :
    (session.step event).flights[index]? =
      some { flight with
        program := flight.program.resumeAll (Event.completionsOf index [event]) } := by
  have hindex : index < session.flights.length := (List.getElem?_eq_some_iff.mp hflight).1
  cases event with
  | make offered =>
    simp only [step]
    split <;> exact hflight
  | makeDefault timestamp => exact hflight
  | copy handle => exact hflight
  | update handle offered =>
    simp only [step, update]
    split <;> exact hflight
  | snapshot handle => exact hflight
  | start handle rerankerReady request now =>
    simp only [step]
    split
    · exact (List.getElem?_append_left hindex).trans hflight
    · exact hflight
  | resume i completion =>
    by_cases hi : i = index
    · subst hi
      simp [step, hflight, Event.completionsOf, Program.resumeAll]
    · simp [step, hi, hflight, Event.completionsOf, Program.resumeAll]

/-- A request goes on as its own calls end, whatever happens besides. -/
theorem flights_run (hflight : session.flights[index]? = some flight) (events : List Event) :
    (session.run events).flights[index]? =
      some { flight with
        program := flight.program.resumeAll (Event.completionsOf index events) } := by
  induction events generalizing session flight with
  | nil => exact hflight
  | cons event events ih =>
    have hrest := ih (flights_step hflight event)
    have hcompletions : Event.completionsOf index (event :: events) =
        Event.completionsOf index [event] ++ Event.completionsOf index events :=
      List.filterMap_append (l := [event])
    rw [hcompletions]
    simpa only [run, List.foldl_cons, Program.resumeAll, List.foldl_append] using hrest

/-- A request that starts has the next position, and the settings to which its handle
leads. -/
theorem flights_start {handle : Nat} (hcurrent : session.current? handle = some settings)
    (rerankerReady : Bool) (request : Request) (now : Instant) :
    (session.step (.start handle rerankerReady request now)).flights =
      session.flights ++
        [⟨settings, ExceptT.run (request.retrieve settings rerankerReady now)⟩] := by
  obtain ⟨shared, hshared, rfl⟩ := Option.map_eq_some_iff.mp hcurrent
  simp only [step, hshared]
  rfl

/-- A rejected update leaves the session as it is. -/
theorem update_of_not_isValid (session : Session) (handle : Nat)
    (hvalid : settings.isValid = false) : (session.update handle settings).1 = session := by
  unfold update
  split
  · rename_i cell shared hcell hshared
    have hset : session.cells.set cell shared = session.cells := by
      have hget : session.cells[cell]? = some shared := by
        simpa only [shared?, hcell, Option.bind_eq_bind, Option.bind_some] using hshared
      obtain ⟨hlt, rfl⟩ := List.getElem?_eq_some_iff.mp hget
      exact List.set_getElem_self hlt
    simp [SharedSettings.update, hvalid, hset]
  · rfl

/-- The error of a rejected update lists the violations. -/
theorem error_of_not_isValid {handle : Nat} {current : Settings}
    (hcurrent : session.current? handle = some current) (hvalid : settings.isValid = false) :
    (session.update handle settings).2 = some (.invalid settings.violations) := by
  obtain ⟨shared, hshared, -⟩ := Option.map_eq_some_iff.mp hcurrent
  obtain ⟨cell, hcell, -⟩ := Option.bind_eq_some_iff.mp hshared
  unfold update
  rw [hcell, hshared]
  simp [SharedSettings.update, hvalid]

/-- After an accepted update, the handles that lead to the same place lead to the new
settings, and no other handle does. -/
theorem current?_update {handle cell : Nat} {current : Settings}
    (hcell : session.handles[handle]? = some cell)
    (hcurrent : session.current? handle = some current) (hvalid : settings.isValid = true)
    (other : Nat) :
    (session.update handle settings).1.current? other =
      if session.handles[other]? = some cell then some settings else session.current? other := by
  obtain ⟨shared, hshared, -⟩ := Option.map_eq_some_iff.mp hcurrent
  have hlt : cell < session.cells.length := by
    have hget : session.cells[cell]? = some shared := by
      simpa only [shared?, hcell, Option.bind_eq_bind, Option.bind_some] using hshared
    exact (List.getElem?_eq_some_iff.mp hget).1
  have hupdate : (session.update handle settings).1 =
      { session with cells := session.cells.set cell ⟨settings, hvalid⟩ } := by
    simp only [update, hcell, hshared]
    simp [SharedSettings.update, hvalid]
  rw [hupdate]
  unfold current? shared?
  cases hother : session.handles[other]? with
  | none => simp
  | some place =>
    by_cases hplace : place = cell
    · subst hplace
      simp [hlt]
    · simp [hplace, Ne.symm hplace]

/-- Settings are in use, or a snapshot or a request has kept them. -/
def Sees (session : Session) (settings : Settings) : Prop :=
  (∃ shared ∈ session.cells, shared.snapshot = settings) ∨ settings ∈ session.snapshots ∨
    ∃ flight ∈ session.flights, flight.settings = settings

/-- An event by which settings come into a session, if they are valid. -/
def Event.Offers (settings : Settings) : Event → Prop
  | .make offered => offered = settings
  | .makeDefault timestamp => .default timestamp = settings
  | .update _ offered => offered = settings
  | _ => False

/-- The settings to which a handle leads are seen. -/
theorem sees_of_current? {handle : Nat} (hcurrent : session.current? handle = some settings) :
    session.Sees settings := by
  obtain ⟨shared, hshared, rfl⟩ := Option.map_eq_some_iff.mp hcurrent
  obtain ⟨cell, -, hget⟩ := Option.bind_eq_some_iff.mp hshared
  exact .inl ⟨shared, List.mem_of_getElem? hget, rfl⟩

/-- With a new handle, a session sees what it saw before and the settings that the handle was made
with. -/
theorem sees_make {shared : SharedSettings} (h : (session.make shared).Sees settings) :
    session.Sees settings ∨ shared.snapshot = settings := by
  rcases h with ⟨other, hmem, rfl⟩ | hkept
  · rcases List.mem_append.mp hmem with hold | hnew
    · exact .inl (.inl ⟨other, hold, rfl⟩)
    · rw [List.mem_singleton.mp hnew]
      exact .inr rfl
  · exact .inl (.inr hkept)

/-- After an update a session sees what it saw before, or the settings that were offered, and these
only if they are valid. -/
theorem sees_update {handle : Nat} {offered : Settings}
    (h : (session.update handle offered).1.Sees settings) :
    session.Sees settings ∨ offered = settings ∧ offered.isValid = true := by
  cases hvalid : offered.isValid with
  | false =>
    rw [update_of_not_isValid session handle hvalid] at h
    exact .inl h
  | true =>
    unfold update at h
    split at h
    · simp only [SharedSettings.update, hvalid, dite_true] at h
      rcases h with ⟨shared, hmem, rfl⟩ | hkept
      · rcases List.mem_or_eq_of_mem_set hmem with hold | rfl
        · exact .inl (.inl ⟨shared, hold, rfl⟩)
        · exact .inr ⟨rfl, rfl⟩
      · exact .inl (.inr hkept)
    · exact .inl h

/-- A request keeps its settings when one of its calls ends. -/
theorem sees_resume {completion : Completion}
    (h : (session.step (.resume index completion)).Sees settings) : session.Sees settings := by
  rcases h with hcell | hsnapshot | ⟨flight, hmem, rfl⟩
  · exact .inl hcell
  · exact .inr (.inl hsnapshot)
  · obtain ⟨i, hi⟩ := List.mem_iff_getElem?.mp hmem
    simp only [step, List.getElem?_modify] at hi
    obtain ⟨before, hbefore, rfl⟩ := Option.map_eq_some_iff.mp hi
    refine .inr (.inr ⟨before, List.mem_of_getElem? hbefore, ?_⟩)
    split <;> rfl

/-- What is seen after an event was seen before, or is valid and offered by the event. -/
theorem sees_step {event : Event} (h : (session.step event).Sees settings) :
    session.Sees settings ∨ event.Offers settings ∧ settings.isValid = true := by
  cases event with
  | make offered =>
    simp only [step] at h
    cases hmake : SharedSettings.make? offered with
    | error error =>
      rw [hmake] at h
      exact .inl h
    | ok shared =>
      rw [hmake] at h
      refine (sees_make h).imp_right fun hsnapshot => ?_
      unfold SharedSettings.make? at hmake
      split at hmake <;> cases hmake
      subst hsnapshot
      exact ⟨rfl, by assumption⟩
  | makeDefault timestamp =>
    refine (sees_make h).imp_right fun hsnapshot => ⟨hsnapshot, ?_⟩
    rw [← hsnapshot]
    exact SharedSettings.isValid_default timestamp
  | copy handle => exact .inl h
  | update handle offered =>
    refine (sees_update h).imp_right ?_
    rintro ⟨rfl, hvalid⟩
    exact ⟨rfl, hvalid⟩
  | snapshot handle =>
    rcases h with hcell | hsnapshot | hflight
    · exact .inl (.inl hcell)
    · rcases List.mem_append.mp hsnapshot with hold | hnew
      · exact .inl (.inr (.inl hold))
      · exact .inl (sees_of_current? (Option.mem_toList.mp hnew))
    · exact .inl (.inr (.inr hflight))
  | start handle rerankerReady request now =>
    cases hcurrent : session.current? handle with
    | none =>
      have hshared : session.shared? handle = none := Option.map_eq_none_iff.mp hcurrent
      simp only [step, hshared] at h
      exact .inl h
    | some current =>
      obtain ⟨shared, hshared, -⟩ := Option.map_eq_some_iff.mp hcurrent
      rcases h with hcell | hsnapshot | ⟨flight, hmem, rfl⟩
      · simp only [step, hshared] at hcell
        exact .inl (.inl hcell)
      · simp only [step, hshared] at hsnapshot
        exact .inl (.inr (.inl hsnapshot))
      · rw [flights_start hcurrent, List.mem_append, List.mem_singleton] at hmem
        rcases hmem with hold | rfl
        · exact .inl (.inr (.inr ⟨flight, hold, rfl⟩))
        · exact .inl (sees_of_current? hcurrent)
  | resume index completion => exact .inl (sees_resume h)

/-- What is seen in a session from its start on is valid, and has been offered. -/
theorem sees_run {events : List Event} (h : (run {} events).Sees settings) :
    settings.isValid = true ∧ ∃ event ∈ events, event.Offers settings := by
  have hrun : ∀ session : Session, (session.run events).Sees settings →
      session.Sees settings ∨
        settings.isValid = true ∧ ∃ event ∈ events, event.Offers settings := by
    clear h
    induction events with
    | nil => exact fun session hsees => .inl hsees
    | cons event events ih =>
      intro session hsees
      rcases ih (session.step event) hsees with hstep | ⟨hvalid, other, hmem, hoffers⟩
      · refine (sees_step hstep).imp_right fun hoffered => ?_
        exact ⟨hoffered.2, event, List.mem_cons_self, hoffered.1⟩
      · exact .inr ⟨hvalid, other, List.mem_cons_of_mem _ hmem, hoffers⟩
  refine (hrun {} h).resolve_left ?_
  simp [Sees]

/-- A run of two rows of events runs the second one where the first one has led. -/
theorem run_append (session : Session) (before after : List Event) :
    session.run (before ++ after) = (session.run before).run after :=
  List.foldl_append

/-- A session with one request, whose calls end one after the other. -/
theorem flights_run_resume (hflights : session.flights = [flight])
    (completions : List Completion) :
    (session.run (completions.map (.resume 0))).flights =
      [{ flight with program := flight.program.resumeAll completions }] := by
  induction completions generalizing session flight with
  | nil => exact hflights
  | cons completion completions ih =>
    have hstep : (session.step (.resume 0 completion)).flights =
        [{ flight with program := flight.program.resume completion }] := by
      simp [step, hflights]
    exact ih hstep

/-- A request in a session of its own. -/
theorem flights_alone (hvalid : settings.isValid = true) (rerankerReady : Bool)
    (request : Request) (now : Instant) (completions : List Completion) :
    (run {} (.make settings :: .start 0 rerankerReady request now ::
      completions.map (.resume 0))).flights =
      [⟨settings,
        (ExceptT.run (request.retrieve settings rerankerReady now)).resumeAll completions⟩] := by
  have hmake : step {} (.make settings) = make {} ⟨settings, hvalid⟩ := by
    simp [step, SharedSettings.make?, hvalid]
  have hcurrent : (make {} ⟨settings, hvalid⟩).current? 0 = some settings := rfl
  have hstart : ((step {} (.make settings)).step (.start 0 rerankerReady request now)).flights =
      [⟨settings, ExceptT.run (request.retrieve settings rerankerReady now)⟩] := by
    rw [hmake, flights_start hcurrent]
    rfl
  exact flights_run_resume hstart completions

/-- Whatever happens in a session, a request that starts under some settings goes on as
it would in a session of its own, and if its calls end as in a run of it, it has the
result of that run. A rejected update changes nothing. All settings that are ever in use
or kept by a snapshot or a request are valid, and have been offered. -/
theorem requests_isolated :
    (∀ (before after : List Event) (handle : Nat) (rerankerReady : Bool) (request : Request)
        (now : Instant) (settings : Settings),
      (run {} before).current? handle = some settings →
      let start := Event.start handle rerankerReady request now
      let index := (run {} before).flights.length
      let completions := Event.completionsOf index after
      ∃ flight, (run {} (before ++ start :: after)).flights[index]? = some flight ∧
        flight.settings = settings ∧
        (run {} (.make settings :: .start 0 rerankerReady request now ::
          completions.map (.resume 0))).flights = [flight] ∧
        ∀ world cancelAt,
          let alone := (request.retrieve settings rerankerReady now).run world cancelAt
          Step.CompletedBy alone.steps completions → flight.program = .done alone.result) ∧
    (∀ (session : Session) (handle : Nat) (current offered : Settings),
      session.current? handle = some current → offered.isValid = false →
      session.update handle offered = (session, some (.invalid offered.violations))) ∧
    ∀ (events : List Event) (settings : Settings), (run {} events).Sees settings →
      settings.isValid = true ∧ ∃ event ∈ events, event.Offers settings := by
  refine ⟨?_, fun session handle current offered hcurrent hvalid => ?_, fun _ _ => sees_run⟩
  · intro before after handle rerankerReady request now settings hcurrent start index completions
    let program := ExceptT.run (request.retrieve settings rerankerReady now)
    have hvalid : settings.isValid = true := (sees_run (sees_of_current? hcurrent)).1
    have hstarted : ((run {} before).step start).flights[index]? = some ⟨settings, program⟩ := by
      rw [flights_start hcurrent, List.getElem?_concat_length]
    refine ⟨⟨settings, program.resumeAll completions⟩, ?_, rfl,
      flights_alone hvalid rerankerReady request now completions, fun world cancelAt => ?_⟩
    · rw [run_append]
      exact flights_run hstarted after
    · exact Retrieval.resumeAll_of_completedBy _ world cancelAt
  · exact Prod.ext (update_of_not_isValid session handle hvalid)
      (error_of_not_isValid hcurrent hvalid)

/-- Collaborators that find nothing, at once. -/
def emptyHanded : Collaborators
  | _, .embed _ => ⟨some 0, .ok []⟩
  | _, .vectorSearch .. => ⟨some 0, .ok []⟩
  | _, .listSchedules .. => ⟨some 0, .ok []⟩
  | _, .rerank .. => ⟨some 0, .ok []⟩

/-- A request for notes. -/
def memoRequest : Request where
  query := "pancake recipes"
  userId := 1
  strategy := .memoSemantic
  range := none
  minScore := 0
  limit := 10
  mode := .standard
  requestId := ""

/-- Settings that accept short queries only; they are valid if that is ten characters or
more. -/
def terseSettings (maxQueryLength : Nat) : Settings :=
  { Settings.default "" with queryLimits := { maxQueryLength } }

/-- A request is answered although its settings have been replaced, through a copy of its
handle, before any of its calls has ended. -/
theorem requests_isolated_from_update :
    let before : List Event := [.makeDefault "", .copy 0]
    let start : Event := .start 0 false memoRequest (.midnight .first)
    let found : Event := .resume 0 fun call =>
      (emptyHanded [] call).outcome.mapError (.provider call.stage)
    let session := run {} (before ++ start :: [.update 1 (terseSettings 10),
      .update 0 (terseSettings 1), found, found])
    (run {} before).current? 0 = some (.default "") ∧
    (session.current? 0).map (·.queryLimits.maxQueryLength) = some 10 ∧
    ∃ flight, session.flights[0]? = some flight ∧ flight.settings = .default "" ∧
      flight.program = .done (.ok []) := by
  intro before start found session
  have hcurrent : (run {} before).current? 0 = some (.default "") := rfl
  obtain ⟨flight, hflight, hsettings, -, hresult⟩ :=
    requests_isolated.1 before [.update 1 (terseSettings 10), .update 0 (terseSettings 1), found,
      found] 0 false memoRequest (.midnight .first) (.default "") hcurrent
  refine ⟨hcurrent, by decide +kernel, flight, hflight, hsettings, ?_⟩
  rw [hresult emptyHanded none (.cons rfl (.cons rfl .nil))]
  rfl

end Session

end Daybook
