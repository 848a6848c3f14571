import Daybook.Proofs.Retrieval.Runs

/-!
# What programs ask for and are given

A contract says which calls a program may issue and what it may rely on in their answers.
A program that keeps to a contract has a known kind of result over all collaborators that
honor the contract, and it cannot tell apart two worlds that do alike what it asks for.
-/

namespace Daybook

/-- Terms of the dealings between a program and its collaborators. -/
structure Contract where
  /-- The calls that may be issued. -/
  asks : Call → Prop
  /-- What is known of an answer. -/
  gives : (call : Call) → call.Answer → Prop

/-- The collaborators answer the calls of a contract as it says, or fail. -/
def Collaborators.Honor (world : Collaborators) (contract : Contract) : Prop :=
  ∀ past call answer, contract.asks call → (world past call).outcome = .ok answer →
    contract.gives call answer

/-- A call is answered with what its collaborator says. -/
theorem Call.outcome_of_ending {call : Call} {world : Collaborators} {cancelAt : Option Nat}
    {limitMs time : Nat} {past : List Call} {answer : call.Answer}
    (h : (call.ending world cancelAt limitMs time past).outcome = .ok answer) :
    (world past call).outcome = .ok answer := by
  have hsettle : ((world past call).settle call.stage limitMs time).2 = .ok answer →
      (world past call).outcome = .ok answer := by
    intro hsettled
    unfold Reply.settle at hsettled
    split at hsettled
    · cases houtcome : (world past call).outcome with
      | ok found => simpa [houtcome, Except.mapError] using hsettled
      | error error => simp [houtcome, Except.mapError] at hsettled
    · cases hsettled
  unfold ending at h
  split at h
  · cases h
  · unfold Reply.settleBefore at h
    dsimp only at h
    split at h
    · cases h
    · exact hsettle h

/-- A program issues only calls of a contract, and its result satisfies `φ` whenever the
answers are as the contract says. -/
def Program.Keeps {α : Type} (contract : Contract) (φ : α → Prop) : Program α → Prop
  | .done result => φ result
  | .await call _ next => contract.asks call ∧
      ∀ outcome : Except RetrievalError call.Answer,
        (∀ answer, outcome = .ok answer → contract.gives call answer) →
        (next outcome).Keeps contract φ

section Runs

variable {α : Type} {contract : Contract} {φ : α → Prop} {p : Program α} {world : Collaborators}

/-- The result of a run over collaborators that honor the contract. -/
theorem Program.Keeps.runFrom (hp : p.Keeps contract φ) (hworld : world.Honor contract)
    (cancelAt : Option Nat) (time : Nat) (past : List Step) :
    φ (p.runFrom world cancelAt time past).result := by
  induction p generalizing time past with
  | done result => exact hp
  | await call limitMs next ih =>
    obtain ⟨hasks, hnext⟩ := hp
    exact ih _ (hnext _ fun answer hanswer =>
      hworld _ _ answer hasks (Call.outcome_of_ending hanswer)) _ _

/-- Worlds that do alike what a program asks for run it alike. -/
theorem Program.Keeps.runFrom_congr (hp : p.Keeps contract φ) (hworld : world.Honor contract)
    {other : Collaborators}
    (halike : ∀ past call, contract.asks call → other past call = world past call)
    (cancelAt : Option Nat) (time : Nat) (past : List Step) :
    p.runFrom other cancelAt time past = p.runFrom world cancelAt time past := by
  induction p generalizing time past with
  | done result => rfl
  | await call limitMs next ih =>
    obtain ⟨hasks, hnext⟩ := hp
    have hending : call.ending other cancelAt limitMs time (Step.startedCalls past) =
        call.ending world cancelAt limitMs time (Step.startedCalls past) := by
      simp only [Call.ending, halike _ call hasks]
    simp only [Program.runFrom, hending]
    exact ih _ (hnext _ fun answer hanswer =>
      hworld _ _ answer hasks (Call.outcome_of_ending hanswer)) _ _

end Runs

namespace Retrieval

variable {α : Type} {contract : Contract} {φ : Except RetrievalError α → Prop}

/-- A retrieval whose program keeps to a contract. -/
def Keeps (contract : Contract) (φ : Except RetrievalError α → Prop) (retrieval : Retrieval α) :
    Prop :=
  (ExceptT.run retrieval).Keeps contract φ

/-- A retrieval that has ended keeps any contract, as it makes no call. -/
theorem keeps_ended {outcome : Except RetrievalError α} (h : φ outcome) :
    (ended outcome).Keeps contract φ := h

/-- A check before a rest that keeps to the contract. -/
theorem keeps_ended_bind {β : Type} {outcome : Except RetrievalError β} {f : β → Retrieval α}
    (hfailed : ∀ error, φ (.error error)) (hf : ∀ b, (f b).Keeps contract φ) :
    (ended outcome >>= f).Keeps contract φ := by
  cases outcome with
  | ok b => exact hf b
  | error error => exact hfailed error

/-- A call that ends the retrieval if it fails, before a rest that keeps to the contract. -/
theorem keeps_call_bind {c : Call} {limitMs : Nat} {f : c.Answer → Retrieval α}
    (hasks : contract.asks c) (hfailed : ∀ error, φ (.error error))
    (hf : ∀ answer, contract.gives c answer → (f answer).Keeps contract φ) :
    (call c limitMs >>= f).Keeps contract φ := by
  unfold Keeps
  rw [run_call_bind]
  refine ⟨hasks, fun outcome hgives => ?_⟩
  cases outcome with
  | ok answer => exact hf answer (hgives answer rfl)
  | error error => exact hfailed error

/-- A call that is attempted, before a rest that keeps to the contract. -/
theorem keeps_attempt_bind {c : Call} {limitMs : Nat}
    {f : Except RetrievalError c.Answer → Retrieval α} (hasks : contract.asks c)
    (hf : ∀ outcome, (f outcome).Keeps contract φ) :
    (attempt (call c limitMs) >>= f).Keeps contract φ := by
  unfold Keeps
  rw [run_attempt_bind]
  exact ⟨hasks, fun outcome _ => hf outcome⟩

end Retrieval

end Daybook
