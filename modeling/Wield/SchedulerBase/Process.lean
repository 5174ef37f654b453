import Wield.SchedulerBase.Steps
import Wield.Schedulers.NextStage

/-!
# `process` without interference

`SchedulerBase::process` run by one thread while no other thread moves: `nextStage`, the batch loop
over `StageBase::process`, and `batchEnd`.  `process_alone` says that the running scheduler can do
what it computes.
-/

namespace Wield.SchedulerBase

open Theory StageChooser ExhaustivePollingPolicy

variable {n T C : Nat} (P : StageChooser n T) (A : Application n)

/-- What one thread works on while it is not interrupted. -/
structure Serial where
  own : P.State
  ta : ThreadAssignments n T
  queue : Fin n → List A.Message

variable {P A}

namespace Serial

/-- `dispatch`: push the message, then what the policy's dispatcher does after it. -/
def dispatch (σ : Serial P A) (d : Fin n × A.Message) : Serial P A :=
  { σ with
    queue := Function.update σ.queue d.1 (σ.queue d.1 ++ [d.2])
    own := P.dispatched σ.own d.1 }

/-- `StageBase::process`: whether there was a message, and what its functor left. -/
def stageProcess (σ : Serial P A) (stage : Fin n) (env : A.Env) : Bool × Serial P A :=
  match σ.queue stage with
  | [] => (false, σ)
  | m :: rest =>
    (true, (A.functor stage m env).foldl dispatch
      { σ with queue := Function.update σ.queue stage rest })

/-- The `do … while(continueProcessing(pollingInfo))` loop, with the number of messages it has
    processed so far; one element of the list is read by each functor call. -/
def batch (stage : Fin n) :
    List A.Env → Nat → PollingInformation → Serial P A →
      Option (Nat × PollingInformation × Serial P A)
  | [], _, _, _ => none
  | env :: envs, processed, info, σ =>
    let (messageProcessed, σ) := σ.stageProcess stage env
    let info := info.incrementMessageCount messageProcessed
    let processed := processed + messageProcessed.toNat
    if continueProcessing info then batch stage envs processed info σ
    else some (processed, info, σ)

/-- `SchedulerBase::process`: the stage visited, the number of messages processed there, and what
    the call leaves. -/
def process (σ : Serial P A) (fuel : Nat) (entropy : Nat → P.Entropy) (envs : List A.Env)
    (threadId : Fin T) : Option (Fin n × Nat × Serial P A) :=
  (P.nextStage fuel entropy threadId σ.own σ.ta).bind fun (stage, own, ta) =>
    (batch stage envs 0 {} { σ with own := own, ta := ta }).map fun (processed, info, σ) =>
      (stage, processed, { σ with own := P.batchEnd σ.own info.hadMessage })

theorem foldl_dispatch_ta (ds : List (Fin n × A.Message)) (σ : Serial P A) :
    (ds.foldl dispatch σ).ta = σ.ta := by
  induction ds generalizing σ with
  | nil => rfl
  | cons d ds ih => exact ih (σ.dispatch d)

theorem stageProcess_ta (σ : Serial P A) (stage : Fin n) (env : A.Env) :
    (σ.stageProcess stage env).2.ta = σ.ta := by
  unfold stageProcess
  split
  · rfl
  · exact foldl_dispatch_ta _ _

/-- A batch leaves the assignments alone, and its last poll has found nothing. -/
theorem batch_eq_some {stage : Fin n} {envs : List A.Env} {processed k : Nat}
    {info info' : PollingInformation} {σ σ' : Serial P A}
    (h : batch stage envs processed info σ = some (k, info', σ')) :
    σ'.ta = σ.ta ∧ info'.hadMessage = false := by
  induction envs generalizing processed info σ with
  | nil => cases h
  | cons env envs ih =>
    simp only [batch] at h
    split at h
    · obtain ⟨hta, hinfo⟩ := ih h
      exact ⟨hta.trans (stageProcess_ta σ stage env), hinfo⟩
    -- the loop was left because the last poll had nothing
    · rename_i hstop
      cases h
      exact ⟨stageProcess_ta σ stage env, by simpa [continueProcessing] using hstop⟩

/-- What a finished call of `process` has done to the assignments, and the flag that `batchEnd`
    gets. -/
theorem process_eq_some {σ σ' : Serial P A} {fuel : Nat} {entropy : Nat → P.Entropy}
    {envs : List A.Env} {t : Fin T} {s : Fin n} {k : Nat}
    (h : σ.process fuel entropy envs t = some (s, k, σ')) :
    ∃ own own', P.nextStage fuel entropy t σ.own σ.ta = some (s, own, σ'.ta) ∧
      σ'.own = P.batchEnd own' false := by
  simp only [process, Option.bind_eq_some_iff, Option.map_eq_some_iff] at h
  obtain ⟨⟨stage, own, ta⟩, hnext, ⟨processed, info, σ₁⟩, hbatch, heq⟩ := h
  cases heq
  obtain ⟨hta, hinfo⟩ := batch_eq_some hbatch
  refine ⟨own, σ₁.own, ?_, by rw [hinfo]⟩
  rw [hnext]
  exact congrArg (fun ta => some (_, own, ta)) hta.symm

end Serial

/-! ## The scheduler with one thread moving -/

variable {concurrency : Fin n → SizeT} {t : Fin T}

/-- Thread `t` alone takes the scheduler from one state to the other. -/
inductive Alone (t : Fin T) :
    State (P.policy concurrency) A C → State (P.policy concurrency) A C → Prop where
  | refl {σ} : Alone t σ σ
  | step {σ σ' σ''} (e : P.Entropy) (v : A.Env) :
      threadStep σ t e v = some σ' → Alone t σ' σ'' → Alone t σ σ''

theorem Alone.trans {σ σ' σ'' : State (P.policy concurrency) A C} (h : Alone t σ σ')
    (h' : Alone t σ' σ'') : Alone t σ σ'' := by
  induction h with
  | refl => exact h'
  | step e v hs _ ih => exact .step e v hs (ih h')

/-- The part of a state that a thread works on. -/
def State.serial (σ : State (P.policy concurrency) A C) : Serial P A where
  own := σ.policy.own
  ta := σ.policy.ta
  queue := σ.queue

theorem nextStage_alone [Inhabited A.Env] {shared shared' : P.Shared} {pc : P.Pc} {s : Fin n}
    (h : Call.Runs t shared pc shared' s) {σ : State (P.policy concurrency) A C}
    (hshared : σ.policy = shared) (hpc : σ.pc t = .nextStage pc) :
    ∃ σ', Alone t σ σ' ∧ σ'.policy = shared' ∧ σ'.queue = σ.queue ∧ σ'.pc t = .poll s := by
  induction h generalizing σ with
  | @last _ shared' pc s e hstep =>
    refine ⟨(σ.setPolicy shared').setPc t (.poll s), .step e default ?_ .refl, rfl, rfl,
      Function.update_self _ _ _⟩
    simp only [threadStep, hpc, hshared, hstep]
  | @next _ shared' _ pc pc' s e hstep _ ih =>
    obtain ⟨σ', halone, hpolicy, hqueue, hpc'⟩ :=
      ih (σ := (σ.setPolicy shared').setPc t (.nextStage pc')) rfl (Function.update_self _ _ _)
    refine ⟨σ', .step e default ?_ halone, hpolicy, hqueue, hpc'⟩
    simp only [threadStep, hpc, hshared, hstep]

/-- The dispatches of a functor. -/
theorem running_alone [Inhabited P.Entropy] [Inhabited A.Env] {s : Fin n} {m : A.Message}
    (todo : List (Fin n × A.Message)) {σ : State (P.policy concurrency) A C}
    (hpc : σ.pc t = .running s m todo) :
    ∃ σ', Alone t σ σ' ∧ σ'.serial = todo.foldl Serial.dispatch σ.serial ∧
      σ'.pc t = .running s m [] := by
  induction todo generalizing σ with
  | nil => exact ⟨σ, .refl, rfl, hpc⟩
  | cons d todo ih =>
    obtain ⟨target, m'⟩ := d
    -- the push, and then the bookkeeping of the dispatcher
    let σ₁ := ((σ.push target m').forward s m').setPc t (.pushed s m target todo)
    let σ₂ := (σ₁.setPolicy ((P.policy concurrency).dispatched σ₁.policy target)).setPc t
      (.running s m todo)
    obtain ⟨σ', halone, hserial, hpc'⟩ := ih (σ := σ₂) (Function.update_self _ _ _)
    refine ⟨σ', .step default default (?_ : _ = some σ₁)
      (.step default default (?_ : _ = some σ₂) halone), hserial, hpc'⟩
    · simp only [threadStep, hpc, σ₁]
    · have hpc₁ : σ₁.pc t = .pushed s m target todo := Function.update_self _ _ _
      simp only [threadStep, hpc₁, σ₂]

theorem batch_alone [Inhabited P.Entropy] [Inhabited A.Env] {s : Fin n} {envs : List A.Env}
    {processed k : Nat} {info info' : PollingInformation} {σ : State (P.policy concurrency) A C}
    {serial : Serial P A} (hpc : σ.pc t = .poll s)
    (h : Serial.batch s envs processed info σ.serial = some (k, info', serial)) :
    ∃ σ', Alone t σ σ' ∧ σ'.serial = serial ∧ σ'.pc t = .batchEnd s info' := by
  induction envs generalizing processed info σ with
  | nil => cases h
  | cons env envs ih =>
    cases hq : σ.queue s with
    | nil =>
      have hstage : σ.serial.stageProcess s env = (false, σ.serial) := by
        simp only [Serial.stageProcess, State.serial, hq]
      simp only [Serial.batch, hstage] at h
      cases h
      refine ⟨σ.setPc t (.batchEnd s ⟨false⟩), .step default env ?_ .refl, rfl,
        Function.update_self _ _ _⟩
      simp only [threadStep, hpc, hq, afterProcess_false]
    | cons m rest =>
      -- a pop, the dispatches of the functor, its return, and the rest of the batch
      let σ₁ := (σ.pop s m rest).setPc t (.running s m (A.functor s m env))
      obtain ⟨σ₂, halone₂, hserial₂, hpc₂⟩ :=
        running_alone (σ := σ₁) (A.functor s m env) (Function.update_self _ _ _)
      have hstage : σ.serial.stageProcess s env = (true, σ₂.serial) := by
        rw [hserial₂]
        simp only [Serial.stageProcess, State.serial, hq]
        rfl
      simp only [Serial.batch, hstage] at h
      obtain ⟨σ', halone', hserial', hpc'⟩ :=
        ih (σ := σ₂.setPc t (.poll s)) (Function.update_self _ _ _) h
      have hpop : threadStep σ t default env = some σ₁ := by
        simp only [threadStep, hpc, hq, σ₁]
      have hreturn : threadStep σ₂ t default env = some (σ₂.setPc t (.poll s)) := by
        simp only [threadStep, hpc₂, afterProcess_true]
      exact ⟨σ', .step default env hpop (halone₂.trans (.step default env hreturn halone')),
        hserial', hpc'⟩

/-- Where `process` returns without interference, the scheduler can run thread `t` alone to the
    same result, back at the test of `done()`. -/
theorem process_alone [Inhabited P.Entropy] [Inhabited A.Env]
    {σ : State (P.policy concurrency) A C} (hpc : σ.pc t = .nextStage .enter) {fuel : Nat}
    {entropy : Nat → P.Entropy} {envs : List A.Env} {s : Fin n} {k : Nat} {serial : Serial P A}
    (h : σ.serial.process fuel entropy envs t = some (s, k, serial)) :
    ∃ σ', Alone t σ σ' ∧ σ'.serial = serial ∧ σ'.pc t = .loop := by
  simp only [Serial.process, Option.bind_eq_some_iff, Option.map_eq_some_iff] at h
  obtain ⟨⟨stage, own, ta⟩, hnext, ⟨processed, info, serial₂⟩, hbatch, heq⟩ := h
  -- `nextStage`, the batch loop, and `batchEnd` one after the other
  obtain ⟨shared, hruns, hown, hta⟩ := nextStage_runs (σ := σ.policy) hnext
  obtain ⟨σ₁, halone₁, hpolicy₁, hqueue₁, hpc₁⟩ := nextStage_alone hruns rfl hpc
  have hserial₁ : σ₁.serial = { σ.serial with own := own, ta := ta } := by
    simp only [State.serial, hpolicy₁, hqueue₁, hown, hta]
  obtain ⟨σ₂, halone₂, hserial₂, hpc₂⟩ := batch_alone hpc₁ (hserial₁ ▸ hbatch)
  have hend : threadStep σ₂ t default default = some ((σ₂.setPolicy
      ((P.policy concurrency).batchEnd σ₂.policy info.hadMessage)).setPc t .loop) := by
    simp only [threadStep, hpc₂]
  refine ⟨_, halone₁.trans (halone₂.trans (.step default default hend .refl)), ?_,
    Function.update_self _ _ _⟩
  cases heq
  rw [← hserial₂]
  rfl

end Wield.SchedulerBase
