import Mathlib.Tactic.Simps.Basic
import Wield.PollingPolicies.ExhaustivePollingPolicy
import Wield.SchedulingPolicy
import Wield.Theory.Lts

/-!
# The scheduler: processing threads, stages and dispatches

`SchedulerBase::tryProcess` run by `T` threads over `n` stages with FIFO queues, while clients
dispatch messages from outside.  A step is one shared access of one thread: a load or exchange
inside `nextStage`, a pop, the push of a dispatch, or the bookkeeping that the policy's dispatcher
does after the push.  The actions carry what the code does not determine (the random source, what
the functors read besides the message), so that the step function is executable.
-/

namespace Wield

/-- What a client supplies: its messages, its processing functors, and the stages it dispatches to
    from outside.  `functor s m env` lists the dispatches the functor of stage `s` makes for `m`,
    where `env` is everything else it depends on, of which there is at least one value. -/
structure Application (n : Nat) where
  Message : Type
  Env : Type
  env : Env
  functor : Fin n → Message → Env → List (Fin n × Message)
  /-- Whether a functor may throw before it has made all its dispatches or at its end. -/
  mayThrow : Bool
  entry : Fin n → Bool

/-- Functors that dispatch nothing; clients may dispatch to every stage. -/
def Application.sink (n : Nat) (mayThrow : Bool) : Application n where
  Message := Nat
  Env := Unit
  env := ()
  functor _ _ _ := []
  mayThrow := mayThrow
  entry _ := true

namespace SchedulerBase

open ExhaustivePollingPolicy

variable {n T : Nat} (M : SchedulingPolicy n T) (A : Application n) (C : Nat)

/-- Where a processing thread is in `tryProcess`. -/
inductive Pc where
  /-- At the test of `done()`. -/
  | loop
  | nextStage (pc : M.Pc)
  /-- In the batch loop, about to pop in `StageBase::process`. -/
  | poll (stage : Fin n)
  /-- In the functor of `stage`, with the dispatches it has yet to make. -/
  | running (stage : Fin n) (m : A.Message) (todo : List (Fin n × A.Message))
  /-- In `dispatch`, between the push and what the dispatcher does after it. -/
  | pushed (stage : Fin n) (m : A.Message) (target : Fin n) (todo : List (Fin n × A.Message))
  /-- The batch loop has ended; `batchEnd` is next. -/
  | batchEnd (stage : Fin n) (info : PollingInformation)
  /-- Out of `tryProcess`. -/
  | exited

structure State where
  policy : M.State
  queue : Fin n → List A.Message
  done : Bool
  pc : Fin T → Pc M A
  /-- The target of a client's dispatch between the push and what the dispatcher does after it. -/
  client : Fin C → Option (Fin n)
  /-- History: all messages pushed to a stage, and all messages popped there. -/
  arrived : Fin n → List A.Message
  popped : Fin n → List A.Message
  /-- History: all messages that the visitors of a stage have pushed to some stage. -/
  forwarded : Fin n → List A.Message

inductive Action where
  | thread (t : Fin T) (entropy : M.Entropy) (env : A.Env)
  /-- The functor that the thread is in throws. -/
  | throw (t : Fin T)
  /-- The push of a client's dispatch, and what the dispatcher does after it. -/
  | push (c : Fin C) (target : Fin n) (m : A.Message)
  | dispatched (c : Fin C)
  | stop

variable {M A C}

/-- After `stage.process()` has returned.  `incrementMessageCount` overwrites all that a
    `PollingInformation` holds, so the one of the previous round is not needed. -/
def afterProcess (stage : Fin n) (messageProcessed : Bool) : Pc M A :=
  let info := PollingInformation.incrementMessageCount {} messageProcessed
  if continueProcessing info then .poll stage else .batchEnd stage info

namespace State

variable (σ : State M A C)

@[simps -fullyApplied]
def setPc (t : Fin T) (pc : Pc M A) : State M A C :=
  { σ with pc := Function.update σ.pc t pc }

@[simps -fullyApplied]
def setPolicy (policy : M.State) : State M A C :=
  { σ with policy := policy }

/-- `StageBase::push`. -/
@[simps -fullyApplied]
def push (target : Fin n) (m : A.Message) : State M A C :=
  { σ with
    queue := Function.update σ.queue target (σ.queue target ++ [m])
    arrived := Function.update σ.arrived target (σ.arrived target ++ [m]) }

/-- A successful `try_pop` that leaves `rest`. -/
@[simps -fullyApplied]
def pop (stage : Fin n) (m : A.Message) (rest : List A.Message) : State M A C :=
  { σ with
    queue := Function.update σ.queue stage rest
    popped := Function.update σ.popped stage (σ.popped stage ++ [m]) }

/-- Record that a visitor of `stage` has pushed `m`. -/
@[simps -fullyApplied]
def forward (stage : Fin n) (m : A.Message) : State M A C :=
  { σ with forwarded := Function.update σ.forwarded stage (σ.forwarded stage ++ [m]) }

@[simps -fullyApplied]
def setClient (c : Fin C) (target : Option (Fin n)) : State M A C :=
  { σ with client := Function.update σ.client c target }

end State

/-- The next step of processing thread `t`. -/
def threadStep (σ : State M A C) (t : Fin T) (entropy : M.Entropy) (env : A.Env) :
    Option (State M A C) :=
  match σ.pc t with
  -- `while(!done()) process(thread_id);`
  | .loop => some (σ.setPc t (if σ.done then .exited else .nextStage M.enter))
  | .nextStage pc =>
    match M.step σ.policy t entropy pc with
    | (policy, .inl pc) => some ((σ.setPolicy policy).setPc t (.nextStage pc))
    -- the constructor of `pollingInfo` and `batchStart` have no effect that is seen later
    | (policy, .inr stage) => some ((σ.setPolicy policy).setPc t (.poll stage))
  | .poll stage =>
    match σ.queue stage with
    | m :: rest => some ((σ.pop stage m rest).setPc t (.running stage m (A.functor stage m env)))
    -- `process()` returns `false`; the batch loop tests it
    | [] => some (σ.setPc t (afterProcess stage false))
  | .running stage m ((target, m') :: todo) =>
    some (((σ.push target m').forward stage m').setPc t (.pushed stage m target todo))
  -- the functor returns, and `process()` returns `true`
  | .running stage _ [] => some (σ.setPc t (afterProcess stage true))
  | .pushed stage m target todo =>
    some ((σ.setPolicy (M.dispatched σ.policy target)).setPc t (.running stage m todo))
  | .batchEnd _ info =>
    some ((σ.setPolicy (M.batchEnd σ.policy info.hadMessage)).setPc t .loop)
  | .exited => none

def step (σ : State M A C) : Action M A C → Option (State M A C)
  | .thread t entropy env => threadStep σ t entropy env
  -- the exception leaves `process`; the catch block logs it and the thread is done
  | .throw t =>
    match σ.pc t with
    | .running .. => if A.mayThrow then some (σ.setPc t .exited) else none
    | _ => none
  | .push c target m =>
    -- a client's next dispatch begins after the bookkeeping of the one before
    if σ.client c = none ∧ A.entry target then
      some ((σ.push target m).setClient c (some target))
    else none
  | .dispatched c =>
    match σ.client c with
    | some target =>
      some ((σ.setPolicy (M.dispatched σ.policy target)).setClient c none)
    | none => none
  | .stop => some { σ with done := true }

/-- No thread has started, nothing has been dispatched. -/
structure Initial (σ : State M A C) : Prop where
  policy : M.init σ.policy
  queue : ∀ s, σ.queue s = []
  done : σ.done = false
  pc : ∀ t, σ.pc t = .loop
  client : ∀ c, σ.client c = none
  arrived : ∀ s, σ.arrived s = []
  popped : ∀ s, σ.popped s = []
  forwarded : ∀ s, σ.forwarded s = []

/-- The state before `start()`, from the data of a newly constructed policy. -/
def State.fresh (policy : M.State) : State M A C where
  policy := policy
  queue _ := []
  done := false
  pc _ := .loop
  client _ := none
  arrived _ := []
  popped _ := []
  forwarded _ := []

theorem State.fresh_initial {policy : M.State} (h : M.init policy) :
    Initial (State.fresh policy : State M A C) :=
  ⟨h, fun _ => rfl, rfl, fun _ => rfl, fun _ => rfl, fun _ => rfl, fun _ => rfl, fun _ => rfl⟩

variable (M A C) in
/-- The running scheduler. -/
def system : Theory.Lts (State M A C) (Action M A C) where
  init := Initial
  step := step

end SchedulerBase

end Wield
