import Wield.Messages.References
import Wield.Schedulers.Color

/-!
# Dispatches that throw

The system of `Messages` with exceptions and with the books that the `Color` and `ColorMinus`
dispatchers keep.  `dispatch` adds a reference before it pushes, and only the end of a successful
`push` or of a later processing gives it up: an exception that leaves `dispatch` leaves the
reference behind.
-/

namespace Wield.Messages

open Theory

variable {n T N : Nat}

/-- The queue a stage is constructed with. -/
inductive Target where
  | ofKind (kind : QueueKind)
  | multipleInputQueueAdapter

namespace Target

/-- The adapter itself never holds a message. -/
def kind : Target → QueueKind
  | ofKind kind => kind
  | multipleInputQueueAdapter => .fifo

/-- `push` itself may throw, without inserting; the other queues throw what their functors do. -/
def mayThrow : Target → Bool
  | ofKind .fifo | multipleInputQueueAdapter => true
  | ofKind _ => false

/-- `push` on a `MultipleInputQueueAdapter` throws always. -/
def mayReturn : Target → Bool
  | ofKind _ => true
  | multipleInputQueueAdapter => false

end Target

/-- The agents and the messages, and the policy's data that the dispatchers keep. -/
structure Throwing (P : StageChooser n T) (N : Nat) where
  base : State n N
  own : P.State
  /-- An exception is on its way up the calls of the agent. -/
  unwinding : Fin N → Bool
  /-- The stage of a dispatch that has pushed and has not noted it yet. -/
  pushed : Fin N → Option (Fin n)
  /-- History: the messages of the dispatches that have exited with an exception. -/
  failed : Fin N → List Nat

/-- The agent is not about to `push` on a `MultipleInputQueueAdapter`. -/
def Agent.mayGoOn (target : Fin n → Target) (agent : Agent n) : Bool :=
  match agent.stack with
  | .pushing stageName _ :: _ => (target stageName).mayReturn
  | _ => true

/-- The stage whose `dispatch` has pushed when the innermost call makes its next step. -/
def Agent.pushes (target : Fin n → Target) (agent : Agent n) : Option (Fin n) :=
  match agent.stack with
  | .pushing stageName _ :: _ =>
    match (target stageName).kind with
    | .fifo => some stageName
    | _ => none
  | .functors stageName _ 0 :: _ => some stageName
  | _ => none

namespace Throwing

variable {P : StageChooser n T} (target : Fin n → Target)

inductive Action (P : StageChooser n T) (N : Nat) where
  | call (action : Messages.Action n N)
  /-- A call of the policy; what it does to the policy's data is left open. -/
  | policy (own : P.State)
  /-- The `push` or the functor that the agent is in throws. -/
  | throws (a : Fin N)
  /-- The exception leaves the innermost call. -/
  | unwinds (a : Fin N)
  /-- Client code handles the exception. -/
  | catches (a : Fin N)

/-- `a` is left with `agent`. -/
def setAgent (σ : Throwing P N) (a : Fin N) (agent : Agent n) : Throwing P N :=
  { σ with base := σ.base.setAgent a agent }

/-- A dispatch of `m` exits with an exception. -/
def exitDispatch (σ : Throwing P N) (a : Fin N) (m : Nat) (stack : List (Frame n)) :
    Throwing P N :=
  { σ.setAgent a { σ.base.agent a with stack := stack } with
    unwinding := Function.update σ.unwinding a true
    failed := Function.update σ.failed a (m :: σ.failed a) }

/-- A step without an exception. -/
def call (σ : Throwing P N) (action : Messages.Action n N) : Option (Throwing P N) :=
  let a := action.agent
  if σ.unwinding a then
    match action with
    -- the destructor of a handle of the function that is left
    | .dropHandle _ _ =>
      (step (fun s => (target s).kind) σ.base action).map fun base => { σ with base := base }
    | _ => none
  else
    match σ.pushed a with
    | some stageName =>
      match action with
      | .advance _ =>
        some { σ with
          own := P.dispatched σ.own stageName
          pushed := Function.update σ.pushed a none }
      | _ => none
    | none =>
      if (σ.base.agent a).mayGoOn target then
        (step (fun s => (target s).kind) σ.base action).map fun base =>
          { σ with
            base := base
            pushed := Function.update σ.pushed a
              (match action with
              | .advance _ => (σ.base.agent a).pushes target
              | _ => none) }
      else none

def throws (σ : Throwing P N) (a : Fin N) : Option (Throwing P N) :=
  if σ.unwinding a || (σ.pushed a).isSome then none
  else
    match (σ.base.agent a).stack with
    | .pushing stageName m :: stack =>
      if (target stageName).mayThrow then some (σ.exitDispatch a m stack) else none
    | .running _ _ :: _ | .functor _ _ _ :: _ =>
      some { σ with unwinding := Function.update σ.unwinding a true }
    | _ => none

def unwinds (σ : Throwing P N) (a : Fin N) : Option (Throwing P N) :=
  if σ.unwinding a then
    match (σ.base.agent a).stack with
    -- `push` does not come to `decrementReferenceCount`
    | .functor _ m _ :: stack => some (σ.exitDispatch a m stack)
    -- the handle of `StageBase::process` is destroyed
    | .running _ m :: stack =>
      some { σ with base :=
        { σ.base with
          heap := σ.base.heap.release m
          agent := Function.update σ.base.agent a { σ.base.agent a with stack := stack } } }
    | .fanout m _ _ handle :: stack =>
      some (σ.setAgent a
        { handles :=
            if handle then m :: (σ.base.agent a).handles else (σ.base.agent a).handles
          stack := stack })
    | _ => none
  else none

def step (σ : Throwing P N) : Action P N → Option (Throwing P N)
  | .call action => σ.call target action
  | .policy own => some { σ with own := own }
  | .throws a => σ.throws target a
  | .unwinds a => σ.unwinds a
  | .catches a =>
    if σ.unwinding a && (σ.base.agent a).inClientCode then
      some { σ with unwinding := Function.update σ.unwinding a false }
    else none

/-- No message exists. -/
def start (own : P.State) : Throwing P N where
  base := State.initial
  own := own
  unwinding _ := false
  pushed _ := none
  failed _ := []

def system (P : StageChooser n T) (N : Nat) (target : Fin n → Target) :
    Lts (Throwing P N) (Action P N) where
  init σ := ∃ own, σ = start own
  step := step target

/-- The message whose `dispatch` exits with an exception in this step. -/
def exits (σ : Throwing P N) : Action P N → Option Nat
  | .throws a =>
    match (σ.base.agent a).stack with
    | .pushing _ m :: _ => some m
    | _ => none
  | .unwinds a =>
    match (σ.base.agent a).stack with
    | .functor _ m _ :: _ => some m
    | _ => none
  | _ => none

/-- The count of every message is the number of references that are held. -/
def Balanced (σ : Throwing P N) : Prop :=
  ∀ m, σ.base.heap.count m = RefHeap.stored
    (σ.base.liveHandles m + σ.base.queued m + σ.base.dispatching m + σ.base.executing m)

end Throwing

/-! ## References that nobody holds any more -/

/-- The agent with further handles. -/
def Agent.lend (lost : List Nat) (agent : Agent n) : Agent n :=
  { agent with handles := agent.handles ++ lost }

@[simp] theorem Agent.lend_handles (lost : List Nat) (agent : Agent n) :
    (agent.lend lost).handles = agent.handles ++ lost := rfl

@[simp] theorem Agent.lend_stack (lost : List Nat) (agent : Agent n) :
    (agent.lend lost).stack = agent.stack := rfl

namespace State

/-- Every agent with further handles, and the history of dispatches that belongs to it. -/
def lend (σ : State n N) (lost : Fin N → List Nat) : State n N :=
  { σ with
    agent := fun a => (σ.agent a).lend (lost a)
    sent := fun stage m => σ.waiting stage m + σ.ran stage m }

theorem lend_update (agents : Fin N → Agent n) (lost : Fin N → List Nat) (a : Fin N)
    (agent : Agent n) :
    (fun b => (Function.update agents a agent b).lend (lost b)) =
      Function.update (fun b => (agents b).lend (lost b)) a (agent.lend (lost a)) := by
  funext b
  exact Function.apply_update (fun b agent => agent.lend (lost b)) agents a agent b

end State

/-- The step can be made with further handles too, and leaves them alone. -/
structure Lent (lost : Fin N → List Nat) (σ τ : State n N) : Prop where
  heap : τ.heap = σ.heap
  queue : τ.queue = σ.queue
  agent : τ.agent = fun a => (σ.agent a).lend (lost a)

theorem Lent.update {lost : Fin N → List Nat} {σ σ' τ : State n N} {a : Fin N} {agent : Agent n}
    (hheap : τ.heap = σ'.heap) (hqueue : τ.queue = σ'.queue)
    (hσ' : σ'.agent = Function.update σ.agent a agent)
    (hτ : τ.agent = Function.update (σ.lend lost).agent a (agent.lend (lost a))) :
    Lent lost σ' τ := by
  refine ⟨hheap, hqueue, ?_⟩
  rw [hτ, hσ', State.lend_update]
  rfl

theorem advance_lend {kind : Fin n → QueueKind} {σ σ' : State n N} {a : Fin N}
    (h : advance kind σ a = some σ') (lost : Fin N → List Nat) :
    ∃ τ, advance kind (σ.lend lost) a = some τ ∧ Lent lost σ' τ := by
  have hagent : (σ.lend lost).agent a = (σ.agent a).lend (lost a) := rfl
  rcases ha : σ.agent a with ⟨handles, _ | ⟨f, stack⟩⟩
  · simp [advance, ha] at h
  rw [ha] at hagent
  cases f with
  | pushing stageName m =>
    cases hkind : kind stageName <;>
    · simp only [advance, ha, hkind] at h
      simp only [advance, hagent, Agent.lend_stack, hkind]
      cases h
      exact ⟨_, rfl, .update rfl rfl rfl rfl⟩
  | fanout m stages clone handle =>
    cases stages with
    | nil =>
      simp only [advance, ha] at h
      simp only [advance, hagent, Agent.lend_stack]
      cases h
      refine ⟨_, rfl, .update rfl rfl rfl ?_⟩
      cases handle <;> rfl
    | cons stageName stages =>
      simp only [advance, ha] at h
      simp only [advance, hagent, Agent.lend_stack]
      cases h
      cases clone <;> exact ⟨_, rfl, .update rfl rfl rfl rfl⟩
  | functors stage m left =>
    cases left <;>
    · simp only [advance, ha] at h
      simp only [advance, hagent, Agent.lend_stack]
      cases h
      exact ⟨_, rfl, .update rfl rfl rfl rfl⟩
  | popped | running | finished | functor =>
    simp only [advance, ha] at h
    simp only [advance, hagent, Agent.lend_stack]
    cases h
    exact ⟨_, rfl, .update rfl rfl rfl rfl⟩

theorem Agent.holds_lend {agent : Agent n} {m : Nat} (h : agent.holds m = true)
    (lost : List Nat) : (agent.lend lost).holds m = true := by
  simp only [holds, lend_handles, lend_stack, List.mem_append, Bool.or_eq_true,
    decide_eq_true_eq] at h ⊢
  tauto

theorem clientStep_lend {σ σ' : State n N} {a : Fin N} {action : Action n N}
    (h : clientStep σ a action = some σ') (lost : Fin N → List Nat) :
    ∃ τ, clientStep (σ.lend lost) a action = some τ ∧ Lent lost σ' τ := by
  have hagent : ∀ b, (σ.lend lost).agent b = (σ.agent b).lend (lost b) := fun _ => rfl
  cases action with
  | create =>
    cases h
    exact ⟨_, rfl, .update rfl rfl rfl rfl⟩
  | copyHandle _ b m =>
    obtain ⟨hholds, h⟩ := Option.ite_none_right_eq_some.1 h
    cases h
    exact ⟨_, if_pos (Agent.holds_lend hholds _), .update rfl rfl rfl rfl⟩
  | dropHandle _ m =>
    obtain ⟨hm, h⟩ := Option.ite_none_right_eq_some.1 h
    cases h
    refine ⟨_, if_pos (List.mem_append_left _ hm), .update rfl rfl rfl ?_⟩
    rw [hagent, Agent.lend_handles, List.erase_append_left _ hm]
    rfl
  | dispatch _ stageName m =>
    obtain ⟨hholds, h⟩ := Option.ite_none_right_eq_some.1 h
    cases h
    exact ⟨_, if_pos (Agent.holds_lend hholds _), .update rfl rfl rfl rfl⟩
  | cloneDispatch _ stageName m =>
    obtain ⟨hholds, h⟩ := Option.ite_none_right_eq_some.1 h
    cases h
    exact ⟨_, if_pos (Agent.holds_lend hholds _), .update rfl rfl rfl rfl⟩
  | fanout _ m stages clone handle =>
    cases handle with
    | true =>
      obtain ⟨hm, h⟩ := Option.ite_none_right_eq_some.1 h
      cases h
      refine ⟨_, if_pos (List.mem_append_left _ hm), .update rfl rfl rfl ?_⟩
      rw [hagent, Agent.lend_handles, List.erase_append_left _ hm]
      rfl
    | false =>
      obtain ⟨hstack, h⟩ := Option.ite_none_right_eq_some.1 h
      cases h
      exact ⟨_, if_pos hstack, .update rfl rfl rfl rfl⟩
  | pop | advance => cases h

theorem step_lend {kind : Fin n → QueueKind} {σ σ' : State n N} {action : Action n N}
    (h : step kind σ action = some σ') (lost : Fin N → List Nat) :
    ∃ τ, step kind (σ.lend lost) action = some τ ∧ Lent lost σ' τ := by
  cases action with
  | advance a => exact advance_lend h lost
  | pop a stage =>
    have hagent : (σ.lend lost).agent a = (σ.agent a).lend (lost a) := rfl
    have hqueue : (σ.lend lost).queue = σ.queue := rfl
    rcases ha : σ.agent a with ⟨handles, _ | ⟨f, stack⟩⟩
    · rw [ha] at hagent
      cases hq : σ.queue stage with
      | nil => simp [step, ha, hq] at h
      | cons m rest =>
        simp only [step, ha, hq] at h
        simp only [step, hagent, Agent.lend_stack, hqueue, hq]
        cases h
        exact ⟨_, rfl, .update rfl rfl rfl rfl⟩
    · simp [step, ha] at h
  | _ =>
    obtain ⟨hclient, h⟩ := Option.ite_none_right_eq_some.1 h
    obtain ⟨τ, hτ, hlent⟩ := clientStep_lend h lost
    exact ⟨τ, (if_pos hclient).trans hτ, hlent⟩

theorem State.references_lend (σ : State n N) (lost : Fin N → List Nat) (m : Nat) :
    (σ.lend lost).references m = σ.references m + ∑ a, (lost a).count m := by
  simp only [references, lend, Agent.references, Agent.lend_handles, Agent.lend_stack,
    List.count_append, Finset.sum_add_distrib]
  omega

/-- The heap counts the references that are held and the ones that have been lost. -/
structure Held (lost : Fin N → List Nat) (σ : State n N) : Prop where
  counts : σ.heap.Counts fun m => σ.references m + ∑ a, (lost a).count m
  guarded : ∀ a, Guarded (σ.agent a).stack

theorem Held.step {kind : Fin n → QueueKind} {lost : Fin N → List Nat} {σ σ' : State n N}
    {action : Action n N} (h : Held lost σ) (hs : step kind σ action = some σ') :
    Held lost σ' := by
  obtain ⟨τ, hτ, hlent⟩ := step_lend hs lost
  have hinv : Inv (σ.lend lost) :=
    ⟨h.counts.congr (State.references_lend σ lost), h.guarded, fun _ _ => rfl⟩
  have hinv' := hinv.step hτ
  have hreferences : ∀ m, τ.references m = σ'.references m + ∑ a, (lost a).count m := by
    intro m
    rw [← State.references_lend]
    simp only [State.references, hlent.agent, hlent.queue, State.lend]
  refine ⟨?_, fun a => ?_⟩
  · rw [← hlent.heap]
    exact hinv'.counts.congr fun m => (hreferences m).symm
  · have hguarded := hinv'.guarded a
    rwa [hlent.agent] at hguarded

theorem Agent.references_of_stack {agent : Agent n} {f : Frame n} {stack : List (Frame n)}
    (h : agent.stack = f :: stack) (m : Nat) :
    agent.references m = Agent.references m ⟨agent.handles, stack⟩ + f.references m := by
  obtain ⟨handles, _⟩ := agent
  cases h
  exact Agent.references_cons m handles f stack

/-- The handle that a fanout has taken over is back. -/
theorem Agent.references_return (x m : Nat) (handles : List Nat) (stack : List (Frame n))
    (handle : Bool) :
    Agent.references x ⟨if handle then m :: handles else handles, stack⟩ =
      Agent.references x ⟨handles, stack⟩ + if handle ∧ x = m then 1 else 0 := by
  cases handle
  · simp
  · simp only [if_true, true_and]
    exact Agent.references_handle x m ⟨handles, stack⟩

/-- An agent leaves its innermost call. -/
theorem Held.of_agent {lost lost' : Fin N → List Nat} {σ σ' : State n N} (h : Held lost σ)
    {a : Fin N} {agent : Agent n} {f : Frame n} (ha : (σ.agent a).stack = f :: agent.stack)
    (hagent : σ'.agent = Function.update σ.agent a agent) (hqueue : σ'.queue = σ.queue)
    (hcounts : (∀ m, σ'.references m + (σ.agent a).references m =
      σ.references m + agent.references m) →
        σ'.heap.Counts fun m => σ'.references m + ∑ b, (lost' b).count m) : Held lost' σ' := by
  refine ⟨hcounts (State.references_of_agent hagent hqueue), ?_⟩
  rw [hagent]
  have hstack := h.guarded a
  rw [ha] at hstack
  exact guarded_update h.guarded hstack.of_cons

/-- An exception takes the agent out of a call, and its reference is lost. -/
theorem Held.exit {lost : Fin N → List Nat} {σ : State n N} (h : Held lost σ) {a : Fin N}
    {f : Frame n} {stack : List (Frame n)} (ha : (σ.agent a).stack = f :: stack) {m : Nat}
    (hf : ∀ x, f.references x = if x = m then 1 else 0) :
    Held (Function.update lost a (m :: lost a))
      (σ.setAgent a ⟨(σ.agent a).handles, stack⟩) := by
  refine h.of_agent ha rfl rfl fun hreferences => h.counts.congr fun x => ?_
  have hsum := sum_update_add (fun _ => List.count x) lost a (m :: lost a)
  have hx := hreferences x
  rw [Agent.references_of_stack ha x, hf x] at hx
  rw [count_cons] at hsum
  omega

namespace Throwing

variable {P : StageChooser n T} {target : Fin n → Target} {σ σ' : Throwing P N}

/-- What happens to the references and the books when a dispatch exits with an exception. -/
theorem exitDispatch_of_exits {action : Action P N} {m : Nat} (hm : σ.exits action = some m)
    (h : step target σ action = some σ') :
    ∃ a f stack, (σ.base.agent a).stack = f :: stack ∧
      (∀ x, f.references x = if x = m then 1 else 0) ∧ σ' = σ.exitDispatch a m stack := by
  cases action with
  | throws a =>
    simp only [exits] at hm
    split at hm
    · rename_i stageName m' stack hstack
      cases hm
      simp only [step, throws, hstack, Option.ite_none_left_eq_some,
        Option.ite_none_right_eq_some, Option.some.injEq] at h
      exact ⟨a, _, stack, hstack, by simp, h.2.2.symm⟩
    · cases hm
  | unwinds a =>
    simp only [exits] at hm
    split at hm
    · rename_i stage m' left stack hstack
      cases hm
      simp only [step, unwinds, hstack, Option.ite_none_right_eq_some, Option.some.injEq] at h
      exact ⟨a, _, stack, hstack, by simp [Frame.references], h.2.symm⟩
    · cases hm
  | call | policy | catches => cases hm

theorem held_call {action : Messages.Action n N} (hσ : Held σ.failed σ.base)
    (h : σ.call target action = some σ') : Held σ'.failed σ'.base := by
  unfold call at h
  dsimp only at h
  split at h
  · split at h
    · obtain ⟨base, hbase, rfl⟩ := Option.map_eq_some_iff.mp h
      exact hσ.step hbase
    · cases h
  · split at h
    · split at h
      · cases h
        exact hσ
      · cases h
    · obtain ⟨-, h⟩ := Option.ite_none_right_eq_some.mp h
      obtain ⟨base, hbase, rfl⟩ := Option.map_eq_some_iff.mp h
      exact hσ.step hbase

theorem held_throws {a : Fin N} (hσ : Held σ.failed σ.base) (h : σ.throws target a = some σ') :
    Held σ'.failed σ'.base := by
  unfold throws at h
  obtain ⟨-, h⟩ := Option.ite_none_left_eq_some.mp h
  split at h
  · rename_i hstack
    obtain ⟨-, h⟩ := Option.ite_none_right_eq_some.mp h
    cases h
    exact hσ.exit hstack (by simp)
  · cases h
    exact hσ
  · cases h
    exact hσ
  · cases h

theorem held_unwinds {a : Fin N} (hσ : Held σ.failed σ.base) (h : σ.unwinds a = some σ') :
    Held σ'.failed σ'.base := by
  unfold unwinds at h
  obtain ⟨-, h⟩ := Option.ite_none_right_eq_some.mp h
  split at h
  · rename_i hstack
    cases h
    exact hσ.exit hstack (by simp [Frame.references])
  · rename_i stage m stack hstack
    cases h
    refine hσ.of_agent hstack rfl rfl fun hreferences => hσ.counts.release (x := m) fun x => ?_
    have hx := hreferences x
    rw [Agent.references_of_stack hstack x] at hx
    simp only [Frame.references, Frame.lends, Frame.dispatches, Frame.executes,
      decide_eq_true_eq, Bool.false_eq_true, if_false] at hx
    dsimp only at hx ⊢
    omega
  · rename_i m stages clone handle stack hstack
    cases h
    refine hσ.of_agent hstack rfl rfl fun hreferences => hσ.counts.congr fun x => ?_
    have hx := hreferences x
    rw [Agent.references_of_stack hstack x, Frame.references_fanout, Agent.references_return] at hx
    dsimp only [setAgent] at hx ⊢
    omega
  · cases h

theorem held_invariant (P : StageChooser n T) (N : Nat) (target : Fin n → Target) :
    (system P N target).Invariant fun σ => Held σ.failed σ.base where
  init := by
    rintro _ ⟨own, rfl⟩
    refine ⟨RefHeap.Counts.empty.congr fun m => ?_, fun _ => trivial⟩
    simp [start, State.references, State.initial, Agent.references]
  step σ action σ' hσ h := by
    cases action with
    | call action => exact held_call hσ h
    | policy own =>
      cases h
      exact hσ
    | throws a => exact held_throws hσ h
    | unwinds a => exact held_unwinds hσ h
    | catches a =>
      obtain ⟨-, h⟩ := Option.ite_none_right_eq_some.mp h
      cases h
      exact hσ

/-- A dispatch that exits with an exception keeps no books and leaves its reference behind, whatever
    the queue of the target and wherever in it the exception was thrown. -/
theorem exit_leaks {action : Action P N} {m : Nat} (hσ : (system P N target).Reachable σ)
    (h : step target σ action = some σ') (hm : σ.exits action = some m) :
    σ'.own = σ.own ∧ ¬ Balanced σ' := by
  have hheld := (held_invariant P N target).holds (.step action hσ h)
  obtain ⟨a, f, stack, -, -, rfl⟩ := exitDispatch_of_exits hm h
  refine ⟨rfl, fun hbalanced => ?_⟩
  have hcount := hheld.counts.count m
  rw [hbalanced m, ← State.references_eq] at hcount
  have heq := RefHeap.stored_injective hcount
  -- the reference of this dispatch is among the lost ones
  have hlost : 0 < ((σ.exitDispatch a m stack).failed a).count m := by
    simp [exitDispatch]
  have hle := Finset.single_le_sum (f := fun b => ((σ.exitDispatch a m stack).failed b).count m)
    (fun _ _ => Nat.zero_le _) (Finset.mem_univ a)
  omega

/-- The second functor of a chain throws. -/
theorem exit_leaks_chain :
    ∃ σ σ' : Throwing (Color.chooser 1 1) 1,
      (system _ 1 fun _ => .ofKind (.chain 2)).Reachable σ ∧
      step (fun _ => .ofKind (.chain 2)) σ (.unwinds 0) = some σ' ∧ σ'.own = σ.own ∧
      ¬ Balanced σ' := by
  obtain ⟨σ, hσ, hexits, hstep⟩ := Lts.exists_reachable_of_run
    (system (Color.chooser 1 1) 1 fun _ => .ofKind (.chain 2)) (start [])
    [.call (.create 0), .call (.dispatch 0 0 0), .call (.advance 0), .call (.advance 0),
      .call (.advance 0), .call (.advance 0), .throws 0]
    (fun σ => σ.exits (.unwinds 0) = some 0 ∧
      (step (fun _ => .ofKind (.chain 2)) σ (.unwinds 0)).isSome = true) ⟨[], rfl⟩ (by decide)
  obtain ⟨σ', hσ'⟩ := Option.isSome_iff_exists.mp hstep
  exact ⟨σ, σ', hσ, hσ', exit_leaks hσ hσ' hexits⟩

/-- After a dispatch to a `MultipleInputQueueAdapter` the message is never deleted. -/
theorem message_left_behind :
    ∃ σ : Throwing (Color.chooser 1 1) 1,
      (system _ 1 fun _ => .multipleInputQueueAdapter).Reachable σ ∧
      σ.base.references 0 = 0 ∧ σ.base.heap.count 0 = some 1 ∧ ¬ Balanced σ := by
  obtain ⟨σ, hσ, hcount, hreferences⟩ := Lts.exists_reachable_of_run
    (system (Color.chooser 1 1) 1 fun _ => .multipleInputQueueAdapter) (start [])
    [.call (.create 0), .call (.dispatch 0 0 0), .throws 0, .catches 0, .call (.dropHandle 0 0)]
    (fun σ => σ.base.heap.count 0 = some 1 ∧ σ.base.references 0 = 0) ⟨[], rfl⟩ (by decide)
  refine ⟨σ, hσ, hreferences, hcount, fun hbalanced => ?_⟩
  have hzero := hbalanced 0
  rw [hcount, ← State.references_eq, hreferences] at hzero
  cases hzero

end Throwing

end Wield.Messages
