import Wield.Theory.Lts
import Wield.Theory.RefCount

/-!
# The references of a message

Who holds a reference on a message, and what is done to its count.  Any number of agents (processing
threads and clients) create messages, hold handles, dispatch and process; an agent is the handles it
has and its stack of calls.  Client code is not modelled: where a functor runs, or none does, the
agent may do anything that `Action` offers.  `add_ref` and `release` of the intrusive pointer are
the operations of a `RefHeap`, and messages are named by the order of their creation.
-/

namespace Wield.Messages

open Theory

variable {n N : Nat}

/-- What `push` on the queue of a stage does. -/
inductive QueueKind where
  | fifo
  /-- `PassThroughStageQueue`. -/
  | passThrough
  /-- `ProcessingFunctorChain`. -/
  | chain (NumberOfProcessingFunctors : Nat)

/-- A call that an agent is in. -/
inductive Frame (n : Nat) where
  /-- `DispatcherBase::dispatch`, between the increment and the push. -/
  | pushing (stageName : Fin n) (m : Nat)
  /-- `FanoutProcessingFunctor::dispatch` with the stages that are left; `handle` says whether the
      caller holds the message by a handle or is processing it. -/
  | fanout (m : Nat) (stages : List (Fin n)) (clone handle : Bool)
  /-- `StageBase::process` between the pop and the functor. -/
  | popped (stage : Fin n) (m : Nat)
  /-- `StageBase::process` in the functor. -/
  | running (stage : Fin n) (m : Nat)
  /-- `StageBase::process` before the final release. -/
  | finished (stage : Fin n) (m : Nat)
  /-- `push` on a pass-through queue, outside of its functors, with the number that is left. -/
  | functors (stage : Fin n) (m : Nat) (left : Nat)
  /-- The same inside a functor. -/
  | functor (stage : Fin n) (m : Nat) (left : Nat)

structure Agent (n : Nat) where
  handles : List Nat
  stack : List (Frame n)

/-- The frame processes `m`, and client code runs in it. -/
def Frame.processes (m : Nat) : Frame n → Bool
  | .running _ m' | .functor _ m' _ => m' = m
  | _ => false

/-- Client code is running: outside of all calls or in a functor. -/
def Agent.inClientCode (agent : Agent n) : Bool :=
  match agent.stack with
  | [] | .running _ _ :: _ | .functor _ _ _ :: _ => true
  | _ => false

/-- The agent holds a handle on the message or is processing it. -/
def Agent.holds (agent : Agent n) (m : Nat) : Bool :=
  m ∈ agent.handles || agent.stack.any (Frame.processes m)

structure State (n N : Nat) where
  heap : RefHeap
  agent : Fin N → Agent n
  queue : Fin n → List Nat
  /-- History: how often a dispatch of the message to the stage has begun. -/
  sent : Fin n → Nat → Nat
  /-- History: how often the stage has begun to process the message. -/
  ran : Fin n → Nat → Nat

inductive Action (n N : Nat) where
  /-- A new message and a handle on it. -/
  | create (a : Fin N)
  /-- A further handle, for the agent `b`. -/
  | copyHandle (a b : Fin N) (m : Nat)
  | dropHandle (a : Fin N) (m : Nat)
  | dispatch (a : Fin N) (stageName : Fin n) (m : Nat)
  /-- `dispatch` with the `clone_message` tag. -/
  | cloneDispatch (a : Fin N) (stageName : Fin n) (m : Nat)
  | fanout (a : Fin N) (m : Nat) (stages : List (Fin n)) (clone handle : Bool)
  /-- The pop of `StageBase::process`. -/
  | pop (a : Fin N) (stage : Fin n)
  /-- The next step of the innermost call; a functor returns. -/
  | advance (a : Fin N)

/-- One more for the stage and the message. -/
def bump (f : Fin n → Nat → Nat) (stage : Fin n) (m : Nat) : Fin n → Nat → Nat :=
  fun s x => f s x + if s = stage ∧ x = m then 1 else 0

namespace State

variable (σ : State n N)

def setAgent (a : Fin N) (agent : Agent n) : State n N :=
  { σ with agent := Function.update σ.agent a agent }

/-- `dispatch` up to the push, from the agent's state `agent`. -/
def incrementReferenceCount (a : Fin N) (agent : Agent n) (stageName : Fin n) (m : Nat) :
    State n N :=
  { σ with
    heap := σ.heap.acquire m
    agent := Function.update σ.agent a { agent with stack := .pushing stageName m :: agent.stack }
    sent := bump σ.sent stageName m }

/-- The same for a copy of the message. -/
def cloneMessage (a : Fin N) (agent : Agent n) (stageName : Fin n) (m : Nat) : State n N :=
  { σ with
    heap := (σ.heap.touch m).alloc
    agent := Function.update σ.agent a
      { agent with stack := .pushing stageName (σ.heap.touch m).next :: agent.stack }
    sent := bump σ.sent stageName (σ.heap.touch m).next }

end State

/-- The next step of the innermost call of an agent. -/
def advance (kind : Fin n → QueueKind) (σ : State n N) (a : Fin N) : Option (State n N) :=
  let agent := σ.agent a
  match agent.stack with
  | [] => none
  | .pushing stageName m :: stack =>
    match kind stageName with
    -- `queue_.push(m)`; from now on any thread may pop it
    | .fifo =>
      some { σ with
        agent := Function.update σ.agent a { agent with stack := stack }
        queue := Function.update σ.queue stageName (σ.queue stageName ++ [m]) }
    | .passThrough =>
      some { σ with
        agent := Function.update σ.agent a
          { agent with stack := .functors stageName m 1 :: stack }
        ran := bump σ.ran stageName m }
    | .chain NumberOfProcessingFunctors =>
      some { σ with
        agent := Function.update σ.agent a
          { agent with stack := .functors stageName m NumberOfProcessingFunctors :: stack }
        ran := bump σ.ran stageName m }
  | .fanout m [] _ handle :: stack =>
    some (σ.setAgent a
      { handles := if handle then m :: agent.handles else agent.handles, stack := stack })
  | .fanout m (stageName :: stages) clone handle :: stack =>
    let agent := { agent with stack := .fanout m stages clone handle :: stack }
    some (if clone then σ.cloneMessage a agent stageName m
      else σ.incrementReferenceCount a agent stageName m)
  -- `message->processWith(processingFunctor_)`
  | .popped stage m :: stack =>
    some { σ with
      heap := σ.heap.touch m
      agent := Function.update σ.agent a { agent with stack := .running stage m :: stack }
      ran := bump σ.ran stage m }
  | .running stage m :: stack =>
    some (σ.setAgent a { agent with stack := .finished stage m :: stack })
  -- the destructor of the handle that adopted the reference, or `decrementReferenceCount`
  | .finished _ m :: stack | .functors _ m 0 :: stack =>
    some { σ with
      heap := σ.heap.release m
      agent := Function.update σ.agent a { agent with stack := stack } }
  | .functors stage m (left + 1) :: stack =>
    some { σ with
      heap := σ.heap.touch m
      agent := Function.update σ.agent a { agent with stack := .functor stage m left :: stack } }
  | .functor stage m left :: stack =>
    some (σ.setAgent a { agent with stack := .functors stage m left :: stack })

/-- What client code does: a handle, a dispatch or a fanout. -/
def clientStep (σ : State n N) (a : Fin N) : Action n N → Option (State n N)
  | .create _ =>
    some { σ with
      heap := σ.heap.alloc
      agent := Function.update σ.agent a
        { σ.agent a with handles := σ.heap.next :: (σ.agent a).handles } }
  | .copyHandle _ b m =>
    if (σ.agent a).holds m then
      some { σ with
        heap := σ.heap.acquire m
        agent := Function.update σ.agent b
          { σ.agent b with handles := m :: (σ.agent b).handles } }
    else none
  | .dropHandle _ m =>
    if m ∈ (σ.agent a).handles then
      some { σ with
        heap := σ.heap.release m
        agent := Function.update σ.agent a
          { σ.agent a with handles := (σ.agent a).handles.erase m } }
    else none
  | .dispatch _ stageName m =>
    if (σ.agent a).holds m then some (σ.incrementReferenceCount a (σ.agent a) stageName m)
    else none
  | .cloneDispatch _ stageName m =>
    if (σ.agent a).holds m then some (σ.cloneMessage a (σ.agent a) stageName m) else none
  -- the caller keeps its handle until the fanout returns
  | .fanout _ m stages clone true =>
    if m ∈ (σ.agent a).handles then
      some (σ.setAgent a
        { handles := (σ.agent a).handles.erase m
          stack := .fanout m stages clone true :: (σ.agent a).stack })
    else none
  | .fanout _ m stages clone false =>
    if (σ.agent a).stack.any (Frame.processes m) then
      some (σ.setAgent a
        { σ.agent a with stack := .fanout m stages clone false :: (σ.agent a).stack })
    else none
  | .pop _ _ | .advance _ => none

def Action.agent : Action n N → Fin N
  | .create a | .copyHandle a _ _ | .dropHandle a _ | .dispatch a _ _ | .cloneDispatch a _ _
  | .fanout a _ _ _ _ | .pop a _ | .advance a => a

def step (kind : Fin n → QueueKind) (σ : State n N) : Action n N → Option (State n N)
  | .advance a => advance kind σ a
  | .pop a stage =>
    match (σ.agent a).stack, σ.queue stage with
    | [], m :: rest =>
      some { σ with
        agent := Function.update σ.agent a { σ.agent a with stack := [.popped stage m] }
        queue := Function.update σ.queue stage rest }
    | _, _ => none
  | action =>
    if (σ.agent action.agent).inClientCode then clientStep σ action.agent action else none

/-- No message exists. -/
def State.initial : State n N where
  heap := .empty
  agent _ := { handles := [], stack := [] }
  queue _ := []
  sent _ _ := 0
  ran _ _ := 0

def system (kind : Fin n → QueueKind) (N : Nat) : Lts (State n N) (Action n N) where
  init σ := σ = State.initial
  step := step kind

end Wield.Messages
