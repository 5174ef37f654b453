import Mathlib.Data.Fintype.Basic
import Mathlib.Logic.Relation
import Wield.Theory.Lts

/-!
# Stage graphs and the queues that drive them

A graph says what each stage dispatches for a message.  What happens on a dispatch depends on the
queue of the target: an ordinary queue keeps the message for `StageBase::process`, a
`PassThroughStageQueue` and a `ProcessingFunctorChain` run their functors inside `push`, nested in
the functor that dispatches.  The pending work of the running thread is a stack of tasks.
-/

namespace Wield

variable {n : Nat} {Message : Type}

/-- What the processing functor of each stage dispatches; only to later stages. -/
structure StageGraph (n : Nat) (Message : Type) where
  Later : Fin n → Fin n → Prop
  acyclic : ∀ s, ¬ Relation.TransGen Later s s
  functor : Fin n → Message → List (Fin n × Message)
  later : ∀ s m d, d ∈ functor s m → Later s d.1

/-- The queue a stage is constructed with. -/
inductive StageQueue (n : Nat) (Message : Type) where
  | fifo
  /-- `PassThroughStageQueue`, with the functor of the stage. -/
  | passThrough
  /-- `ProcessingFunctorChain`. -/
  | chain (processingFunctors : List (Message → List (Fin n × Message)))

/-- A queue for each stage; the functors of a chain together dispatch what the stage does. -/
structure Wiring (G : StageGraph n Message) where
  queue : Fin n → StageQueue n Message
  chain_eq : ∀ s processingFunctors, queue s = .chain processingFunctors →
    ∀ m, processingFunctors.flatMap (fun f => f m) = G.functor s m

/-- What the running thread has yet to do. -/
inductive Task (n : Nat) (Message : Type) where
  /-- `DispatcherBase::dispatch`. -/
  | dispatch (stageName : Fin n) (m : Message)
  /-- Process the message with each of the functors and give up its reference. -/
  | processWith (processingFunctors : List (Message → List (Fin n × Message))) (m : Message)

structure Machine (n : Nat) (Message : Type) where
  queue : Fin n → List Message
  /-- Innermost call first. -/
  stack : List (Task n Message)
  /-- History: the delivered dispatches that have been processed. -/
  events : List (Fin n × Message)

inductive Machine.Action (n : Nat) where
  /-- The running thread goes on. -/
  | advance
  /-- `StageBase::process` is called on a stage with a message, outside of any functor. -/
  | process (stage : Fin n)

namespace Wiring

variable {G : StageGraph n Message} (w : Wiring G)

/-- `push` on the queue of a stage. -/
def push (σ : Machine n Message) (stageName : Fin n) (m : Message) : Machine n Message :=
  match w.queue stageName with
  | .fifo => { σ with queue := Function.update σ.queue stageName (σ.queue stageName ++ [m]) }
  | .passThrough =>
    { σ with
      -- the functor runs inside the `push`, before the dispatching functor goes on
      stack := .processWith [G.functor stageName] m :: σ.stack
      events := σ.events ++ [(stageName, m)] }
  | .chain processingFunctors =>
    { σ with
      stack := .processWith processingFunctors m :: σ.stack
      events := σ.events ++ [(stageName, m)] }

def step (σ : Machine n Message) : Machine.Action n → Option (Machine n Message)
  | .advance =>
    match σ.stack with
    | [] => none
    | .dispatch stageName m :: stack => some (w.push { σ with stack := stack } stageName m)
    | .processWith [] _ :: stack => some { σ with stack := stack }
    | .processWith (f :: fs) m :: stack =>
      some { σ with
        -- the functor's dispatches come before the next functor of a chain
        stack := (f m).map (fun d => .dispatch d.1 d.2) ++ .processWith fs m :: stack }
  | .process stage =>
    match σ.stack, σ.queue stage with
    | [], m :: rest =>
      some
        { queue := Function.update σ.queue stage rest
          stack := [.processWith [G.functor stage] m]
          events := σ.events ++ [(stage, m)] }
    | _, _ => none

end Wiring

/-- Before the initial dispatches. -/
def Machine.start (initial : List (Fin n × Message)) : Machine n Message where
  queue _ := []
  stack := initial.map fun d => .dispatch d.1 d.2
  events := []

/-- All queues are empty and no functor runs. -/
def Machine.Finished (σ : Machine n Message) : Prop :=
  σ.stack = [] ∧ ∀ s, σ.queue s = []

/-- The runs over some wiring, from some initial dispatches. -/
def Wiring.machine {G : StageGraph n Message} (w : Wiring G) (initial : List (Fin n × Message)) :
    Theory.Lts (Machine n Message) (Machine.Action n) where
  init σ := σ = Machine.start initial
  step := w.step

end Wield
