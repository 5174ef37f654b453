import Mathlib.Data.Fin.VecNotation
import Wield.StageGraph.Events

/-!
# Several threads over one set of queues

Any number of threads dispatch their own messages and call `StageBase::process` on any stages.  A
`PassThroughStageQueue` and a `ProcessingFunctorChain` run their functors in the thread that pushes,
so every thread has a stack of its own.  Nothing is said about which stage a thread processes next:
the runs of every scheduling policy are among these.
-/

namespace Wield

open Theory Theory.Spawning

variable {n T : Nat} {Message : Type}

structure Threads (n T : Nat) (Message : Type) where
  queue : Fin n → List Message
  /-- Of each thread, innermost call first. -/
  stack : Fin T → List (Task n Message)
  /-- History: the delivered dispatches that have been processed, by any thread. -/
  events : List (Fin n × Message)

namespace Threads

/-- What one thread sees. -/
def machine (σ : Threads n T Message) (t : Fin T) : Machine n Message where
  queue := σ.queue
  stack := σ.stack t
  events := σ.events

/-- After a step of thread `t`. -/
def setMachine (σ : Threads n T Message) (t : Fin T) (μ : Machine n Message) :
    Threads n T Message where
  queue := μ.queue
  stack := Function.update σ.stack t μ.stack
  events := μ.events

/-- Each thread has dispatches of its own to make. -/
def start (initial : Fin T → List (Fin n × Message)) : Threads n T Message where
  queue _ := []
  stack t := (initial t).map fun d => .dispatch d.1 d.2
  events := []

/-- All queues are empty and no thread is in a functor or a dispatch. -/
def Finished (σ : Threads n T Message) : Prop :=
  (∀ t, σ.stack t = []) ∧ ∀ s, σ.queue s = []

end Threads

variable {G : StageGraph n Message} (w : Wiring G)

/-- A thread goes on, or processes a stage when it is in no functor. -/
def Wiring.threadStep (σ : Threads n T Message) (a : Fin T × Machine.Action n) :
    Option (Threads n T Message) :=
  (w.step (σ.machine a.1) a.2).map (σ.setMachine a.1)

/-- The runs of `T` threads over some wiring. -/
def Wiring.threads (initial : Fin T → List (Fin n × Message)) :
    Lts (Threads n T Message) (Fin T × Machine.Action n) where
  init σ := σ = Threads.start initial
  step := w.threadStep

variable {w}

theorem Wiring.threadStep_eq_some {σ σ' : Threads n T Message} {a : Fin T × Machine.Action n}
    (h : w.threadStep σ a = some σ') :
    ∃ μ, w.step (σ.machine a.1) a.2 = some μ ∧ σ' = σ.setMachine a.1 μ := by
  obtain ⟨μ, hμ, rfl⟩ := Option.map_eq_some_iff.mp h
  exact ⟨μ, hμ, rfl⟩

namespace Threads

variable {σ σ' : Threads n T Message} {a : Fin T × Machine.Action n}

/-! ## The threads as one pool -/

/-- What all threads will dispatch themselves. -/
def unmade (σ : Threads n T Message) : Multiset (Fin n × Message) :=
  ∑ t, ((σ.stack t).flatMap Task.pending : Multiset (Fin n × Message))

def pool (σ : Threads n T Message) : Pool (Fin n × Message) where
  done := σ.events
  pending := queued σ.queue + σ.unmade

theorem unmade_setMachine (σ : Threads n T Message) (t : Fin T) (μ : Machine n Message) :
    (σ.setMachine t μ).unmade + ((σ.stack t).flatMap Task.pending : Multiset (Fin n × Message)) =
      σ.unmade + (μ.stack.flatMap Task.pending : Multiset (Fin n × Message)) :=
  sum_update_add (fun _ stack => (stack.flatMap Task.pending : Multiset (Fin n × Message)))
    σ.stack t μ.stack

/-- Every step of every thread keeps what has been or will be processed. -/
theorem step_all (h : w.threadStep σ a = some σ') :
    σ'.pool.all G.spawning = σ.pool.all G.spawning := by
  obtain ⟨μ, hμ, rfl⟩ := Wiring.threadStep_eq_some h
  -- the thread alone keeps its own balance
  have hown : μ.pool.all G.spawning = (σ.machine a.1).pool.all G.spawning := by
    rcases step_pool hμ with heq | hstep
    · rw [heq]
    · exact hstep.all_eq
  have hothers := σ.unmade_setMachine a.1 μ
  let own : Multiset (Fin n × Message) := ((σ.stack a.1).flatMap Task.pending : List _)
  let totals (pending : Multiset (Fin n × Message)) : Multiset (Fin n × Message) :=
    (pending.map (G.spawning.total fun d => {d})).sum
  apply add_right_cancel (b := totals own)
  calc (σ.setMachine a.1 μ).pool.all G.spawning + totals own
      = Pool.all G.spawning ⟨μ.events, queued μ.queue + (σ.setMachine a.1 μ).unmade + own⟩ :=
        (Pool.all_add _ _ _ _).symm
    _ = Pool.all G.spawning ⟨μ.events, queued μ.queue +
          (μ.stack.flatMap Task.pending : Multiset (Fin n × Message)) + σ.unmade⟩ := by
        rw [add_assoc, hothers, add_comm σ.unmade, add_assoc]
    _ = (σ.machine a.1).pool.all G.spawning + totals σ.unmade := by
        rw [Pool.all_add, ← hown]
        rfl
    _ = Pool.all G.spawning ⟨σ.events, queued σ.queue + σ.unmade + own⟩ := by
        rw [add_right_comm]
        exact (Pool.all_add _ _ _ _).symm
    _ = σ.pool.all G.spawning + totals own := Pool.all_add _ _ _ _

/-! ## Runs end -/

variable (w) in
/-- A bound on the steps of all threads together. -/
noncomputable def cost (σ : Threads n T Message) : Nat :=
  w.queueCost σ.queue + ∑ t, ((σ.stack t).map w.taskCost).sum

theorem step_cost (h : w.threadStep σ a = some σ') : σ'.cost w < σ.cost w := by
  obtain ⟨μ, hμ, rfl⟩ := Wiring.threadStep_eq_some h
  have hown := w.step_cost hμ
  have hothers := sum_update_add (fun _ stack => (stack.map w.taskCost).sum) σ.stack a.1 μ.stack
  simp only [Wiring.machineCost, machine] at hown
  simp only [cost, setMachine]
  omega

/-- Threads that can do nothing have emptied all queues. -/
theorem finished_of_stuck (hT : 0 < T) (h : ∀ a, w.threadStep σ a = none) : σ.Finished := by
  have hmachine : ∀ t, (σ.machine t).Finished := fun t =>
    Wield.finished_of_stuck fun a => Option.map_eq_none_iff.mp (h (t, a))
  exact ⟨fun t => (hmachine t).1, (hmachine ⟨0, hT⟩).2⟩

theorem all_invariant (w : Wiring G) (initial : Fin T → List (Fin n × Message)) :
    (w.threads initial).Invariant fun σ =>
      σ.pool.all G.spawning = ∑ t, G.deliveries (initial t) where
  init := by
    rintro _ rfl
    have hunmade : (start initial).unmade = ∑ t, (initial t : Multiset (Fin n × Message)) :=
      Finset.sum_congr rfl fun t _ => congrArg _ (pending_dispatches (initial t))
    have hqueued : queued (start initial).queue = 0 := queued_of_empty fun _ => rfl
    have hpool : (start initial).pool = ⟨0, ∑ t, (initial t : Multiset (Fin n × Message))⟩ := by
      rw [pool, hunmade, hqueued, zero_add]
      rfl
    rw [hpool, Pool.all, zero_add]
    -- the totals of a sum of pools are the sum of the totals
    let total : Fin n × Message → Multiset (Fin n × Message) := G.spawning.total fun d => {d}
    exact map_sum (Multiset.sumAddMonoidHom.comp (Multiset.mapAddMonoidHom total))
      (fun t => (initial t : Multiset (Fin n × Message))) Finset.univ
  step σ a σ' h hs := by rw [step_all hs, h]

end Threads

/-- Whatever queues the stages have, however many threads there are and whichever stages they
    process in whichever interleaving: runs are bounded, a run in which no thread can go on has
    emptied all queues, and then the threads together have processed the deliveries that the graph
    and the initial dispatches determine. -/
theorem processed_independent_of_threads (G : StageGraph n Message) (w : Wiring G) (hT : 0 < T)
    (initial : Fin T → List (Fin n × Message)) (as : List (Fin T × Machine.Action n))
    {σ : Threads n T Message}
    (hrun : (w.threads initial).run (Threads.start initial) as = some σ) :
    as.length ≤ (Threads.start initial).cost w ∧
      ((∀ a, w.threadStep σ a = none) → σ.Finished) ∧
      (σ.Finished → (σ.events : Multiset (Fin n × Message)) = ∑ t, G.deliveries (initial t)) := by
  refine ⟨?_, Threads.finished_of_stuck hT, fun hfinished => ?_⟩
  · have hlength := (w.threads initial).run_length_le (Threads.cost w)
      (fun _ _ _ h => Threads.step_cost h) hrun
    omega
  · have hall := (Threads.all_invariant w initial).holds ((Lts.Reachable.init rfl).run hrun)
    have hpending : σ.pool.pending = 0 := by
      have hunmade : σ.unmade = 0 := Finset.sum_eq_zero fun t _ => by
        rw [hfinished.1 t, List.flatMap_nil, Multiset.coe_nil]
      rw [Threads.pool, queued_of_empty hfinished.2, hunmade, add_zero]
    rw [← hall, Pool.all_of_finished G.spawning hpending]
    rfl

/-- One thread dispatches to a stage that another thread processes, which dispatches to a stage that
    is passed through. -/
theorem processed_independent_of_threads_forwarding :
    ∃ σ : Threads 2 2 Nat, σ.Finished ∧ (σ.events : Multiset (Fin 2 × Nat)) =
      ∑ t, forwarding.deliveries (![[(0, 7), (1, 8)], []] t) := by
  let as : List (Fin 2 × Machine.Action 2) :=
    [(0, .advance), (1, .process 0), (1, .advance), (0, .advance), (1, .advance), (0, .advance),
      (0, .advance), (1, .advance), (1, .advance), (1, .advance)]
  obtain ⟨σ, hrun, hfinished⟩ : ∃ σ, (forwardingWiring.threads ![[(0, 7), (1, 8)], []]).run
      (Threads.start ![[(0, 7), (1, 8)], []]) as = some σ ∧ σ.Finished :=
    ⟨_, rfl, Fin.forall_fin_two.mpr ⟨rfl, rfl⟩, Fin.forall_fin_two.mpr ⟨rfl, rfl⟩⟩
  exact ⟨σ, hfinished, (processed_independent_of_threads forwarding forwardingWiring Nat.two_pos
    ![[(0, 7), (1, 8)], []] as hrun).2.2 hfinished⟩

end Wield
