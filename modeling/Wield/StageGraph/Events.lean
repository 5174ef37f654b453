import Mathlib.Data.Fintype.BigOperators
import Mathlib.Order.RelClasses
import Wield.StageGraph
import Wield.Theory.Spawn
import Wield.Theory.SumUpdate

/-!
# What gets processed does not depend on the queues

The pool of deliveries that are queued, about to be dispatched or still to come from a running
functor is worked off one by one: each step of the machine either only moves a delivery or handles
it.  So all runs handle the deliveries of `StageGraph.deliveries`, whatever the queues and the order
of the `process` calls.
-/

namespace Wield

open Theory Theory.Spawning

variable {n : Nat} {Message : Type}

namespace StageGraph

variable (G : StageGraph n Message)

theorem later_wellFounded : WellFounded fun b a => G.Later a b := by
  -- a transitive, irreflexive relation on finitely many stages has no infinite descent
  have : IsTrans (Fin n) fun b a => Relation.TransGen G.Later a b :=
    ⟨fun _ _ _ hab hbc => hbc.trans hab⟩
  have : Std.Irrefl fun b a => Relation.TransGen G.Later a b := ⟨G.acyclic⟩
  exact Subrelation.wf (fun h => Relation.TransGen.single h)
    (Finite.wellFounded_of_trans_of_irrefl fun b a => Relation.TransGen G.Later a b)

/-- A delivery leads to the deliveries that the functor of its stage dispatches. -/
def spawning : Spawning (Fin n × Message) where
  children d := G.functor d.1 d.2
  wf := Subrelation.wf (fun {b a} h => G.later a.1 a.2 b h)
    (InvImage.wf Prod.fst G.later_wellFounded)

/-- All deliveries that follow from the initial dispatches. -/
noncomputable def deliveries (initial : List (Fin n × Message)) : Multiset (Fin n × Message) :=
  (initial.map (G.spawning.total fun d => {d})).sum

/-- The dispatches of a list of actions, some of which make one. -/
theorem sum_deliveries {α : Type*} (dispatch : α → Option (Fin n × Message)) (as : List α) :
    (as.map fun a => G.deliveries (dispatch a).toList).sum =
      G.deliveries (as.filterMap dispatch) := by
  induction as with
  | nil => rfl
  | cons a as ih =>
    rw [List.map_cons, List.sum_cons, ih, List.filterMap_cons]
    cases dispatch a with
    | none => exact zero_add _
    | some d => exact (@List.sum_append _ _ _ _ _ [_] _).symm

end StageGraph

/-! ## Steps -/

namespace Wiring

variable {G : StageGraph n Message} (w : Wiring G)

/-- How many functors process a message that is delivered to the stage. -/
def functors (s : Fin n) : Nat :=
  match w.queue s with
  | .fifo | .passThrough => 1
  | .chain processingFunctors => processingFunctors.length

/-- All that a step can do. -/
inductive Steps : Machine n Message → Machine n Message → Prop where
  | push (queue stack events s m) : Steps ⟨queue, .dispatch s m :: stack, events⟩
      ⟨Function.update queue s (queue s ++ [m]), stack, events⟩
  /-- The queue of the stage processes the message at once. -/
  | deliver (queue stack events s m processingFunctors) :
      processingFunctors.length = w.functors s →
      processingFunctors.flatMap (fun f => f m) = G.functor s m →
      Steps ⟨queue, .dispatch s m :: stack, events⟩
        ⟨queue, .processWith processingFunctors m :: stack, events ++ [(s, m)]⟩
  | done (queue stack events m) :
      Steps ⟨queue, .processWith [] m :: stack, events⟩ ⟨queue, stack, events⟩
  | run (queue stack events f fs m) : Steps ⟨queue, .processWith (f :: fs) m :: stack, events⟩
      ⟨queue, (f m).map (fun d => .dispatch d.1 d.2) ++ .processWith fs m :: stack, events⟩
  | process (queue events s m rest) : queue s = m :: rest → Steps ⟨queue, [], events⟩
      ⟨Function.update queue s rest, [.processWith [G.functor s] m], events ++ [(s, m)]⟩

variable {w}

theorem push_steps (queue : Fin n → List Message) (stack : List (Task n Message))
    (events : List (Fin n × Message)) (s : Fin n) (m : Message) :
    w.Steps ⟨queue, .dispatch s m :: stack, events⟩ (w.push ⟨queue, stack, events⟩ s m) := by
  unfold push
  split
  · exact .push queue stack events s m
  · rename_i hq
    have hlength : [G.functor s].length = w.functors s := by
      rw [functors, hq, List.length_singleton]
    exact .deliver queue stack events s m _ hlength (List.flatMap_singleton _ _)
  · rename_i processingFunctors hq
    have hlength : processingFunctors.length = w.functors s := by
      rw [functors, hq]
    exact .deliver queue stack events s m _ hlength (w.chain_eq s processingFunctors hq m)

theorem step_inv {σ σ' : Machine n Message} {a : Machine.Action n} (h : w.step σ a = some σ') :
    w.Steps σ σ' := by
  obtain ⟨queue, stack, events⟩ := σ
  cases a with
  | advance =>
    cases stack with
    | nil => cases h
    | cons task stack =>
      cases task with
      | dispatch s m =>
        cases h
        exact push_steps queue stack events s m
      | processWith functors m =>
        cases functors with
        | nil =>
          cases h
          exact .done queue stack events m
        | cons f fs =>
          cases h
          exact .run queue stack events f fs m
  | process s =>
    cases stack with
    | cons task stack => cases h
    | nil =>
      simp only [step] at h
      split at h
      · rename_i m rest _ hq
        cases h
        exact .process queue events s m rest hq
      · cases h

end Wiring

/-! ## The machine as a pool -/

/-- The deliveries that a task will make itself. -/
def Task.pending : Task n Message → List (Fin n × Message)
  | .dispatch stageName m => [(stageName, m)]
  | .processWith processingFunctors m => processingFunctors.flatMap fun f => f m

/-- The deliveries that wait in the queues. -/
def queued (queue : Fin n → List Message) : Multiset (Fin n × Message) :=
  ∑ s, ((queue s).map (Prod.mk s) : Multiset (Fin n × Message))

theorem queued_of_empty {queue : Fin n → List Message} (h : ∀ s, queue s = []) :
    queued queue = 0 := by
  unfold queued
  refine Finset.sum_eq_zero fun s _ => ?_
  rw [h s]
  rfl

theorem mem_queued {queue : Fin n → List Message} {d : Fin n × Message} :
    d ∈ queued queue ↔ d.2 ∈ queue d.1 := by
  obtain ⟨s, m⟩ := d
  simp [queued, Multiset.mem_sum]

theorem queued_update (queue : Fin n → List Message) (s : Fin n) (l : List Message) :
    queued (Function.update queue s l) + (queue s).map (Prod.mk s) =
      queued queue + l.map (Prod.mk s) := by
  exact sum_update_add (fun s l => (l.map (Prod.mk s) : Multiset (Fin n × Message))) queue s l

theorem queued_push (queue : Fin n → List Message) (s : Fin n) (m : Message) :
    queued (Function.update queue s (queue s ++ [m])) = (s, m) ::ₘ queued queue := by
  have h := queued_update queue s (queue s ++ [m])
  rw [List.map_append, ← Multiset.coe_add, ← add_assoc, add_right_comm] at h
  rw [add_right_cancel h, List.map_singleton, Multiset.coe_singleton, ← Multiset.singleton_add,
    add_comm]

theorem queued_pop {queue : Fin n → List Message} {s : Fin n} {m : Message} {rest : List Message}
    (hq : queue s = m :: rest) :
    queued queue = (s, m) ::ₘ queued (Function.update queue s rest) := by
  have h := queued_update queue s rest
  rw [hq, List.map_cons, ← Multiset.cons_coe, ← Multiset.singleton_add, ← add_assoc] at h
  rw [← add_right_cancel h, ← Multiset.singleton_add, add_comm]

/-- The abstract state of a machine. -/
def Machine.pool (σ : Machine n Message) : Pool (Fin n × Message) where
  done := σ.events
  pending := queued σ.queue + (σ.stack.flatMap Task.pending : Multiset (Fin n × Message))

theorem pending_dispatches (ds : List (Fin n × Message)) :
    (ds.map fun d => Task.dispatch d.1 d.2).flatMap Task.pending = ds := by
  induction ds with
  | nil => rfl
  | cons d ds ih =>
    rw [List.map_cons, List.flatMap_cons, ih]
    rfl

variable {G : StageGraph n Message} {w : Wiring G} {σ σ' : Machine n Message}

/-- A delivery that is processed at once. -/
theorem deliver_pool {s : Fin n} {m : Message} {stack : List (Task n Message)}
    {queue : Fin n → List Message} {events : List (Fin n × Message)}
    {functors : List (Message → List (Fin n × Message))}
    (hfunctors : functors.flatMap (fun f => f m) = G.functor s m)
    {pending : Multiset (Fin n × Message)}
    (hpending : pending = (s, m) ::ₘ
      (queued queue + (stack.flatMap Task.pending : Multiset (Fin n × Message)))) :
    Pool.Step G.spawning ⟨events, pending⟩
      (Machine.pool ⟨queue, .processWith functors m :: stack, events ++ [(s, m)]⟩) := by
  have hstack : Machine.pool ⟨queue, .processWith functors m :: stack, events ++ [(s, m)]⟩ =
      ⟨(events : Multiset (Fin n × Message)) + {(s, m)},
        queued queue + (stack.flatMap Task.pending : Multiset (Fin n × Message)) +
          (G.functor s m : Multiset (Fin n × Message))⟩ := by
    simp only [Machine.pool, List.flatMap_cons, Task.pending, hfunctors, ← Multiset.coe_add,
      ← Multiset.coe_singleton]
    rw [add_assoc, add_comm (G.functor s m : Multiset (Fin n × Message))]
  rw [hstack, hpending]
  exact .take _ _ (s, m)

theorem pool_dispatch (queue : Fin n → List Message) (stack : List (Task n Message)) (s : Fin n)
    (m : Message) :
    queued queue +
        ((Task.dispatch s m :: stack).flatMap Task.pending : Multiset (Fin n × Message)) =
      (s, m) ::ₘ (queued queue + (stack.flatMap Task.pending : Multiset (Fin n × Message))) := by
  rw [List.flatMap_cons, Task.pending, List.singleton_append, ← Multiset.cons_coe,
    Multiset.add_cons]

/-- Each step of the machine handles a delivery of the pool or leaves the pool as it is. -/
theorem step_pool {a : Machine.Action n} (h : w.step σ a = some σ') :
    σ'.pool = σ.pool ∨ Pool.Step G.spawning σ.pool σ'.pool := by
  cases Wiring.step_inv h with
  | push queue stack events s m =>
    -- the delivery moves from the stack to the queue
    left
    rw [Machine.pool, Machine.pool, pool_dispatch, queued_push, Multiset.cons_add]
  | deliver queue stack events s m functors _ hfunctors =>
    exact .inr (deliver_pool hfunctors (pool_dispatch queue stack s m))
  | done queue stack events m => exact .inl rfl
  | run queue stack events f fs m =>
    -- a functor starts: its deliveries were pending already
    left
    simp only [Machine.pool, List.flatMap_append, pending_dispatches, List.flatMap_cons,
      Task.pending, List.append_assoc]
  | process queue events s m rest hq =>
    -- the popped delivery was pending in the queue
    refine .inr (deliver_pool (List.flatMap_singleton (fun f => f m) (G.functor s)) ?_)
    rw [queued_pop hq, Multiset.cons_add]

/-! ## Runs end -/

namespace Wiring

variable (w)

/-- A bound on the steps for a delivery and all that follows from it. -/
noncomputable def cost (d : Fin n × Message) : Nat :=
  G.spawning.total (fun d => 4 + w.functors d.1) d

/-- The same bound after the push to an ordinary queue. -/
noncomputable def waitCost (d : Fin n × Message) : Nat :=
  3 + w.functors d.1 + ((G.functor d.1 d.2).map w.cost).sum

theorem cost_eq (d : Fin n × Message) : w.cost d = w.waitCost d + 1 := by
  have h := G.spawning.total_eq (fun d => 4 + w.functors d.1) d
  change w.cost d = 4 + w.functors d.1 + ((G.functor d.1 d.2).map w.cost).sum at h
  rw [h, waitCost]
  omega

noncomputable def taskCost : Task n Message → Nat
  | .dispatch stageName m => w.cost (stageName, m)
  | .processWith processingFunctors m =>
    1 + processingFunctors.length + ((processingFunctors.flatMap fun f => f m).map w.cost).sum

noncomputable def queueCost (queue : Fin n → List Message) : Nat :=
  ((queued queue).map w.waitCost).sum

noncomputable def machineCost (σ : Machine n Message) : Nat :=
  w.queueCost σ.queue + (σ.stack.map w.taskCost).sum

theorem queueCost_push (queue : Fin n → List Message) (s : Fin n) (m : Message) :
    w.queueCost (Function.update queue s (queue s ++ [m])) =
      w.waitCost (s, m) + w.queueCost queue := by
  rw [queueCost, queueCost, queued_push, Multiset.map_cons, Multiset.sum_cons]

theorem queueCost_pop {queue : Fin n → List Message} {s : Fin n} {m : Message}
    {rest : List Message} (hq : queue s = m :: rest) :
    w.queueCost queue = w.waitCost (s, m) + w.queueCost (Function.update queue s rest) := by
  rw [queueCost, queueCost, queued_pop hq, Multiset.map_cons, Multiset.sum_cons]

theorem taskCost_dispatches (ds : List (Fin n × Message)) :
    ((ds.map fun d => Task.dispatch d.1 d.2).map w.taskCost).sum = (ds.map w.cost).sum := by
  rw [List.map_map]
  rfl

theorem step_cost {a : Machine.Action n} (h : w.step σ a = some σ') :
    w.machineCost σ' < w.machineCost σ := by
  cases step_inv h with
  | push queue stack events s m =>
    have hcost := w.cost_eq (s, m)
    simp only [machineCost, queueCost_push, List.map_cons, List.sum_cons, taskCost]
    omega
  | deliver queue stack events s m functors hlength hfunctors =>
    have hcost := w.cost_eq (s, m)
    simp only [machineCost, List.map_cons, List.sum_cons, taskCost, hfunctors, hlength,
      waitCost] at hcost ⊢
    omega
  | done queue stack events m =>
    simp only [machineCost, List.map_cons, List.sum_cons, taskCost, List.length_nil,
      List.flatMap_nil, List.map_nil, List.sum_nil]
    omega
  | run queue stack events f fs m =>
    simp only [machineCost, List.map_append, List.map_cons, List.sum_append, List.sum_cons,
      taskCost_dispatches, taskCost, List.length_cons, List.flatMap_cons]
    omega
  | process queue events s m rest hq =>
    simp only [machineCost, w.queueCost_pop hq, List.map_cons, List.map_nil, List.sum_cons,
      List.sum_nil, taskCost, List.length_singleton, List.flatMap_singleton, waitCost]
    omega

end Wiring

/-- A machine that can do nothing has emptied all its queues. -/
theorem finished_of_stuck (h : ∀ a, w.step σ a = none) : σ.Finished := by
  have hstack : σ.stack = [] := by
    cases hs : σ.stack with
    | nil => rfl
    | cons task stack =>
      have hadvance := h .advance
      simp only [Wiring.step, hs] at hadvance
      rcases task with ⟨s, m⟩ | ⟨_ | ⟨f, fs⟩, m⟩ <;> cases hadvance
  refine ⟨hstack, fun s => ?_⟩
  cases hq : σ.queue s with
  | nil => rfl
  | cons m rest =>
    have hprocess := h (.process s)
    simp only [Wiring.step, hstack, hq] at hprocess
    cases hprocess

theorem all_invariant (w : Wiring G) (initial : List (Fin n × Message)) :
    (w.machine initial).Invariant fun σ => σ.pool.all G.spawning = G.deliveries initial where
  init := by
    rintro _ rfl
    have hqueued : queued (fun _ : Fin n => ([] : List Message)) = 0 :=
      Finset.sum_eq_zero fun _ _ => rfl
    rw [Pool.all, Machine.pool, Machine.start, hqueued, pending_dispatches]
    simp only [zero_add, Multiset.map_coe, Multiset.sum_coe, Multiset.coe_nil]
    rfl
  step σ a σ' h hs := by
    rcases step_pool hs with heq | hstep
    · rw [heq, h]
    · rw [hstep.all_eq, h]

/-- Over any wiring of a graph, runs are bounded, a run that cannot go on has emptied all queues,
    and then it has processed the deliveries that the graph and the initial dispatches determine. -/
theorem processed_independent_of_queues (G : StageGraph n Message) (w : Wiring G)
    (initial : List (Fin n × Message)) (as : List (Machine.Action n)) {σ : Machine n Message}
    (hrun : (w.machine initial).run (Machine.start initial) as = some σ) :
    as.length ≤ w.machineCost (Machine.start initial) ∧
      ((∀ a, w.step σ a = none) → σ.Finished) ∧
      (σ.Finished → (σ.events : Multiset (Fin n × Message)) = G.deliveries initial) := by
  refine ⟨?_, finished_of_stuck, fun hfinished => ?_⟩
  · have hlength := (w.machine initial).run_length_le w.machineCost
      (fun _ _ _ h => w.step_cost h) hrun
    omega
  · have hall := (all_invariant w initial).holds ((Lts.Reachable.init rfl).run hrun)
    have hpending : σ.pool.pending = 0 := by
      have hqueued : queued σ.queue = 0 := by
        refine Finset.sum_eq_zero fun s _ => ?_
        rw [hfinished.2 s]
        rfl
      rw [Machine.pool, hqueued, hfinished.1]
      rfl
    rw [← hall, Pool.all_of_finished G.spawning hpending]
    rfl

/-- Two stages, of which the first forwards every message. -/
def forwarding : StageGraph 2 Nat where
  Later := (· < ·)
  acyclic s h := by
    rw [Relation.transGen_eq_self] at h
    exact lt_irrefl s h
  functor s m := if s = 0 then [(1, m)] else []
  later s m d h := by
    split at h
    · rename_i hs
      rw [hs, List.mem_singleton.mp h]
      exact Nat.one_pos
    · cases h

/-- The second stage is passed through. -/
def forwardingWiring : Wiring forwarding where
  queue s := if s = 0 then .fifo else .passThrough
  chain_eq s _ h := by split at h <;> cases h

theorem processed_independent_of_queues_forwarding :
    ∃ σ, (forwardingWiring.machine [(0, 7)]).run (Machine.start [(0, 7)])
        [.advance, .process 0, .advance, .advance, .advance, .advance, .advance] = some σ ∧
      σ.events = [(0, 7), (1, 7)] ∧
      7 ≤ forwardingWiring.machineCost (Machine.start [(0, 7)]) ∧
      ((∀ a, forwardingWiring.step σ a = none) → σ.Finished) ∧
      (σ.Finished → (σ.events : Multiset (Fin 2 × Nat)) = forwarding.deliveries [(0, 7)]) :=
  ⟨_, rfl, rfl, processed_independent_of_queues forwarding forwardingWiring [(0, 7)]
    [.advance, .process 0, .advance, .advance, .advance, .advance, .advance] rfl⟩

end Wield
