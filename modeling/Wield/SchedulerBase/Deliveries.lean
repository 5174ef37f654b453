import Wield.SchedulerBase.Steps
import Wield.StageGraph.Events

/-!
# What gets processed does not depend on the schedule

The scheduler over a stage graph, with any policy and any number of threads: what has been popped,
what is still to come and what exceptions have cut off add up to the deliveries that follow from the
clients' dispatches.
-/

namespace Wield

open Theory Theory.Spawning

variable {n : Nat} {Message : Type}

/-- The messages that a list of dispatches brings to a stage. -/
def toStage (s : Fin n) (ds : List (Fin n × Message)) : List Message :=
  ds.filterMap fun d => if d.1 = s then some d.2 else none

theorem toStage_cons_self (s : Fin n) (m : Message) (ds : List (Fin n × Message)) :
    toStage s ((s, m) :: ds) = m :: toStage s ds := by
  simp [toStage]

theorem toStage_cons_of_ne {s s' : Fin n} (h : s' ≠ s) (m : Message)
    (ds : List (Fin n × Message)) : toStage s ((s', m) :: ds) = toStage s ds := by
  simp [toStage, h]

theorem toStage_append (s : Fin n) (ds ds' : List (Fin n × Message)) :
    toStage s (ds ++ ds') = toStage s ds ++ toStage s ds' :=
  List.filterMap_append

/-- The functors dispatch what the graph says, whatever the environment. -/
@[reducible] def StageGraph.application (G : StageGraph n Message) (mayThrow : Bool)
    (entry : Fin n → Bool) : Application n where
  Message := Message
  Env := Unit
  env := ()
  functor s m _ := G.functor s m
  mayThrow := mayThrow
  entry := entry

namespace SchedulerBase

section

variable {T C : Nat} {M : SchedulingPolicy n T} {A : Application n}

/-- The dispatches that the functor in which the thread is has yet to make. -/
def Pc.todo : Pc M A → List (Fin n × A.Message)
  | .running _ _ todo | .pushed _ _ _ todo => todo
  | .loop | .nextStage _ | .poll _ | .batchEnd _ _ | .exited => []

/-- The dispatch that a client makes. -/
def Action.clientPush : Action M A C → Option (Fin n × A.Message)
  | .push _ target m => some (target, m)
  | .thread _ _ _ | .throw _ | .dispatched _ | .stop => none

/-- All dispatches of the clients, in order. -/
def clientDispatches (as : List (Action M A C)) : List (Fin n × A.Message) :=
  as.filterMap Action.clientPush

/-- The dispatches that a functor which throws does not make. -/
def dropped (σ : State M A C) : Action M A C → List (Fin n × A.Message)
  | .throw t => (σ.pc t).todo
  | .thread _ _ _ | .push _ _ _ | .dispatched _ | .stop => []

/-- No message waits and no functor has a dispatch to make. -/
def Idle (σ : State M A C) : Prop :=
  (∀ s, σ.queue s = []) ∧ ∀ t, (σ.pc t).todo = []

/-- The popped messages, with their stages. -/
def State.processed (σ : State M A C) : Multiset (Fin n × A.Message) :=
  queued σ.popped

/-- The dispatches that the functors which run have yet to make. -/
def State.unmade (σ : State M A C) : Multiset (Fin n × A.Message) :=
  ∑ t, ((σ.pc t).todo : Multiset (Fin n × A.Message))

/-- The abstract state: what has been popped, and what waits or is still to be dispatched. -/
def State.pool (σ : State M A C) : Pool (Fin n × A.Message) where
  done := σ.processed
  pending := queued σ.queue + σ.unmade

theorem State.unmade_setPc (σ : State M A C) (t : Fin T) (pc : Pc M A) :
    (σ.setPc t pc).unmade + ((σ.pc t).todo : Multiset (Fin n × A.Message)) =
      σ.unmade + (pc.todo : Multiset (Fin n × A.Message)) :=
  sum_update_add (fun _ pc => (pc.todo : Multiset (Fin n × A.Message))) σ.pc t pc

/-- A thread that goes on with the same dispatches to make. -/
theorem State.unmade_setPc_of_eq {σ : State M A C} {t : Fin T} {pc : Pc M A}
    (h : pc.todo = (σ.pc t).todo) : (σ.setPc t pc).unmade = σ.unmade := by
  have hupdate := σ.unmade_setPc t pc
  rw [h] at hupdate
  exact add_right_cancel hupdate

theorem Idle.pending {σ : State M A C} (h : Idle σ) : σ.pool.pending = 0 := by
  have hunmade : σ.unmade = 0 := Finset.sum_eq_zero fun t _ => by
    rw [h.2 t, Multiset.coe_nil]
  rw [State.pool, queued_of_empty h.1, hunmade, add_zero]

theorem Initial.pool {σ : State M A C} (h : Initial σ) : σ.pool = ⟨0, 0⟩ := by
  have hidle : Idle σ := ⟨h.queue, fun t => by rw [h.pc t]; rfl⟩
  exact congrArg₂ Pool.mk (queued_of_empty h.popped) hidle.pending

end

section

variable {G : StageGraph n Message} {mayThrow : Bool} {entry : Fin n → Bool} {T C : Nat}
  {M : SchedulingPolicy n T} {σ σ' : State M (G.application mayThrow entry) C}
  {a : Action M (G.application mayThrow entry) C}

/-- A pop handles a delivery of the pool. -/
theorem pop_pool {t : Fin T} {s : Fin n} {m : Message} {rest : List Message}
    (hpc : σ.pc t = .poll s) (hq : σ.queue s = m :: rest) :
    Pool.Step G.spawning σ.pool
      ((σ.pop s m rest).setPc t (.running s m (G.functor s m))).pool := by
  have hunmade := (σ.pop s m rest).unmade_setPc t (.running s m (G.functor s m))
  rw [State.pop_pc, hpc] at hunmade
  have hunmade : ((σ.pop s m rest).setPc t (.running s m (G.functor s m))).unmade =
      σ.unmade + (G.functor s m : Multiset (Fin n × Message)) :=
    (add_zero _).symm.trans hunmade
  have hpopped : ((σ.pop s m rest).setPc t (.running s m (G.functor s m))).processed =
      σ.processed + {(s, m)} := by
    rw [State.processed, State.setPc_popped, State.pop_popped, queued_push,
      ← Multiset.singleton_add, add_comm]
    rfl
  have hpool : σ.pool =
      ⟨σ.processed, (s, m) ::ₘ (queued (Function.update σ.queue s rest) + σ.unmade)⟩ := by
    rw [State.pool, queued_pop hq, Multiset.cons_add]
  have hpool' : ((σ.pop s m rest).setPc t (.running s m (G.functor s m))).pool =
      ⟨σ.processed + {(s, m)}, queued (Function.update σ.queue s rest) + σ.unmade +
        (G.functor s m : Multiset (Fin n × Message))⟩ := by
    rw [State.pool, hpopped, hunmade, add_assoc]
    rfl
  rw [hpool, hpool']
  exact .take _ _ (s, m)

/-- A functor's dispatch moves from what the functor has to make to the queue. -/
theorem push_pool {t : Fin T} {s target : Fin n} {m m' : Message} {todo : List (Fin n × Message)}
    (hpc : σ.pc t = .running s m ((target, m') :: todo)) :
    (((σ.push target m').forward s m').setPc t (.pushed s m target todo)).pool = σ.pool := by
  have hunmade := ((σ.push target m').forward s m').unmade_setPc t (.pushed s m target todo)
  rw [State.forward_pc, State.push_pc, hpc, Pc.todo, Pc.todo, ← Multiset.cons_coe,
    ← Multiset.singleton_add, ← add_assoc] at hunmade
  have hunmade := add_right_cancel hunmade
  have hqueued : queued (((σ.push target m').forward s m').setPc t (.pushed s m target todo)).queue
      = (target, m') ::ₘ queued σ.queue := queued_push σ.queue target m'
  refine congrArg (Pool.mk σ.processed) ?_
  rw [hqueued, Multiset.cons_add, ← Multiset.add_cons, ← Multiset.singleton_add, add_comm {_}]
  exact congrArg (queued σ.queue + ·) hunmade

theorem all_add_list (done pending : Multiset (Fin n × Message)) (ds : List (Fin n × Message)) :
    Pool.all G.spawning ⟨done, pending + ds⟩ =
      Pool.all G.spawning ⟨done, pending⟩ + G.deliveries ds := by
  rw [Pool.all_add, Multiset.map_coe, Multiset.sum_coe]
  rfl

/-- What each step adds to the pool and takes from it. -/
theorem step_all (h : Step σ a σ') :
    σ'.pool.all G.spawning + G.deliveries (dropped σ a) =
      σ.pool.all G.spawning + G.deliveries a.clientPush.toList := by
  -- most steps only move a thread
  have move : ∀ {t pc}, pc.todo = (σ.pc t).todo → σ'.queue = σ.queue → σ'.popped = σ.popped →
      σ'.pc = Function.update σ.pc t pc → σ'.pool = σ.pool := by
    intro t pc htodo hqueue hpopped hpc
    have hunmade : σ'.unmade = σ.unmade := by
      rw [← State.unmade_setPc_of_eq htodo, State.unmade, hpc]
      rfl
    rw [State.pool, State.processed, hqueue, hpopped, hunmade]
    rfl
  have same : σ'.pool = σ.pool → dropped σ a = [] → a.clientPush = none →
      σ'.pool.all G.spawning + G.deliveries (dropped σ a) =
        σ.pool.all G.spawning + G.deliveries a.clientPush.toList := by
    intro hpool hdropped hpush
    rw [hpool, hdropped, hpush]
    rfl
  cases h with
  | leave t e v hpc hd => exact same (move (by rw [hpc]; rfl) rfl rfl rfl) rfl rfl
  | enter t e v hpc hd => exact same (move (by rw [hpc]; rfl) rfl rfl rfl) rfl rfl
  | call t e v p policy p' hpc hp => exact same (move (by rw [hpc]; rfl) rfl rfl rfl) rfl rfl
  | visit t e v p policy s hpc hp => exact same (move (by rw [hpc]; rfl) rfl rfl rfl) rfl rfl
  | pop t e v s m rest hpc hq =>
    rw [(pop_pool hpc hq).all_eq]
    rfl
  | empty t e v s hpc hq => exact same (move (by rw [hpc]; rfl) rfl rfl rfl) rfl rfl
  | push t e v s m target m' todo hpc => exact same (push_pool hpc) rfl rfl
  | account t e v s m target todo hpc => exact same (move (by rw [hpc]; rfl) rfl rfl rfl) rfl rfl
  | returns t e v s m hpc => exact same (move (by rw [hpc]; rfl) rfl rfl rfl) rfl rfl
  | batchEnd t e v s info hpc => exact same (move (by rw [hpc]; rfl) rfl rfl rfl) rfl rfl
  | throw t s m todo hA hpc =>
    have hunmade : (σ.setPc t .exited).unmade + ((σ.pc t).todo : Multiset (Fin n × Message)) =
        σ.unmade := (σ.unmade_setPc t .exited).trans (add_zero _)
    have hpool : σ.pool = ⟨σ.processed, queued σ.queue + (σ.setPc t .exited).unmade +
        ((σ.pc t).todo : Multiset (Fin n × Message))⟩ := by
      rw [State.pool, add_assoc, hunmade]
    rw [hpool, all_add_list]
    exact (add_zero _).symm
  | clientPush c target m hc he =>
    have hpool : ((σ.push target m).setClient c (some target)).pool =
        ⟨σ.processed, queued σ.queue + σ.unmade + ([(target, m)] : List (Fin n × Message))⟩ := by
      refine congrArg (Pool.mk σ.processed) ?_
      rw [State.setClient_queue, State.push_queue, queued_push, ← Multiset.singleton_add,
        add_comm {_}, add_right_comm]
      rfl
    rw [hpool, all_add_list]
    exact add_zero _
  | clientDone c target hc => exact same rfl rfl rfl
  | stop => exact same rfl rfl rfl

/-- What the thrown exceptions of a run have cut off: the dispatches that were not made, and all
    that would have followed from them. -/
noncomputable def lost (σ : State M (G.application mayThrow entry) C)
    (as : List (Action M (G.application mayThrow entry) C)) : Multiset (Fin n × Message) :=
  (system M (G.application mayThrow entry) C).sum (fun σ a => G.deliveries (dropped σ a)) σ as

theorem lost_of_not_mayThrow (h : mayThrow = false) (σ : State M (G.application mayThrow entry) C)
    (as : List (Action M (G.application mayThrow entry) C)) : lost σ as = 0 := by
  refine Lts.sum_eq_zero (fun σ a σ' hs => ?_) σ as
  cases step_inv hs with
  | throw t s m todo hA hpc => exact absurd (h.symm.trans hA) Bool.false_ne_true
  | _ => rfl

theorem sum_clientPush {as : List (Action M (G.application mayThrow entry) C)}
    (hrun : (system M (G.application mayThrow entry) C).run σ as = some σ') :
    (system M (G.application mayThrow entry) C).sum
      (fun _ a => G.deliveries a.clientPush.toList) σ as = G.deliveries (clientDispatches as) := by
  rw [Lts.sum_of_run (fun a => G.deliveries a.clientPush.toList) hrun]
  exact G.sum_deliveries Action.clientPush as

/-- From the start on, the books balance. -/
theorem all_add_lost {σ₀ : State M (G.application mayThrow entry) C} (hσ₀ : Initial σ₀)
    {as : List (Action M (G.application mayThrow entry) C)}
    (hrun : (system M (G.application mayThrow entry) C).run σ₀ as = some σ) :
    σ.pool.all G.spawning + lost σ₀ as = G.deliveries (clientDispatches as) := by
  have hstart : σ₀.pool.all G.spawning = 0 := by
    rw [hσ₀.pool, Pool.all_of_finished _ rfl]
  have hbalance := Lts.run_sum_eq (fun σ => σ.pool.all G.spawning)
    (fun _ _ _ hs => step_all (step_inv hs)) hrun
  rw [hstart, zero_add, sum_clientPush hrun] at hbalance
  exact hbalance

end

/-- Under any policy, with any number of threads and in any interleaving: what has been popped, what
    follows from the dispatches that are outstanding and what exceptions have cut off are together
    the deliveries that follow from the clients' dispatches. -/
theorem processed_independent_of_schedule (G : StageGraph n Message) (mayThrow : Bool)
    (entry : Fin n → Bool) {T C : Nat} (M : SchedulingPolicy n T)
    {σ₀ σ : State M (G.application mayThrow entry) C} (hσ₀ : Initial σ₀)
    {as : List (Action M (G.application mayThrow entry) C)}
    (hrun : (system M (G.application mayThrow entry) C).run σ₀ as = some σ) :
    σ.pool.all G.spawning + lost σ₀ as = G.deliveries (clientDispatches as) ∧
      (mayThrow = false → Idle σ → σ.processed = G.deliveries (clientDispatches as)) := by
  have hsum := all_add_lost hσ₀ hrun
  refine ⟨hsum, fun hthrow hidle => ?_⟩
  rw [← hsum, lost_of_not_mayThrow hthrow, add_zero, Pool.all_of_finished _ hidle.pending]
  rfl

/-- A message goes through two stages, each with its thread. -/
theorem processed_independent_of_schedule_forwarding :
    ∃ σ : State (ThreadPerStage 2) (forwarding.application false fun _ => true) 1,
      Idle σ ∧ σ.processed = forwarding.deliveries [(0, 7)] := by
  let as : List (Action (ThreadPerStage 2) (forwarding.application false fun _ => true) 1) :=
    .push 0 0 (7 : Nat) :: List.replicate 5 (.thread 0 () ()) ++ List.replicate 3 (.thread 1 () ())
  obtain ⟨σ, hrun, hidle⟩ : ∃ σ, (system (ThreadPerStage 2)
      (forwarding.application false fun _ => true) 1).run (State.fresh ()) as = some σ ∧ Idle σ :=
    ⟨_, rfl, Fin.forall_fin_two.mpr ⟨rfl, rfl⟩, Fin.forall_fin_two.mpr ⟨rfl, rfl⟩⟩
  exact ⟨σ, hidle, (processed_independent_of_schedule forwarding false (fun _ => true)
    (ThreadPerStage 2) (State.fresh_initial trivial) hrun).2 rfl hidle⟩

end SchedulerBase

end Wield
