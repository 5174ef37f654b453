import Wield.SchedulerBase.Deliveries
import Wield.SchedulerBase.Stopping
import Wield.Schedulers.LockFree

/-!
# Stopping any number of threads

After `stop()` no thread begins another call of `process`.  The calls of `nextStage` in progress
return under `RoundRobin`, `SRPT` and `ThreadPerStage`, also while other threads leave with their
slots, and the batches end because the stage graph is acyclic.  One number bounds all the steps that
are left, of all threads in any interleaving, so `join()` returns.
-/

namespace Wield

open Theory Theory.Spawning StageChooser

variable {n T C : Nat} {Message : Type}

namespace SchedulerBase

/-- Where a thread is inside `nextStage`. -/
def Pc.call {M : SchedulingPolicy n T} {A : Application n} : Pc M A → Option M.Pc
  | .nextStage p => some p
  | .loop | .poll _ | .running _ _ _ | .pushed _ _ _ _ | .batchEnd _ _ | .exited => none

/-- A bound on the accesses of the `nextStage` calls in progress, in the states with `I`. -/
structure Searches (M : SchedulingPolicy n T) {A : Application n} (I : State M A C → Prop) where
  cost : M.State → (Fin T → Option M.Pc) → Nat
  step : ∀ σ t e p policy r, I σ → σ.pc t = .nextStage p → M.step σ.policy t e p = (policy, r) →
    cost policy (Function.update (fun u => (σ.pc u).call) t r.getLeft?) <
      cost σ.policy fun u => (σ.pc u).call
  batchEnd : ∀ policy hadMessage call, cost (M.batchEnd policy hadMessage) call = cost policy call
  dispatched : ∀ policy stage call, cost (M.dispatched policy stage) call = cost policy call

/-! ## What is left after `stop()` -/

section

variable {G : StageGraph n Message} {mayThrow : Bool} {entry : Fin n → Bool}
  {M : SchedulingPolicy n T}

/-- A bound on the steps for a dispatch and all that follows from it. -/
noncomputable def dispatchCost (G : StageGraph n Message) (d : Fin n × Message) : Nat :=
  G.spawning.total (fun _ => 4) d

/-- The same bound after the push and what the dispatcher does then. -/
noncomputable def waitCost (G : StageGraph n Message) (d : Fin n × Message) : Nat :=
  2 + ((G.functor d.1 d.2).map (dispatchCost G)).sum

theorem dispatchCost_eq (d : Fin n × Message) : dispatchCost G d = waitCost G d + 2 := by
  have h := G.spawning.total_eq (fun _ => 4) d
  change dispatchCost G d = 4 + ((G.functor d.1 d.2).map (dispatchCost G)).sum at h
  rw [h, waitCost]
  omega

noncomputable def queueCost (G : StageGraph n Message) (queue : Fin n → List Message) : Nat :=
  ((queued queue).map (waitCost G)).sum

theorem queueCost_push (queue : Fin n → List Message) (s : Fin n) (m : Message) :
    queueCost G (Function.update queue s (queue s ++ [m])) =
      waitCost G (s, m) + queueCost G queue := by
  rw [queueCost, queueCost, queued_push, Multiset.map_cons, Multiset.sum_cons]

theorem queueCost_pop {queue : Fin n → List Message} {s : Fin n} {m : Message}
    {rest : List Message} (hq : queue s = m :: rest) :
    queueCost G queue = waitCost G (s, m) + queueCost G (Function.update queue s rest) := by
  rw [queueCost, queueCost, queued_pop hq, Multiset.map_cons, Multiset.sum_cons]

/-- A bound on the steps of a thread outside of `nextStage`, until it leaves. -/
noncomputable def Pc.leaveCost : Pc M (G.application mayThrow entry) → Nat
  | .exited => 0
  | .loop => 1
  | .batchEnd _ _ => 2
  | .poll _ => 3
  | .nextStage _ => 4
  | .running _ _ todo => 4 + (todo.map (dispatchCost G)).sum
  | .pushed _ _ _ todo => 5 + (todo.map (dispatchCost G)).sum

variable {I : State M (G.application mayThrow entry) C → Prop} (S : Searches M I)

noncomputable def stopCost (σ : State M (G.application mayThrow entry) C) : Nat :=
  (S.cost σ.policy fun u => (σ.pc u).call) + queueCost G σ.queue +
    ∑ t, (σ.pc t).leaveCost + ∑ c, (σ.client c).elim 0 fun _ => 1

/-- What is left to the threads once the clients dispatch nothing more. -/
def NotDispatching : Action M (G.application mayThrow entry) C → Bool
  | .thread _ _ _ | .throw _ | .dispatched _ => true
  | .push _ _ _ | .stop => false

variable {σ σ' : State M (G.application mayThrow entry) C}
  {a : Action M (G.application mayThrow entry) C}

theorem call_update (σ : State M (G.application mayThrow entry) C) (t : Fin T)
    (pc : Pc M (G.application mayThrow entry)) :
    (fun u => (Function.update σ.pc t pc u).call) =
      Function.update (fun u => (σ.pc u).call) t pc.call := by
  funext u
  exact Function.apply_update (fun _ pc => Pc.call pc) σ.pc t pc u

/-- A step of thread `t`. -/
theorem stopCost_lt {t : Fin T} {pc : Pc M (G.application mayThrow entry)}
    (hpc : σ'.pc = Function.update σ.pc t pc) (hclient : σ'.client = σ.client)
    (hlt : S.cost σ'.policy (Function.update (fun u => (σ.pc u).call) t pc.call) +
        queueCost G σ'.queue + pc.leaveCost <
      (S.cost σ.policy fun u => (σ.pc u).call) + queueCost G σ.queue +
        (σ.pc t).leaveCost) : stopCost S σ' < stopCost S σ := by
  have hleave := sum_update_add (fun _ pc => Pc.leaveCost pc) σ.pc t pc
  rw [stopCost, stopCost, hpc, hclient, call_update]
  omega

/-- A step of thread `t` outside of `nextStage`. -/
theorem stopCost_lt_of_outside {t : Fin T} {pc : Pc M (G.application mayThrow entry)}
    (hpc : σ'.pc = Function.update σ.pc t pc) (hclient : σ'.client = σ.client)
    (hcost : ∀ call, S.cost σ'.policy call = S.cost σ.policy call)
    (hbefore : (σ.pc t).call = none) (hafter : pc.call = none)
    (hlt : queueCost G σ'.queue + pc.leaveCost <
      queueCost G σ.queue + (σ.pc t).leaveCost) :
    stopCost S σ' < stopCost S σ := by
  apply stopCost_lt S hpc hclient
  have hsame : Function.update (fun u => (σ.pc u).call) t pc.call = fun u => (σ.pc u).call :=
    Function.update_eq_self_iff.mpr (hafter.trans hbefore.symm)
  rw [hcost, hsame]
  omega

/-- Every step after `stop()` lowers the bound. -/
theorem step_stopCost (h : I σ) (hdone : σ.done = true) (ha : NotDispatching a = true)
    (hs : Step σ a σ') : stopCost S σ' < stopCost S σ := by
  cases hs with
  | leave t e v hpc hd =>
    refine stopCost_lt_of_outside S rfl rfl (fun _ => rfl) (by rw [hpc]; rfl) rfl ?_
    rw [hpc]
    exact Nat.lt_succ_self _
  -- `done()` has been set, so `process` is not called again
  | enter t e v hpc hd => rw [hdone] at hd; cases hd
  | call t e v p policy p' hpc hp =>
    refine stopCost_lt S rfl rfl ?_
    have hlt := S.step σ t e p policy _ h hpc hp
    rw [hpc]
    exact Nat.add_lt_add_right (Nat.add_lt_add_right hlt _) _
  | visit t e v p policy s hpc hp =>
    refine stopCost_lt S rfl rfl ?_
    have hlt := S.step σ t e p policy _ h hpc hp
    rw [hpc]
    exact Nat.add_lt_add (Nat.add_lt_add_right hlt _) (Nat.lt_succ_self 3)
  | pop t e v s m rest hpc hq =>
    refine stopCost_lt_of_outside S rfl rfl (fun _ => rfl) (by rw [hpc]; rfl) rfl ?_
    rw [hpc, queueCost_pop hq, waitCost]
    simp only [Pc.leaveCost, State.setPc_queue, State.pop_queue]
    omega
  | empty t e v s hpc hq =>
    refine stopCost_lt_of_outside S rfl rfl (fun _ => rfl) (by rw [hpc]; rfl) rfl ?_
    rw [hpc]
    exact Nat.lt_succ_self _
  | push t e v s m target m' todo hpc =>
    refine stopCost_lt_of_outside S rfl rfl (fun _ => rfl) (by rw [hpc]; rfl) rfl ?_
    have hcost := dispatchCost_eq (G := G) (target, m')
    rw [hpc, State.setPc_queue, State.forward_queue, State.push_queue, queueCost_push]
    simp only [Pc.leaveCost, List.map_cons, List.sum_cons]
    omega
  | account t e v s m target todo hpc =>
    refine stopCost_lt_of_outside S rfl rfl (fun _ => S.dispatched _ _ _) (by rw [hpc]; rfl) rfl ?_
    rw [hpc]
    simp only [Pc.leaveCost, State.setPc_queue, State.setPolicy_queue]
    omega
  | returns t e v s m hpc =>
    refine stopCost_lt_of_outside S rfl rfl (fun _ => rfl) (by rw [hpc]; rfl) rfl ?_
    rw [hpc]
    exact Nat.lt_succ_self _
  | batchEnd t e v s info hpc =>
    refine stopCost_lt_of_outside S rfl rfl (fun _ => S.batchEnd _ _ _) (by rw [hpc]; rfl) rfl ?_
    rw [hpc]
    exact Nat.lt_succ_self _
  | throw t s m todo hA hpc =>
    refine stopCost_lt_of_outside S rfl rfl (fun _ => rfl) (by rw [hpc]; rfl) rfl ?_
    rw [hpc]
    simp only [Pc.leaveCost, State.setPc_queue]
    omega
  | clientPush c target m hc he => cases ha
  | clientDone c target hc =>
    have hclient := sum_update_add (fun _ (target : Option (Fin n)) => target.elim 0 fun _ => 1)
      σ.client c none
    rw [hc] at hclient
    simp only [Option.elim_none, Option.elim_some] at hclient
    simp only [stopCost, State.setClient_policy, State.setPolicy_policy, State.setClient_pc,
      State.setPolicy_pc, State.setClient_queue, State.setPolicy_queue, State.setClient_client,
      State.setPolicy_client, S.dispatched]
    omega
  | stop => cases ha

/-- The scheduler once nothing is dispatched from outside any more. -/
abbrev undisturbed (M : SchedulingPolicy n T) (G : StageGraph n Message) (mayThrow : Bool)
    (entry : Fin n → Bool) (C : Nat) :
    Lts (State M (G.application mayThrow entry) C) (Action M (G.application mayThrow entry) C) :=
  (system M (G.application mayThrow entry) C).restrict NotDispatching

/-- All runs are shorter than some number, and a thread that can go no further has left
    `tryProcess`. -/
def JoinReturns (σ : State M (G.application mayThrow entry) C) : Prop :=
  ∃ bound, ∀ as σ', (undisturbed M G mayThrow entry C).run σ as = some σ' →
    as.length ≤ bound ∧ ∀ t e v, threadStep σ' t e v = none → σ'.pc t = .exited

theorem Searches.joinReturns (S : Searches M I)
    (hI : (system M (G.application mayThrow entry) C).Invariant I)
    (hσ : (system M (G.application mayThrow entry) C).Reachable σ) (hdone : σ.done = true) :
    JoinReturns σ := by
  refine ⟨stopCost S σ, fun as σ' hrun => ⟨?_, fun _ _ _ => threadStep_eq_none⟩⟩
  have hkeep : ∀ σ a σ', I σ ∧ σ.done = true →
      (undisturbed M G mayThrow entry C).step σ a = some σ' → I σ' ∧ σ'.done = true := by
    rintro σ a σ' ⟨h, hdone⟩ hs
    obtain ⟨_, hs⟩ := Lts.restrict_step_eq_some.mp hs
    refine ⟨hI.step σ a σ' h hs, ?_⟩
    cases step_inv hs <;> first | exact hdone | rfl
  have hsum := Lts.run_sum_le (stopCost S) (f := fun _ _ => 1) (g := fun _ _ => 0) hkeep
    (fun σ a σ' h hs => step_stopCost S h.1 h.2 (Lts.restrict_step_eq_some.mp hs).1
      (step_inv (Lts.restrict_step_eq_some.mp hs).2)) ⟨hI.holds hσ, hdone⟩ hrun
  rw [Lts.sum_one hrun, Lts.sum_eq_zero fun _ _ _ _ => rfl] at hsum
  omega

end

/-! ## The policies -/

section

variable {Own : Type} {next : StageEnum n → StageEnum n} {start : Own → StageEnum n → StageEnum n}
  {batchEnd : Own → Bool → Own} {init : (Fin n → SizeT) → Own → Prop}
  {rank : StageEnum n → Fin n → Nat} {concurrency : Fin n → SizeT} {A : Application n}

/-- A walk over the stages, with no more threads than places. -/
noncomputable def walkSearches (hrank : Ranks next rank)
    (hplaces : T ≤ ∑ s, (concurrency s).toNat) :
    Searches ((walk (T := T) Own next start batchEnd init).policy concurrency) (A := A) (C := C)
      SlotInv where
  cost policy call := callsCost rank policy.ta call
  step σ t e p policy r h hpc hr :=
    (Call.step_advances hrank hplaces h.slots (e := e) (h.consistent_at hpc) hr).callsCost_lt hrank
      _ (by rw [hpc]; rfl)
  batchEnd _ _ _ := rfl
  dispatched _ _ _ := rfl

/-- `ThreadPerStage` does not search. -/
def threadPerStageSearches : Searches (ThreadPerStage n) (A := A) (C := C) fun _ => True where
  cost _ call := ∑ t, (call t).elim 0 fun _ => 1
  step σ t e p policy r _ hpc hr := by
    cases hr
    have hsum := sum_update_add (fun _ (q : Option Unit) => q.elim 0 fun _ => 1)
      (fun u => (σ.pc u).call) t none
    simp only [show (σ.pc t).call = some p by rw [hpc]; rfl, Option.elim_some,
      Option.elim_none] at hsum
    simp only [Sum.getLeft?_inr]
    omega
  batchEnd _ _ _ := rfl
  dispatched _ _ _ := rfl

end

/-- `stop()` is enough for `join()` to return, for any number of threads: whatever the threads are
    doing when it is called, all their steps together are bounded, and each thread leaves
    `tryProcess`. -/
theorem stop_joins (hn : n < 2 ^ 64) (G : StageGraph n Message) (mayThrow : Bool)
    (entry : Fin n → Bool) (concurrency : Fin n → SizeT)
    (hplaces : T ≤ ∑ s, (concurrency s).toNat) :
    (∀ σ : State (ThreadPerStage n) (G.application mayThrow entry) C,
      (system _ _ C).Reachable σ → σ.done = true → JoinReturns σ) ∧
    (∀ σ : State ((RoundRobin.chooser n T).policy concurrency) (G.application mayThrow entry) C,
      (system _ _ C).Reachable σ → σ.done = true → JoinReturns σ) ∧
    ∀ σ : State ((SRPT.chooser n T).policy concurrency) (G.application mayThrow entry) C,
      (system _ _ C).Reachable σ → σ.done = true → JoinReturns σ :=
  ⟨fun _ => threadPerStageSearches.joinReturns ⟨fun _ _ => trivial, fun _ _ _ _ _ => trivial⟩,
    fun _ => (walkSearches (RoundRobin.incrementStage_countsUp hn).ranks hplaces).joinReturns
      slotInv_invariant,
    fun _ => (walkSearches (SRPT.decrementStage_countsDown hn).ranks hplaces).joinReturns
      slotInv_invariant⟩

/-- `stop()` is called while one thread of `RoundRobin` is inside `nextStage` and the other is in a
    functor. -/
theorem stop_joins_two :
    ∃ σ : State ((RoundRobin.chooser 2 2).policy fun _ => 1)
        (forwarding.application false fun _ => true) 1,
      (system _ _ 1).Reachable σ ∧ σ.done = true ∧ JoinReturns σ := by
  obtain ⟨σ, hσ, hdone⟩ := Lts.exists_reachable_of_run
    (system ((RoundRobin.chooser 2 2).policy fun _ => 1)
      (forwarding.application false fun _ => true) 1)
    (State.fresh (.fresh (fun _ => 1) ()))
    (.push 0 0 (7 : Nat) :: List.replicate 9 (.thread 0 () ()) ++ [.thread 1 () (), .stop])
    (fun σ => σ.done = true) (State.fresh_initial ⟨rfl, fun _ => rfl, trivial⟩) (by decide)
  exact ⟨σ, hσ, hdone, (stop_joins (by decide) forwarding false (fun _ => true) (fun _ => 1)
    (by decide)).2.1 σ hσ hdone⟩

end SchedulerBase

end Wield
