import Wield.SchedulerBase.Steps
import Wield.Schedulers.Slots

/-!
# Stage capacity

For every policy with a `ThreadAssignments` table the slots and the counters agree in every
reachable state of the scheduler, and a thread inside a batch holds the slot of its stage.
-/

namespace Wield.SchedulerBase

open Theory StageChooser

variable {n T C : Nat} {P : StageChooser n T} {concurrency : Fin n → SizeT} {A : Application n}

/-- The table entry and the slot of a thread, by its place in `tryProcess`. -/
def Pc.Consistent (recorded holding : StageEnum n) : Pc (P.policy concurrency) A → Prop
  | .nextStage p => Call.Consistent concurrency recorded holding p
  | .poll s | .running s _ _ | .pushed s _ _ _ | .batchEnd s _ =>
    recorded = some s ∧ holding = some s
  | .loop | .exited => recorded = holding

structure SlotInv (σ : State (P.policy concurrency) A C) : Prop where
  slots : Slots concurrency σ.policy
  consistent : ∀ t, Pc.Consistent (σ.policy.ta.threadAssignment t) (σ.policy.holding t) (σ.pc t)

theorem SlotInv.consistent_at {σ : State (P.policy concurrency) A C} (h : SlotInv σ) {t : Fin T}
    {pc : Pc (P.policy concurrency) A} (hpc : σ.pc t = pc) :
    Pc.Consistent (σ.policy.ta.threadAssignment t) (σ.policy.holding t) pc :=
  hpc ▸ h.consistent t

/-- A thread that stays in `tryProcess` without an access to the assignments. -/
theorem SlotInv.move {σ σ' : State (P.policy concurrency) A C} (h : SlotInv σ) (t : Fin T)
    (pc : Pc (P.policy concurrency) A) (hpc : σ'.pc = Function.update σ.pc t pc)
    (hta : σ'.policy.ta = σ.policy.ta) (hholding : σ'.policy.holding = σ.policy.holding)
    (hc : Pc.Consistent (σ.policy.ta.threadAssignment t) (σ.policy.holding t) pc) :
    SlotInv σ' := by
  refine ⟨h.slots.of_eq (by rw [hta]) (by rw [hta]) hholding, ?_⟩
  rw [hta, hholding, hpc]
  rw [Function.forall_update_iff σ.pc fun u =>
    Pc.Consistent (σ.policy.ta.threadAssignment u) (σ.policy.holding u)]
  exact ⟨hc, fun u _ => h.consistent u⟩

theorem SlotInv.of_policy {σ σ' : State (P.policy concurrency) A C} (h : SlotInv σ)
    (hpc : σ'.pc = σ.pc) (hta : σ'.policy.ta = σ.policy.ta)
    (hholding : σ'.policy.holding = σ.policy.holding) : SlotInv σ' :=
  ⟨h.slots.of_eq (by rw [hta]) (by rw [hta]) hholding,
    fun u => by rw [hpc, hta, hholding]; exact h.consistent u⟩

/-- A thread inside `nextStage`. -/
theorem SlotInv.call {σ : State (P.policy concurrency) A C} (h : SlotInv σ) {t : Fin T}
    {e : P.Entropy} {p : P.Pc} (hp : σ.pc t = .nextStage p) {policy : P.Shared}
    {r : P.Pc ⊕ Fin n} (hr : Call.step σ.policy t e p = (policy, r))
    {pc : Pc (P.policy concurrency) A}
    (hc : Call.Outcome concurrency (policy.ta.threadAssignment t) (policy.holding t) r →
      Pc.Consistent (policy.ta.threadAssignment t) (policy.holding t) pc) :
    SlotInv ((σ.setPolicy policy).setPc t pc) := by
  have ht : Call.Consistent concurrency _ _ p := h.consistent_at hp
  -- the access itself is the one of `nextStage`; `hframe` keeps the other threads
  obtain ⟨hslots, hframe, hout⟩ := Call.step_slots h.slots (e := e) ht
  rw [hr] at hslots hframe hout
  refine ⟨hslots, ?_⟩
  simp only [State.setPc_pc, State.setPc_policy, State.setPolicy_pc, State.setPolicy_policy]
  rw [Function.forall_update_iff σ.pc fun u =>
    Pc.Consistent (policy.ta.threadAssignment u) (policy.holding u)]
  refine ⟨hc hout, fun u hu => ?_⟩
  rw [hframe.recorded u hu, hframe.holding u hu]
  exact h.consistent u

/-- A step inside `nextStage` keeps the slots of the other threads. -/
theorem SlotInv.holding_call {σ : State (P.policy concurrency) A C} (h : SlotInv σ) {t u : Fin T}
    {e : P.Entropy} {p : P.Pc} (hp : σ.pc t = .nextStage p) {policy : P.Shared}
    {r : P.Pc ⊕ Fin n} (hr : Call.step σ.policy t e p = (policy, r)) (hu : u ≠ t) :
    policy.holding u = σ.policy.holding u := by
  have ht : Call.Consistent concurrency _ _ p := h.consistent_at hp
  have hframe := (Call.step_slots h.slots (e := e) ht).2.1.holding u hu
  rwa [hr] at hframe

theorem slotInv_invariant : (system (P.policy concurrency) A C).Invariant SlotInv where
  init σ h := by
    obtain ⟨hta, hholding, _⟩ := h.policy
    refine ⟨.initial hta hholding, fun t => ?_⟩
    rw [h.pc t, hta, hholding t]
    exact rfl
  step σ a σ' h hs := by
    cases step_inv hs with
    | leave t e v hpc hd =>
      have ht := h.consistent_at hpc
      exact h.move t .exited rfl rfl rfl ht
    | enter t e v hpc hd =>
      have ht := h.consistent_at hpc
      exact h.move t (.nextStage .enter) rfl rfl rfl ht
    | call t e v p policy p' hpc hp => exact h.call hpc hp fun hout => hout
    | visit t e v p policy s hpc hp => exact h.call hpc hp fun hout => hout
    | pop t e v s m rest hpc hq =>
      have ht := h.consistent_at hpc
      exact h.move t (.running s m (A.functor s m v)) rfl rfl rfl ht
    | empty t e v s hpc hq =>
      have ht := h.consistent_at hpc
      exact h.move t (.batchEnd s ⟨false⟩) rfl rfl rfl ht
    | push t e v s m target m' todo hpc =>
      have ht := h.consistent_at hpc
      exact h.move t (.pushed s m target todo) rfl rfl rfl ht
    | account t e v s m target todo hpc =>
      have ht := h.consistent_at hpc
      exact h.move t (.running s m todo) rfl rfl rfl ht
    | returns t e v s m hpc =>
      have ht := h.consistent_at hpc
      exact h.move t (.poll s) rfl rfl rfl ht
    -- the slot is kept until the next call of `nextStage`
    | batchEnd t e v s info hpc =>
      have ht := h.consistent_at hpc
      exact h.move t .loop rfl rfl rfl (ht.1.trans ht.2.symm)
    -- so is the one of a thread that is gone
    | throw t s m todo hA hpc =>
      have ht := h.consistent_at hpc
      exact h.move t .exited rfl rfl rfl (ht.1.trans ht.2.symm)
    | clientPush c target m hc he => exact h.of_policy rfl rfl rfl
    | clientDone c target hc => exact h.of_policy rfl rfl rfl
    | stop => exact h.of_policy rfl rfl rfl

end Wield.SchedulerBase
