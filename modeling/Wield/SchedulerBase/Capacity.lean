import Wield.SchedulerBase.Slots

/-!
# Stage capacity and the slots of threads that have left

The limits of the concurrency map hold in every reachable state.  A slot is only given up at the
start of the same thread's next `nextStage`, so a thread that leaves `tryProcess` keeps it:
`slotsGivenBack_iff` says that this is the only way for the counters and the running visitors to
come apart.
-/

namespace Wield.SchedulerBase

open Theory StageChooser

variable {n T C : Nat}

/-- A thread to which `nextStage` has returned `stage` and whose batch there is not over. -/
def Pc.Visits {M : SchedulingPolicy n T} {A : Application n} (stage : Fin n) : Pc M A → Prop
  | .poll s | .running s _ _ | .pushed s _ _ _ | .batchEnd s _ => s = stage
  | .loop | .nextStage _ | .exited => False

def Pc.isExited {M : SchedulingPolicy n T} {A : Application n} : Pc M A → Bool
  | .exited => true
  | _ => false

section

variable {P : StageChooser n T} {concurrency : Fin n → SizeT} {A : Application n}
  {σ : State (P.policy concurrency) A C}

theorem SlotInv.of_visits (h : SlotInv σ) {t : Fin T} {s : Fin n} (hv : (σ.pc t).Visits s) :
    σ.policy.ta.threadAssignment t = some s ∧ σ.policy.holding t = some s := by
  have ht := h.consistent t
  cases hpc : σ.pc t <;> rw [hpc] at hv ht <;> first | exact hv.elim | exact hv ▸ ht

/-- Two visitors of a stage with maximum 1 are the same thread. -/
theorem SlotInv.visitor_unique (h : SlotInv σ) {s : Fin n} (hs : concurrency s = 1) {t u : Fin T}
    (ht : (σ.pc t).Visits s) (hu : (σ.pc u).Visits s) : t = u := by
  have hbound := h.slots.bound s
  rw [hs] at hbound
  exact holder_unique hbound (h.of_visits ht).2 (h.of_visits hu).2

theorem SlotInv.not_visits (h : SlotInv σ) {s : Fin n} (hs : concurrency s = 0) (t : Fin T) :
    ¬ (σ.pc t).Visits s := by
  intro hv
  have hbound := h.slots.bound s
  have hpos := tally_pos (h.of_visits hv).2
  rw [hs] at hbound
  exact absurd hpos (Nat.not_lt.mpr hbound)

end

/-! ## Threads that have left -/

section

variable {P : StageChooser n T} {concurrency : Fin n → SizeT} {A : Application n}

/-- The slots of the threads that are still in `tryProcess`. -/
def runningHolding (σ : State (P.policy concurrency) A C) (t : Fin T) : Option (Fin n) :=
  if (σ.pc t).isExited then none else σ.policy.holding t

/-- The counters count running visitors only, so that a stage without one can be entered. -/
def SlotsGivenBack (σ : State (P.policy concurrency) A C) : Prop :=
  ∀ s, (σ.policy.ta.threadsPerStage s).toNat = tally (runningHolding σ) s ∧
    (concurrency s ≠ 0 → tally (runningHolding σ) s = 0 → σ.policy.ta.HasRoom s)

/-- The action takes a thread out of `tryProcess` while it has a slot: its functor throws, or it
    finds `done()` set. -/
def LeavesWithSlot (σ : State (P.policy concurrency) A C) :
    Action (P.policy concurrency) A C → Prop
  | .thread t _ _ => σ.pc t = .loop ∧ σ.done = true ∧ σ.policy.holding t ≠ none
  | .throw t => σ.policy.holding t ≠ none
  | _ => False

/-- The counters count running visitors exactly if no thread that has left holds a slot. -/
theorem slotsGivenBack_iff {σ : State (P.policy concurrency) A C} (h : SlotInv σ) :
    SlotsGivenBack σ ↔ ∀ t, (σ.pc t).isExited = true → σ.policy.holding t = none := by
  have hmask := tally_mask_eq_iff σ.policy.holding fun t => (σ.pc t).isExited
  rw [← hmask]
  refine forall_congr' fun s => ?_
  rw [h.slots.count s]
  -- the second part follows: a counter at 0 is below a limit that is not 0
  refine and_iff_left_of_imp fun heq hmax hzero => ?_
  have hcount := h.slots.count s
  rw [heq, hzero] at hcount
  have hpos : 0 < (concurrency s).toNat := by
    rw [Nat.pos_iff_ne_zero]
    exact fun h0 => hmax (BitVec.eq_of_toNat_eq h0)
  show (σ.policy.ta.threadsPerStage s).toNat < (σ.policy.ta.maximumConcurrency s).toNat
  rw [hcount, h.slots.limit]
  exact hpos

variable {σ σ' : State (P.policy concurrency) A C}

/-- A thread that stays in `tryProcess` takes no slot but its own. -/
theorem SlotsGivenBack.stay (hσ : SlotsGivenBack σ) (h : SlotInv σ) (h' : SlotInv σ') {t : Fin T}
    {pc : Pc (P.policy concurrency) A} (hpc : σ'.pc = Function.update σ.pc t pc)
    (hstays : pc.isExited = false)
    (hholding : ∀ u, u ≠ t → σ'.policy.holding u = σ.policy.holding u) : SlotsGivenBack σ' := by
  rw [slotsGivenBack_iff h] at hσ
  rw [slotsGivenBack_iff h']
  intro u hu
  by_cases hut : u = t
  · subst u
    rw [hpc, Function.update_self, hstays] at hu
    cases hu
  · rw [hpc, Function.update_of_ne hut] at hu
    rw [hholding u hut]
    exact hσ u hu

/-- The thread that leaves is the only one whose slot is in question. -/
theorem SlotsGivenBack.leave_iff (hσ : SlotsGivenBack σ) (h : SlotInv σ) (h' : SlotInv σ')
    {t : Fin T} (hpc : σ'.pc = Function.update σ.pc t .exited)
    (hholding : σ'.policy.holding = σ.policy.holding) :
    SlotsGivenBack σ' ↔ σ.policy.holding t = none := by
  rw [slotsGivenBack_iff h] at hσ
  rw [slotsGivenBack_iff h', hholding, hpc]
  constructor
  · intro hall
    have hexited : (Function.update σ.pc t .exited t).isExited = true := by
      rw [Function.update_self]
      rfl
    exact hall t hexited
  · intro hnone u hu
    by_cases hut : u = t
    · exact hut ▸ hnone
    · rw [Function.update_of_ne hut] at hu
      exact hσ u hu

/-- A step from a state in which the slots are given back keeps that exactly if nobody leaves with
    a slot. -/
theorem slotsGivenBack_step {a : Action (P.policy concurrency) A C} (h : SlotInv σ)
    (hσ : SlotsGivenBack σ) (hs : (system (P.policy concurrency) A C).step σ a = some σ') :
    SlotsGivenBack σ' ↔ ¬ LeavesWithSlot σ a := by
  have h' := slotInv_invariant.step σ a σ' h hs
  cases step_inv hs with
  | leave t e v hpc hd =>
    rw [hσ.leave_iff h h' rfl rfl]
    simp only [LeavesWithSlot, hpc, hd, true_and, not_not]
  | throw t s m todo hA hpc =>
    rw [hσ.leave_iff h h' rfl rfl]
    simp only [LeavesWithSlot, not_not]
  | enter t e v hpc hd =>
    exact iff_of_true (hσ.stay h h' rfl rfl fun _ _ => rfl) (by simp [LeavesWithSlot, hd])
  | call t e v p policy p' hpc hp =>
    exact iff_of_true (hσ.stay h h' rfl rfl fun _ => h.holding_call hpc hp)
      (by simp [LeavesWithSlot, hpc])
  | visit t e v p policy s hpc hp =>
    exact iff_of_true (hσ.stay h h' rfl rfl fun _ => h.holding_call hpc hp)
      (by simp [LeavesWithSlot, hpc])
  | pop t e v s m rest hpc hq =>
    exact iff_of_true (hσ.stay h h' rfl rfl fun _ _ => rfl) (by simp [LeavesWithSlot, hpc])
  | empty t e v s hpc hq =>
    exact iff_of_true (hσ.stay h h' rfl rfl fun _ _ => rfl) (by simp [LeavesWithSlot, hpc])
  | push t e v s m target m' todo hpc =>
    exact iff_of_true (hσ.stay h h' rfl rfl fun _ _ => rfl) (by simp [LeavesWithSlot, hpc])
  | account t e v s m target todo hpc =>
    exact iff_of_true (hσ.stay h h' rfl rfl fun _ _ => rfl) (by simp [LeavesWithSlot, hpc])
  | returns t e v s m hpc =>
    exact iff_of_true (hσ.stay h h' rfl rfl fun _ _ => rfl) (by simp [LeavesWithSlot, hpc])
  | batchEnd t e v s info hpc =>
    exact iff_of_true (hσ.stay h h' rfl rfl fun _ _ => rfl) (by simp [LeavesWithSlot, hpc])
  | clientPush c target m hc he => exact iff_of_true hσ (by simp [LeavesWithSlot])
  | clientDone c target hc => exact iff_of_true hσ (by simp [LeavesWithSlot])
  | stop => exact iff_of_true hσ (by simp [LeavesWithSlot])

end

/-- The runs in which every slot is given back are the ones in which no thread leaves `tryProcess`
    with a slot. -/
theorem slotsGivenBack_always_iff (p : AssignmentPolicy) (concurrency : Fin n → SizeT)
    (A : Application n) {σ : State ((p.chooser n T).policy concurrency) A C} (hσ : Initial σ)
    (as : List (Action ((p.chooser n T).policy concurrency) A C)) :
    (system ((p.chooser n T).policy concurrency) A C).Always SlotsGivenBack σ as ↔
      (system ((p.chooser n T).policy concurrency) A C).Steps
        (fun σ a => ¬ LeavesWithSlot σ a) σ as := by
  have h := slotInv_invariant.init σ hσ
  refine Lts.always_iff_steps slotInv_invariant (fun σ a σ' h hX hs => ?_) h ?_ as
  · exact slotsGivenBack_step h hX hs
  · rw [slotsGivenBack_iff h]
    intro t ht
    rw [hσ.pc t] at ht
    cases ht

/-- A thread takes a message from a stage and the functor throws. -/
def throwsAtOnce (c : Fin C) (s : Fin n) (t : Fin T) (concurrency : Fin n → SizeT) :
    List (Action ((AssignmentPolicy.roundRobin.chooser n T).policy concurrency) (.sink n true) C) :=
  .push c s (7 : Nat) :: .dispatched c :: List.replicate 9 (.thread t () ()) ++ [.throw t]

theorem slotsGivenBack_always_iff_throwsAtOnce :
    (system ((AssignmentPolicy.roundRobin.chooser 1 1).policy fun _ => 1) (.sink 1 true) 1).Always
        SlotsGivenBack (State.fresh (.fresh (fun _ => 1) ())) (throwsAtOnce 0 0 0 _) ↔
      (system ((AssignmentPolicy.roundRobin.chooser 1 1).policy fun _ => 1) (.sink 1 true) 1).Steps
        (fun σ a => ¬ LeavesWithSlot σ a)
        (State.fresh (.fresh (fun _ => 1) ())) (throwsAtOnce 0 0 0 _) :=
  slotsGivenBack_always_iff .roundRobin (fun _ => 1) (.sink 1 true)
    (State.fresh_initial ⟨rfl, fun _ => rfl, trivial⟩) (throwsAtOnce 0 0 0 _)

/-- The only thread of a `RoundRobin` scheduler is gone and still counted at the only stage. -/
theorem slot_lost_by_exception :
    ∃ σ, (system ((AssignmentPolicy.roundRobin.chooser 1 1).policy fun _ => 1)
      (.sink 1 true) 1).Reachable σ ∧ ¬ SlotsGivenBack σ := by
  obtain ⟨σ, hσ, hcounted, hexited⟩ := Lts.exists_reachable_of_run
    (system ((AssignmentPolicy.roundRobin.chooser 1 1).policy fun _ => 1) (.sink 1 true) 1)
    (State.fresh (.fresh (fun _ => 1) ())) (throwsAtOnce 0 0 0 _)
    (fun σ => σ.policy.ta.threadsPerStage 0 = 1 ∧ (σ.pc 0).isExited = true)
    (State.fresh_initial ⟨rfl, fun _ => rfl, trivial⟩) (by decide)
  refine ⟨σ, hσ, fun hback => ?_⟩
  -- the only thread has left, so no running thread holds a slot
  have hrunning : runningHolding σ = fun _ => none := by
    funext t
    rw [Subsingleton.elim t 0, runningHolding, hexited, if_pos rfl]
  have hcount := (hback 0).1
  rw [hcounted, hrunning, tally_none] at hcount
  exact absurd hcount (by decide)

end Wield.SchedulerBase
