import Wield.SchedulerBase.Stopping

/-!
# `stop()` under each policy

The walks and `RandomVisit` always come to a stage that can be entered, and `ThreadPerStage` does
not search.  `Color` and `ColorMinus` go on looking for work after `stop()`.
-/

namespace Wield

open Theory StageChooser

variable {n T C : Nat}

instance (p : AssignmentPolicy) : Nonempty (p.chooser n T).Entropy := by
  cases p
  case randomVisit => exact ⟨fun _ => 0⟩
  all_goals exact ⟨()⟩

/-- What is known of a policy's own data in every state. -/
def AssignmentPolicy.Valid (concurrency : Fin n → SizeT) :
    (p : AssignmentPolicy) → (p.chooser n T).State → Prop
  | .randomVisit _ => RandomVisit.Tables.Valid concurrency
  | .roundRobin | .srpt | .color | .colorMinus => fun _ => True

/-- The policy's own data lead its retry loop to a stage that can be entered. -/
def AssignmentPolicy.Finds (concurrency : Fin n → SizeT) :
    (p : AssignmentPolicy) → (p.chooser n T).State → Prop
  | .color => Color.Finds fun s => concurrency s ≠ 0
  | .colorMinus => ColorMinus.Finds fun s => concurrency s ≠ 0
  | .roundRobin | .srpt | .randomVisit _ => fun _ => True

namespace SchedulerBase

theorem retryRule (hn : n < 2 ^ 64) {concurrency : Fin n → SizeT}
    (hopen : ∃ s, concurrency s ≠ 0) (p : AssignmentPolicy) :
    RetryRule (p.chooser n T) concurrency (p.Valid concurrency) (p.Finds concurrency) := by
  have hpos : 0 < n := by
    obtain ⟨s, _⟩ := hopen
    exact Nat.zero_lt_of_lt s.isLt
  cases p with
  | roundRobin =>
    apply RetryRule.of_retry
    intro t c own
    exact iff_of_true (RoundRobin.terminates_retry hn hopen c own) trivial
  | srpt =>
    apply RetryRule.of_retry
    intro t c own
    exact iff_of_true (SRPT.terminates_retry hn hopen c own) trivial
  | randomVisit TableSizeFactor =>
    -- the tables never hold a stage that is closed
    refine ⟨fun own h => ?_, fun own t c e h => ?_, fun _ _ h => h, fun _ _ h => h,
      fun _ _ h => h, fun t c own h => ?_⟩
    · obtain ⟨draws, hinit⟩ := h
      exact RandomVisit.initVisitTable_valid hinit
    · exact (RandomVisit.randomStage_valid h (Nat.mul_pos hpos TableSizeFactor.pos) t e).1
    · exact iff_of_true (RandomVisit.terminates_retry h hpos c) trivial
  | color => exact .of_retry fun _ c own => Color.terminates_retry_iff c own
  | colorMinus => exact .of_retry fun _ c own => ColorMinus.terminates_retry_iff hpos c own

/-- The rest of `tryProcess` in thread `t` is finite and ends with the thread gone. -/
def LeavesTryProcess {M : SchedulingPolicy n T} {A : Application n} (t : Fin T)
    (σ : State M A C) : Prop :=
  Stops t σ ∧ ∀ σ' e v, Relation.ReflTransGen (QuietStep t) σ σ' →
    threadStep σ' t e v = none → σ'.pc t = .exited

theorem leavesTryProcess_iff {M : SchedulingPolicy n T} {A : Application n} {t : Fin T}
    {σ : State M A C} : LeavesTryProcess t σ ↔ Stops t σ :=
  and_iff_left fun _ _ _ _ h => threadStep_eq_none h

theorem threadPerStage_stops {A : Application n} {t : Fin n} {σ : State (ThreadPerStage n) A C}
    (hdone : σ.done = true) : Stops t σ := by
  cases hpc : σ.pc t with
  | nextStage p =>
    refine (stops_nextStage_iff hpc).mpr fun _ => stops_of_outside hdone ?_
    rw [State.resume, State.setPc_pc, Function.update_self]
    trivial
  | _ => exact stops_of_outside hdone (by rw [hpc]; trivial)

theorem solo_leaves_iff (hn : n < 2 ^ 64) {concurrency : Fin n → SizeT}
    (hopen : ∃ s, concurrency s ≠ 0) {A : Application n} {p : AssignmentPolicy} {t : Fin T}
    {σ : State ((p.chooser n T).policy concurrency) A C}
    (hσ : (solo ((p.chooser n T).policy concurrency) A C t).Reachable σ) (hdone : σ.done = true) :
    LeavesTryProcess t σ ↔ (σ.pc t).WillLeave (p.Finds concurrency) σ.policy.own := by
  have hrule := retryRule (T := T) hn hopen p
  rw [leavesTryProcess_iff]
  exact stops_iff hrule
    ⟨soloInv_invariant.holds hσ, (hrule.invariant.restrict _).holds hσ, hdone⟩

/-- After `stop()` the only processing thread leaves `tryProcess`, unless it is inside `nextStage`
    of `Color` or `ColorMinus` with nothing that leads to a stage that can be entered. -/
theorem stop_suffices_iff (hn : n < 2 ^ 64) (concurrency : Fin n → SizeT)
    (hopen : ∃ s, concurrency s ≠ 0) (A : Application n) :
    (∀ t (σ : State (ThreadPerStage n) A C), (solo (ThreadPerStage n) A C t).Reachable σ →
      σ.done = true → LeavesTryProcess t σ) ∧
    ∀ (p : AssignmentPolicy) (T : Nat) (t : Fin T)
      (σ : State ((p.chooser n T).policy concurrency) A C),
      (solo ((p.chooser n T).policy concurrency) A C t).Reachable σ → σ.done = true →
        (LeavesTryProcess t σ ↔ (σ.pc t).WillLeave (p.Finds concurrency) σ.policy.own) :=
  ⟨fun _ _ _ hdone => leavesTryProcess_iff.mpr (threadPerStage_stops hdone),
    fun _ _ _ _ hσ hdone => solo_leaves_iff hn hopen hσ hdone⟩

/-- `stop()` is called while a thread of `RoundRobin` is inside `nextStage`. -/
theorem stop_suffices_iff_roundRobin :
    ∃ σ : State ((AssignmentPolicy.roundRobin.chooser 2 1).policy fun _ => 1) (.sink 2 false) 1,
      (solo ((AssignmentPolicy.roundRobin.chooser 2 1).policy fun _ => 1) (.sink 2 false) 1
        0).Reachable σ ∧ σ.done = true ∧
        (LeavesTryProcess 0 σ ↔
          (σ.pc 0).WillLeave (AssignmentPolicy.roundRobin.Finds fun _ => 1) σ.policy.own) := by
  obtain ⟨σ, hσ, hdone⟩ := Lts.exists_reachable_of_run
    (solo ((AssignmentPolicy.roundRobin.chooser 2 1).policy fun _ => 1) (.sink 2 false) 1 0)
    (State.fresh (.fresh (fun _ => 1) ())) [.thread 0 () (), .stop]
    (fun σ => σ.done = true)
    (State.fresh_initial ⟨rfl, fun _ => rfl, trivial⟩) (by decide)
  exact ⟨σ, hσ, hdone,
    (stop_suffices_iff (by decide) (fun _ => 1) ⟨0, by decide⟩ (.sink 2 false)).2
      .roundRobin 1 0 σ hσ hdone⟩

/-- A thread is inside `nextStage` of `Color` with nothing dispatched when `stop()` is called. -/
theorem color_spins_after_stop :
    ∃ σ : State ((AssignmentPolicy.color.chooser 1 1).policy fun _ => 1) (.sink 1 false) 1,
      (solo ((AssignmentPolicy.color.chooser 1 1).policy fun _ => 1) (.sink 1 false) 1
        0).Reachable σ ∧ σ.done = true ∧ ¬ LeavesTryProcess 0 σ := by
  let M := (AssignmentPolicy.color.chooser 1 1).policy fun _ => 1
  let σ₀ : State M (.sink 1 false) 1 := State.fresh (.fresh (fun _ => 1) [])
  have hrun : (solo M (.sink 1 false) 1 0).run σ₀ [.thread 0 () (), .stop] =
      some { σ₀.setPc 0 (.nextStage .enter) with done := true } := rfl
  have hσ := (Lts.Reachable.init
    (State.fresh_initial (M := M) ⟨rfl, fun _ => rfl, rfl⟩)).run hrun
  refine ⟨_, hσ, rfl, fun hleaves => ?_⟩
  -- the work queue is empty, so it names no stage
  obtain ⟨s, hs, _⟩ := (solo_leaves_iff (by decide) ⟨0, by decide⟩ hσ rfl).mp hleaves
  cases hs

end SchedulerBase

end Wield
