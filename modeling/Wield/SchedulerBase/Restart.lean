import Wield.SchedulerBase.Process
import Wield.Schedulers.SRPT.Order

/-!
# Where `SRPT` goes after a batch with messages

One thread runs `process` with `SRPT` over the `ExhaustivePollingPolicy`, while clients dispatch
between its calls.  A batch ends with the poll that finds nothing, so the flag that `batchEnd`
samples is never set, and the thread goes on below the stage it has worked at.
-/

namespace Wield.SchedulerBase.Restart

open Theory StageChooser SRPT

variable {n T : Nat} {A : Application n} {t : Fin T}

/-- The scheduler, with the stage of the latest batch and the number of its messages as
    history. -/
structure Run (n T : Nat) (A : Application n) where
  serial : Serial (SRPT.chooser n T) A
  latest : Option (Fin n × Nat)

inductive Action (A : Application n) where
  | process (fuel : Nat) (envs : List A.Env)
  | dispatch (target : Fin n) (m : A.Message)

def step (t : Fin T) (σ : Run n T A) : Action A → Option (Run n T A)
  | .process fuel envs =>
    (σ.serial.process fuel (fun _ => ()) envs t).map fun (stage, processed, serial) =>
      { serial := serial, latest := some (stage, processed) }
  | .dispatch target m => some { σ with serial := σ.serial.dispatch (target, m) }

/-- The thread is about to start; the queues and the assignments of other threads are arbitrary. -/
structure Initial (t : Fin T) (σ : Run n T A) : Prop where
  counted : σ.serial.ta.Counted
  idle : σ.serial.ta.threadAssignment t = none
  hadMessages : σ.serial.own = false
  latest : σ.latest = none

variable (A) in
def system (t : Fin T) : Lts (Run n T A) (Action A) where
  init := Initial t
  step := step t

/-- After a batch the table names its stage and the flag is not set. -/
structure Inv (t : Fin T) (σ : Run n T A) : Prop where
  counted : σ.serial.ta.Counted
  latest : ∀ p k, σ.latest = some (p, k) → σ.serial.ta.threadAssignment t = some p
  hadMessages : σ.serial.own = false

theorem inv_invariant : (system A t).Invariant (Inv t) where
  init σ h := ⟨h.counted, fun p k hpk => absurd (h.latest.symm.trans hpk) (by simp),
    h.hadMessages⟩
  step σ a σ' h hs := by
    cases a with
    | process fuel envs =>
      obtain ⟨⟨s, k, serial⟩, hprocess, rfl⟩ := Option.map_eq_some_iff.mp hs
      -- the batch ends with an empty poll, so `batchEnd` stores `false`
      obtain ⟨own, own', hnext, hown⟩ := Serial.process_eq_some hprocess
      obtain ⟨hcounted, hassigned⟩ := nextStage_counted h.counted hnext
      refine ⟨hcounted, fun p k' hpk => ?_, hown⟩
      cases hpk
      exact hassigned
    | dispatch target m =>
      cases hs
      exact ⟨h.counted, h.latest, h.hadMessages⟩

/-- If the latest batch was before the last stage and had a message, then `nextStage` returns the
    highest stage with room. -/
def RestartsAtEnd (t : Fin T) (σ : Run n T A) : Prop :=
  ∀ p k, σ.latest = some (p, k) → some p ≠ lastStage n → 0 < k →
    ∃ s, Returns (SRPT.chooser n T) t σ.serial.own σ.serial.ta s ∧
      IsGreatest {s | RoomFor σ.serial.ta t s} s

/-- In the same case, no stage before the one of the batch has room. -/
def NoRoomBefore (t : Fin T) (σ : Run n T A) : Prop :=
  ∀ p k, σ.latest = some (p, k) → some p ≠ lastStage n → 0 < k →
    ∀ s, s < p → ¬ RoomFor σ.serial.ta t s

theorem restartsAtEnd_iff (hn : n < 2 ^ 64) {σ : Run n T A} (h : Inv t σ) :
    RestartsAtEnd t σ ↔ NoRoomBefore t σ := by
  refine forall₂_congr fun p k => imp_congr_right fun hpk => imp_congr_right fun _ =>
    imp_congr_right fun _ => ?_
  rw [h.hadMessages]
  exact returns_highest_iff hn h.counted (h.latest p k hpk)

/-- The runs in which `SRPT` always restarts at the end after work was found. -/
theorem restartsAtEnd_always_iff (hn : n < 2 ^ 64) (A : Application n) (t : Fin T)
    {σ : Run n T A} (hσ : Initial t σ) (as : List (Action A)) :
    (system A t).Always (RestartsAtEnd t) σ as ↔ (system A t).Always (NoRoomBefore t) σ as :=
  Lts.always_congr inv_invariant (fun _ h => restartsAtEnd_iff hn h)
    (inv_invariant.init σ hσ) as

/-- One thread over three stages, with the messages that `queue` holds. -/
def oneThread (queue : Fin 3 → List Nat) : Run 3 1 (.sink 3 false) where
  serial := { own := false, ta := ThreadAssignments.init fun _ => 1, queue := queue }
  latest := none

theorem oneThread_initial (queue : Fin 3 → List Nat) : Initial 0 (oneThread queue) :=
  ⟨.init _, rfl, rfl, rfl⟩

/-- The thread works at the last stage and then at the one before, with a message each time. -/
def twoBatches : List (Action (.sink 3 false)) :=
  [.process 4 [(), ()], .process 4 [(), ()]]

theorem restartsAtEnd_always_iff_twoBatches :
    (system (.sink 3 false) 0).Always (RestartsAtEnd 0) (oneThread fun _ => [7]) twoBatches ↔
      (system (.sink 3 false) 0).Always (NoRoomBefore 0) (oneThread fun _ => [7]) twoBatches :=
  restartsAtEnd_always_iff (by decide) _ 0 (oneThread_initial _) twoBatches

theorem not_restarted :
    ∃ σ : Run 3 1 (.sink 3 false), (system (.sink 3 false) 0).Reachable σ ∧
      ¬ RestartsAtEnd 0 σ := by
  obtain ⟨σ, hσ, hlatest, hroom⟩ := Lts.exists_reachable_of_run (system (.sink 3 false) 0)
    (oneThread fun _ => [7]) twoBatches
    (fun σ => σ.latest = some (1, 1) ∧ RoomFor σ.serial.ta 0 0) (oneThread_initial _) (by decide)
  refine ⟨σ, hσ, fun h => ?_⟩
  rw [restartsAtEnd_iff (by decide) (inv_invariant.holds hσ)] at h
  exact h 1 1 hlatest (by decide) Nat.one_pos 0 (by decide) hroom

end Wield.SchedulerBase.Restart
