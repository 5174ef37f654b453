import Mathlib.Data.PNat.Defs
import Wield.Schedulers.StageChooser
import Wield.Schedulers.RoundRobin
import Wield.Schedulers.SRPT
import Wield.Schedulers.RandomVisit
import Wield.Schedulers.Color
import Wield.Schedulers.ColorMinus

/-!
# Scheduling policies as `SchedulerBase` sees them

`SchedulerBase::process` asks its policy for a stage and reports the end of a batch; the policy's
dispatcher may also keep books on dispatches.  `nextStage` is not atomic, so a policy is given by
the steps of one call.
-/

namespace Wield

/-- A scheduling policy for `n` stages and the thread ids below `T`. -/
structure SchedulingPolicy (n T : Nat) where
  State : Type
  /-- Where a thread is inside `nextStage`. -/
  Pc : Type
  Entropy : Type
  enter : Pc
  /-- The next access of a thread inside `nextStage`; `.inr` when the call returns a stage. -/
  step : State → Fin T → Entropy → Pc → State × (Pc ⊕ Fin n)
  batchEnd : State → Bool → State
  /-- What the policy's dispatcher does after it has pushed a message. -/
  dispatched : State → Fin n → State
  init : State → Prop

variable {n T : Nat}

/-- The policy of a stage chooser, under a concurrency map. -/
@[reducible] def StageChooser.policy (P : StageChooser n T) (concurrency : Fin n → SizeT) :
    SchedulingPolicy n T where
  State := P.Shared
  Pc := P.Pc
  Entropy := P.Entropy
  enter := .enter
  step := Call.step
  batchEnd σ hadMessage := { σ with own := P.batchEnd σ.own hadMessage }
  dispatched σ stageName := { σ with own := P.dispatched σ.own stageName }
  init σ := σ.ta = ThreadAssignments.init concurrency ∧ (∀ t, σ.holding t = none) ∧
    P.init concurrency σ.own

/-- `ThreadPerStage`: as many threads as stages, each sent to the stage of its own number. -/
@[reducible] def ThreadPerStage (n : Nat) : SchedulingPolicy n n where
  State := Unit
  Pc := Unit
  Entropy := Unit
  enter := ()
  step _ threadId _ _ := ((), .inr threadId)
  batchEnd _ _ := ()
  dispatched _ _ := ()
  init _ := True

/-- The policies that keep a `ThreadAssignments` table.  A visit table has entries. -/
inductive AssignmentPolicy where
  | roundRobin
  | srpt
  | randomVisit (TableSizeFactor : ℕ+)
  | color
  | colorMinus

@[reducible] def AssignmentPolicy.chooser (n T : Nat) : AssignmentPolicy → StageChooser n T
  | roundRobin => RoundRobin.chooser n T
  | srpt => SRPT.chooser n T
  | randomVisit TableSizeFactor => RandomVisit.chooser n T TableSizeFactor
  | color => Color.chooser n T
  | colorMinus => ColorMinus.chooser n T

end Wield
