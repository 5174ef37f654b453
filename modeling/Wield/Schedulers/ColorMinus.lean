import Wield.Schedulers.StageChooser
import Wield.Utils.MessageCount

/-! # The `ColorMinus` policy and its dispatcher -/

namespace Wield.ColorMinus

variable {n : Nat}

/-- The counters that the policy and its dispatcher share. -/
abbrev Stats (n : Nat) := MessageCount 64 n

/-- `dequeNextStage`. -/
def dequeNextStage (stats : Stats n) : StageEnum n :=
  stats.highwaterStage

/-- `stats_.updatePrevious(next)`.  For `NumberOfEntries` the counters would be indexed past their
    end; `dequeNextStage` only returns it where there are no stages. -/
def updatePrevious (stats : Stats n) : StageEnum n → Stats n
  | none => stats
  | some stage => stats.updatePrevious stage

/-- `ColorMinus::nextStage` takes the stage with the most estimated work and then counts that work
    as seen, whether or not the stage had room; `color_minus::Dispatcher::dispatch` increments the
    counter of the target after it has pushed the message. -/
@[reducible] def chooser (n T : Nat) : StageChooser n T where
  State := Stats n
  Cursor := Unit
  Entropy := Unit
  start _ _ := ()
  choose stats _ _ _ := (dequeNextStage stats, (), stats)
  settle := updatePrevious
  batchEnd stats _ := stats
  dispatched stats stageName := stats.increment stageName
  init _ stats := stats = MessageCount.reset

end Wield.ColorMinus
