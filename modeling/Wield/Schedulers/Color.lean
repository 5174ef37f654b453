import Wield.Schedulers.StageChooser

/-! # The `Color` policy and its dispatcher -/

namespace Wield.Color

variable {n : Nat}

/-- `dequeNextStage`: the name at the head of the work queue, if there is one. -/
def dequeNextStage : List (Fin n) → StageEnum n × List (Fin n)
  | [] => (StageEnum.NumberOfEntries, [])
  | name :: workQueue => (some name, workQueue)

/-- `Color::nextStage` takes stage names from the shared work queue; `color::Dispatcher::dispatch`
    puts the name of the target there after it has pushed the message. -/
@[reducible] def chooser (n T : Nat) : StageChooser n T where
  State := List (Fin n)
  Cursor := Unit
  Entropy := Unit
  start _ _ := ()
  choose workQueue _ _ _ := ((dequeNextStage workQueue).1, (), (dequeNextStage workQueue).2)
  settle workQueue _ := workQueue
  batchEnd workQueue _ := workQueue
  dispatched workQueue stageName := workQueue ++ [stageName]
  init _ workQueue := workQueue = []

end Wield.Color
