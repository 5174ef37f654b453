/-! # The `ExhaustivePollingPolicy` -/

namespace Wield.ExhaustivePollingPolicy

/-- The data of one batch; the constructor sets the flag. -/
structure PollingInformation where
  hadMessage : Bool := true
  deriving DecidableEq, Repr

def PollingInformation.incrementMessageCount (_info : PollingInformation) (hadMessage : Bool) :
    PollingInformation :=
  { hadMessage }

/-- A thread stays at a stage until the queue is empty. -/
def continueProcessing (info : PollingInformation) : Bool :=
  info.hadMessage

end Wield.ExhaustivePollingPolicy
