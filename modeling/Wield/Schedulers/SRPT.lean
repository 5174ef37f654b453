import Wield.Schedulers.StageChooser
import Wield.Theory.Search

/-! # The `SRPT` policy -/

namespace Wield.SRPT

variable {n : Nat}

/-- The stage before `stage`.  For the first stage the subtraction wraps, and for the marker it
    gives the last stage. -/
def decrementStage (stage : StageEnum n) : StageEnum n :=
  let stageIndex := stage.toSizeT - 1
  if StageEnum.NumberOfEntries.toSizeT (n := n) ≤ stageIndex then
    StageEnum.ofSizeT n (StageEnum.NumberOfEntries.toSizeT (n := n) - 1)
  else StageEnum.ofSizeT n stageIndex

/-- The static local `lastStage` of `nextStage`. -/
def lastStage (n : Nat) : StageEnum n :=
  StageEnum.ofSizeT n (StageEnum.NumberOfEntries.toSizeT (n := n) - 1)

theorem lastStage_eq (hn : n < 2 ^ 64) {last : Fin n} (hlast : last.val + 1 = n) :
    lastStage n = some last := by
  have hidx : (StageEnum.NumberOfEntries.toSizeT (n := n) - 1).toNat = last.val := by
    rw [SizeT.toNat_sub_one (by rw [StageEnum.toNat_toSizeT_none hn]; omega),
      StageEnum.toNat_toSizeT_none hn]
    omega
  rw [lastStage, StageEnum.ofSizeT_of_lt (by omega)]
  exact congrArg some (Fin.ext hidx)

theorem decrementStage_countsDown (hn : n < 2 ^ 64) :
    Theory.CountsDown (decrementStage (n := n)) where
  down s s' hs := by
    have hidx : (StageEnum.toSizeT (some s) - 1).toNat = s'.val := by
      rw [SizeT.toNat_sub_one (by rw [StageEnum.toNat_toSizeT_some hn]; omega),
        StageEnum.toNat_toSizeT_some hn]
      omega
    have hin : ¬ StageEnum.NumberOfEntries.toSizeT (n := n) ≤ StageEnum.toSizeT (some s) - 1 := by
      rw [BitVec.le_def, StageEnum.toNat_toSizeT_none hn, hidx]
      omega
    simp only [decrementStage]
    rw [if_neg hin, StageEnum.ofSizeT_of_lt (by omega)]
    exact congrArg some (Fin.ext hidx)
  wrap last hlast := by
    have heq : StageEnum.ofSizeT n (StageEnum.NumberOfEntries.toSizeT (n := n) - 1) = some last :=
      lastStage_eq hn hlast
    refine ⟨?_, fun z hz => ?_⟩
    · simp only [decrementStage, heq, ite_self]
    · -- `0 - 1` is the largest `size_t`
      have hout : StageEnum.NumberOfEntries.toSizeT (n := n) ≤
          StageEnum.toSizeT (some z) - 1 := by
        have hzero : StageEnum.toSizeT (some z) = 0 := congrArg (BitVec.ofNat 64) hz
        rw [hzero, BitVec.le_def, StageEnum.toNat_toSizeT_none hn]
        exact Nat.le_pred_of_lt hn
      simp only [decrementStage]
      rw [if_pos hout, heq]

/-- Where the walk of `nextStage` starts: below the last stage if the thread comes from there, else
    above it after work was found, else below the previous stage. -/
def start (hadMessages : Bool) (original : StageEnum n) : StageEnum n :=
  -- the last stage is followed by the one before it also after work was found
  let last := if original = lastStage n then original else StageEnum.NumberOfEntries
  if hadMessages then last else original

/-- `SRPT::nextStage` walks downwards; the shared datum is `hadMessages_`, which `batchEnd`
    overwrites. -/
@[reducible] def chooser (n T : Nat) : StageChooser n T :=
  .walk Bool decrementStage start (fun _ hadMessage => hadMessage) (fun _ own => own = false)

end Wield.SRPT
