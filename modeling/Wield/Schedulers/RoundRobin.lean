import Wield.Schedulers.StageChooser
import Wield.Theory.Search

/-! # The `RoundRobin` policy -/

namespace Wield.RoundRobin

variable {n : Nat}

/-- The stage after `stage`; the marker is followed by the first stage. -/
def incrementStage (stage : StageEnum n) : StageEnum n :=
  let stageIndex := stage.toSizeT + 1
  if StageEnum.NumberOfEntries.toSizeT (n := n) ≤ stageIndex then StageEnum.ofSizeT n 0
  else StageEnum.ofSizeT n stageIndex

theorem incrementStage_countsUp (hn : n < 2 ^ 64) :
    Theory.CountsUp (incrementStage (n := n)) where
  up s s' hs := by
    have hidx : (StageEnum.toSizeT (some s) + 1).toNat = s'.val := by
      rw [BitVec.toNat_add, StageEnum.toNat_toSizeT_some hn]
      simp only [BitVec.ofNat_eq_ofNat, BitVec.toNat_ofNat]
      omega
    have hin : ¬ StageEnum.NumberOfEntries.toSizeT (n := n) ≤ StageEnum.toSizeT (some s) + 1 := by
      rw [BitVec.le_def, StageEnum.toNat_toSizeT_none hn, hidx]
      omega
    simp only [incrementStage]
    rw [if_neg hin, StageEnum.ofSizeT_of_lt (by omega)]
    exact congrArg some (Fin.ext hidx)
  wrap first hfirst := by
    have hzero : StageEnum.ofSizeT n 0 = some first := by
      rw [StageEnum.ofSizeT_of_lt (by simp; omega)]
      exact congrArg some (Fin.ext (by simp [hfirst]))
    refine ⟨?_, fun z hz => ?_⟩
    · simp only [incrementStage]
      split
      · exact hzero
      · rename_i hlt
        -- `n + 1` wraps only to `0`, which is again the first stage
        rw [BitVec.le_def, BitVec.toNat_add, StageEnum.toNat_toSizeT_none hn] at hlt
        simp only [BitVec.ofNat_eq_ofNat, BitVec.toNat_ofNat] at hlt
        have hn' : StageEnum.NumberOfEntries.toSizeT (n := n) + 1 = 0 := by
          apply BitVec.eq_of_toNat_eq
          rw [BitVec.toNat_add, StageEnum.toNat_toSizeT_none hn]
          simp only [BitVec.ofNat_eq_ofNat, BitVec.toNat_ofNat]
          omega
        rw [hn', hzero]
    · have hout : StageEnum.NumberOfEntries.toSizeT (n := n) ≤
          StageEnum.toSizeT (some z) + 1 := by
        rw [BitVec.le_def, BitVec.toNat_add, StageEnum.toNat_toSizeT_some hn,
          StageEnum.toNat_toSizeT_none hn]
        simp only [BitVec.ofNat_eq_ofNat, BitVec.toNat_ofNat]
        omega
      simp only [incrementStage]
      rw [if_pos hout, hzero]

/-- `RoundRobin::nextStage` walks upwards from the previous stage. -/
@[reducible] def chooser (n T : Nat) : StageChooser n T :=
  .walk Unit incrementStage (fun _ original => original) (fun own _ => own) (fun _ _ => True)

end Wield.RoundRobin
