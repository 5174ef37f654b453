import Wield.StageEnum

/-!
# Estimated queue depths

`utils::MessageCount` keeps two counters for each stage: the messages ever dispatched to it and the
value of that counter when the stage was last looked at.  The width `w` of the counters is left
open; nothing below depends on it.
-/

namespace Wield

structure MessageCount (w n : Nat) where
  previous : Fin n → BitVec w
  current : Fin n → BitVec w

namespace MessageCount

variable {w n : Nat} (stats : MessageCount w n)

/-- All counters at zero; also what the constructor leaves. -/
def reset : MessageCount w n where
  previous _ := 0
  current _ := 0

def increment (stage : Fin n) (count : BitVec w := 1#w) : MessageCount w n :=
  { stats with current := Function.update stats.current stage (stats.current stage + count) }

def updatePrevious (stage : Fin n) : MessageCount w n :=
  { stats with previous := Function.update stats.previous stage (stats.current stage) }

def estimatedDepth (stage : Fin n) : BitVec w :=
  if stats.previous stage < stats.current stage then
    stats.current stage - stats.previous stage
  else 0

/-- One round of the loop of `highwaterStage`. -/
def highwaterStep (best : StageEnum n × BitVec w) (i : Fin n) : StageEnum n × BitVec w :=
  let stageDepth := stats.estimatedDepth i
  if best.2 < stageDepth then (some i, stageDepth) else best

/-- The stage with the most estimated work; the first stage if there is none. -/
def highwaterStage : StageEnum n :=
  ((List.finRange n).foldl stats.highwaterStep (StageEnum.ofSizeT n 0, 0)).1

variable {stats}

theorem estimatedDepth_pos_of_lt {s s' : Fin n}
    (h : stats.estimatedDepth s' < stats.estimatedDepth s) : 0 < stats.estimatedDepth s := by
  have hlt : (stats.estimatedDepth s').toNat < (stats.estimatedDepth s).toNat := h
  rw [BitVec.lt_def]
  simp only [BitVec.ofNat_eq_ofNat, BitVec.toNat_ofNat, Nat.zero_mod]
  omega

@[simp] theorem estimatedDepth_updatePrevious_self (s : Fin n) :
    (stats.updatePrevious s).estimatedDepth s = 0 := by
  simp only [estimatedDepth, updatePrevious, Function.update_self, BitVec.lt_irrefl, if_false]

theorem estimatedDepth_updatePrevious_of_ne {s s' : Fin n} (h : s' ≠ s) :
    (stats.updatePrevious s).estimatedDepth s' = stats.estimatedDepth s' := by
  simp only [estimatedDepth, updatePrevious, Function.update_of_ne h]

theorem estimatedDepth_increment_of_ne {s s' : Fin n} (h : s' ≠ s) (count : BitVec w) :
    (stats.increment s count).estimatedDepth s' = stats.estimatedDepth s' := by
  simp only [estimatedDepth, increment, Function.update_of_ne h]

/-- The loop of `highwaterStage` over increasing stages after `s`, with `s` the best so far. -/
theorem foldl_highwaterStep (stats : MessageCount w n) (l : List (Fin n)) (s : Fin n)
    (hl : (s :: l).Pairwise (· < ·)) :
    ∃ r ∈ s :: l, l.foldl stats.highwaterStep (some s, stats.estimatedDepth s) =
        (some r, stats.estimatedDepth r) ∧
      ∀ s' ∈ s :: l, stats.estimatedDepth s' ≤ stats.estimatedDepth r ∧
        (s' < r → stats.estimatedDepth s' < stats.estimatedDepth r) := by
  induction l generalizing s with
  | nil =>
    refine ⟨s, List.mem_singleton_self s, rfl, fun s' hs' => ?_⟩
    rw [List.mem_singleton.mp hs']
    exact ⟨BitVec.le_refl _, fun h => absurd h (lt_irrefl s)⟩
  | cons i l ih =>
    have hsi : s < i := List.rel_of_pairwise_cons hl List.mem_cons_self
    simp only [List.foldl_cons, highwaterStep]
    split
    · rename_i hlt
      -- `i` is the best so far from here on; `s` has lost against it
      obtain ⟨r, hr, hfold, hmax⟩ := ih i (List.pairwise_cons.mp hl).2
      refine ⟨r, List.mem_cons_of_mem s hr, hfold, fun s' hs' => ?_⟩
      rcases List.mem_cons.mp hs' with rfl | hs'
      · have hsr := Nat.lt_of_lt_of_le hlt (hmax i List.mem_cons_self).1
        exact ⟨BitVec.le_of_lt hsr, fun _ => hsr⟩
      · exact hmax s' hs'
    · rename_i hge
      -- `s` stays the best; `i` comes later and is no better
      have hl' : (s :: l).Pairwise (· < ·) := hl.sublist (.cons_cons s (.cons i (.refl l)))
      obtain ⟨r, hr, hfold, hmax⟩ := ih s hl'
      refine ⟨r, ?_, hfold, fun s' hs' => ?_⟩
      · exact (List.mem_cons.mp hr).elim (fun h => h ▸ List.mem_cons_self)
          fun h => List.mem_cons_of_mem s (List.mem_cons_of_mem i h)
      · by_cases hi : s' = i
        · subst s'
          have his := BitVec.not_lt.mp hge
          obtain ⟨hsr, hstrict⟩ := hmax s List.mem_cons_self
          refine ⟨BitVec.le_trans his hsr, fun hir => ?_⟩
          exact Nat.lt_of_le_of_lt his (hstrict (lt_trans hsi hir))
        · apply hmax s'
          simp only [List.mem_cons] at hs' ⊢
          tauto

/-- The stage with the greatest estimate, and the first of those. -/
theorem highwaterStage_spec (stats : MessageCount w n) (hn : 0 < n) :
    ∃ s, stats.highwaterStage = some s ∧ ∀ s', stats.estimatedDepth s' ≤ stats.estimatedDepth s ∧
      (s' < s → stats.estimatedDepth s' < stats.estimatedDepth s) := by
  obtain ⟨m, rfl⟩ : ∃ m, n = m + 1 := ⟨n - 1, by omega⟩
  have hsorted : ((0 : Fin (m + 1)) :: (List.finRange m).map Fin.succ).Pairwise (· < ·) := by
    rw [← List.finRange_succ]
    exact List.pairwise_lt_finRange _
  -- after its first round the loop holds the first stage with its own estimate
  obtain ⟨r, _, hfold, hmax⟩ := foldl_highwaterStep stats _ _ hsorted
  refine ⟨r, ?_, fun s' => hmax s' ?_⟩
  · have hfirst : stats.highwaterStep (StageEnum.ofSizeT (m + 1) 0, 0) 0 =
        (some 0, stats.estimatedDepth 0) := by
      simp only [highwaterStep]
      split
      · rfl
      · rename_i hzero
        rw [BitVec.not_lt] at hzero
        rw [BitVec.le_zero_iff.mp hzero]
        rfl
    rw [highwaterStage, List.finRange_succ, List.foldl_cons, hfirst, hfold]
  · rw [← List.finRange_succ]
    exact List.mem_finRange s'

end MessageCount

end Wield
