import Wield.Schedulers.Serialised
import Wield.Schedulers.SRPT.Order

/-!
# The order in which `SRPT` looks for a stage

The walk of `SRPT::nextStage` is cyclic and downwards.  Where it starts depends on `hadMessages_`
and on whether the thread comes from the last stage.
-/

namespace Wield.SRPT

open Theory StageChooser

variable {n T : Nat}

/-- A call returns the stage with room that is first in the search order: from the last stage down
    if the last batch had messages, but from the one before the last if the thread comes from the
    last stage, and from the one before the previous stage if the batch had none. -/
theorem searchOrder (hn : n < 2 ^ 64) (hadMessages : Bool) (ta : ThreadAssignments n T) (t : Fin T)
    (hroom : ∃ s, RoomFor ta t s) : ∃ s ta',
    (∀ entropy, (chooser n T).nextStage n entropy t hadMessages ta = some (s, hadMessages, ta')) ∧
    (hadMessages = true → (∀ p, ta.threadAssignment t = some p → p.val + 1 ≠ n) →
      MinimalFor (RoomFor ta t) (downFrom none) s) ∧
    (∀ p, hadMessages = true → ta.threadAssignment t = some p → p.val + 1 = n →
      MinimalFor (RoomFor ta t) (downFrom (some p)) s) ∧
    (hadMessages = false →
      MinimalFor (RoomFor ta t) (downFrom (ta.threadAssignment t)) s) ∧
    ta.Moves t s ta' := by
  have hcall : ∃ s ta',
      (∀ entropy, (chooser n T).nextStage n entropy t hadMessages ta =
        some (s, hadMessages, ta')) ∧
      MinimalFor (RoomFor ta t) (downFrom (start hadMessages (ta.threadAssignment t))) s ∧
      ta.Moves t s ta' :=
    exists_nextStage_walk (decrementStage_countsDown hn).ranks hadMessages hroom
  obtain ⟨s, ta', hs, hmin, hmoves⟩ := hcall
  refine ⟨s, ta', hs, ?_, ?_, ?_, hmoves⟩
  · rintro rfl hnotLast
    have hstart : start true (ta.threadAssignment t) = none := by
      cases hp : ta.threadAssignment t with
      | none => exact start_none true
      | some p =>
        -- the last stage is the only one with the number `n - 1`
        apply start_true
        intro hlast
        have hlt := p.isLt
        have hlastStage : lastStage n = some ⟨n - 1, by omega⟩ :=
          lastStage_eq hn (by dsimp only; omega)
        rw [hlastStage] at hlast
        have hval := congrArg Fin.val (Option.some.inj hlast)
        dsimp only at hval
        exact hnotLast p hp (by omega)
    rwa [hstart] at hmin
  · rintro p rfl hp hlast
    rwa [hp, start_of_last (lastStage_eq hn hlast).symm] at hmin
  · rintro rfl
    exact hmin

/-- A thread comes from the last of three stages, where it has found messages; the other thread is
    at the stage before that one. -/
theorem searchOrder_three :
    let ta : ThreadAssignments 3 2 :=
      { threadAssignment := fun t => if t = 0 then some 2 else some 1
        threadsPerStage := fun s => if s = 0 then 0 else 1
        maximumConcurrency := fun _ => 1 }
    ∃ s ta', (∀ entropy, (chooser 3 2).nextStage 3 entropy 0 true ta = some (s, true, ta')) ∧
      s = 0 := by
  intro ta
  obtain ⟨s, ta', hs, _, hlast, _⟩ := searchOrder (by decide) true ta 0 ⟨0, by decide⟩
  refine ⟨s, ta', hs, ?_⟩
  -- stage 1 is full, so the walk from below stage 2 goes on to stage 0
  have honly : ∀ r : Fin 3, RoomFor ta 0 r → downFrom (some 2) r ≤ 1 → r = 0 := by decide
  obtain ⟨hs, hmin⟩ := hlast 2 rfl rfl rfl
  exact honly s hs (not_lt.mp fun hlt => absurd (hmin (j := 0) (by decide) hlt.le)
    (not_le.mpr hlt))

end Wield.SRPT
