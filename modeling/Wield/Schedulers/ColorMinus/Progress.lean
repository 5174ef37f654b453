import Mathlib.Data.Fin.VecNotation
import Wield.Schedulers.NextStage
import Wield.Schedulers.Retry

/-!
# When `ColorMinus::nextStage` returns

A call run without interference is a loop of refused rounds that either goes on for ever or comes to
a stage with room.  Which of the two depends on the estimates: with all of them zero
`highwaterStage` is the first stage, whether or not that has room.
-/

namespace Wield

open Theory StageChooser

variable {n T : Nat} {t : Fin T}

/-- Where nothing is drawn from outside, a call returns exactly if its refused rounds end. -/
theorem StageChooser.exists_assignLoop_iff {P : StageChooser n T} [Subsingleton P.Entropy]
    (entropy : Nat → P.Entropy) (ta : ThreadAssignments n T) (c : P.Cursor) (own : P.State) :
    (∃ fuel, (P.assignLoop t fuel entropy c own ta).isSome) ↔
      Terminates (P.Retry t ta.HasRoom) (c, own) := by
  constructor
  · rintro ⟨fuel, h⟩
    induction fuel generalizing entropy c own with
    | zero => cases h
    | succ fuel ih =>
      refine .intro fun y ⟨e, hrefused, hy⟩ => ?_
      -- the round that is refused is the one that the loop makes
      rw [Subsingleton.elim e (entropy 0)] at hrefused hy
      rw [assignLoop_refuse rfl hrefused] at h
      rw [hy]
      exact ih _ _ _ h
  · intro hterm
    generalize hx : (c, own) = x at hterm
    induction hterm generalizing c own entropy with
    | intro x _ ih =>
      subst hx
      rcases hc : P.choose own t c (entropy 0) with ⟨next, c', own'⟩
      by_cases hroom : At ta.HasRoom next
      · cases next with
        | none => exact hroom.elim
        | some s => exact ⟨1, by rw [assignLoop_accept hc hroom]; rfl⟩
      · have hretry : P.Retry t ta.HasRoom (c, own) (c', P.settle own' next) :=
          ⟨entropy 0, by rw [hc]; exact hroom, by rw [hc]⟩
        obtain ⟨fuel, hfuel⟩ := ih _ hretry (fun i => entropy (i + 1)) _ _ rfl
        exact ⟨fuel + 1, by rw [assignLoop_refuse hc hroom]; exact hfuel⟩

namespace ColorMinus

/-- A call returns exactly if, with its slot released, there is room on a stage with a positive
    estimate or on the first stage. -/
theorem returns_iff_finds (entropy : Nat → Unit) (t : Fin T) (stats : Stats n)
    (ta : ThreadAssignments n T) :
    (∃ fuel, ((chooser n T).nextStage fuel entropy t stats ta).isSome) ↔
      Finds (ta.removeCurrentAssignment t).2.HasRoom stats := by
  rcases Nat.eq_zero_or_pos n with rfl | hn
  · constructor
    · rintro ⟨fuel, h⟩
      obtain ⟨⟨s, _⟩, _⟩ := Option.isSome_iff_exists.mp h
      exact s.elim0
    · rintro (⟨s, _⟩ | ⟨s, _⟩) <;> exact s.elim0
  · rw [← terminates_retry_iff hn ()]
    exact exists_assignLoop_iff (P := chooser n T) entropy _ _ _

/-- Thread 1 is at the only place of stage 0.  Stage 1 is open, but no stage has an estimate. -/
theorem spins_at_first_stage :
    ∃ (stats : Stats 2) (ta : ThreadAssignments 2 2), ta.Counted ∧
      (∃ s, (ta.removeCurrentAssignment 0).2.HasRoom s) ∧
      ∀ fuel, (chooser 2 2).nextStage fuel (fun _ => ()) 0 stats ta = none := by
  let ta : ThreadAssignments 2 2 :=
    { threadAssignment := ![none, some 0], threadsPerStage := ![1, 0],
      maximumConcurrency := ![1, 1] }
  refine ⟨MessageCount.reset, ta, ⟨by decide, by decide⟩, ⟨1, by decide⟩, fun fuel => ?_⟩
  have hnone : ¬ Finds (ta.removeCurrentAssignment 0).2.HasRoom (MessageCount.reset : Stats 2) := by
    rintro (⟨s, _, hpos⟩ | ⟨first, hfirst, hroom⟩)
    · exact absurd hpos (by simp [MessageCount.estimatedDepth, MessageCount.reset])
    · have hclosed : ¬ (ta.removeCurrentAssignment 0).2.HasRoom 0 := by decide
      exact hclosed ((Fin.ext hfirst : first = 0) ▸ hroom)
  rw [← terminates_retry_iff (by decide) (), ← exists_assignLoop_iff (P := chooser 2 2)
    (fun _ => ())] at hnone
  exact Option.not_isSome_iff_eq_none.mp fun h => hnone ⟨fuel, h⟩

end ColorMinus

end Wield
