import Wield.Schedulers.RoundRobin.Order
import Wield.Schedulers.SRPT.SearchOrder
import Wield.Utils.ThreadAssignments.Size

/-!
# How long `nextStage` searches

With no more slots than places, a thread that has given up its slot always finds a stage with room,
and a walk comes to it within as many rounds as there are stages.
-/

namespace Wield.StageChooser

open Theory ThreadAssignments

variable {n T : Nat} {concurrency : Fin n → SizeT}

/-- Between serialised calls there is a stage with room for any thread. -/
theorem Serialised.Inv.exists_hasRoom {P : StageChooser n T} {σ : Serialised P}
    (h : Serialised.Inv concurrency σ) (hsize : SizedByMap concurrency T) (t : Fin T) :
    ∃ s, (σ.ta.removeCurrentAssignment t).2.HasRoom s := by
  obtain ⟨hcounted, hnone⟩ := h.counted.removeCurrentAssignment t
  apply hcounted.exists_hasRoom hnone
  rw [removeCurrentAssignment_maximumConcurrency, h.limit]
  exact hsize.le_sum

/-- A walk over the stages returns within `n` rounds in every state between the calls. -/
theorem nextStage_isSome_walk {State : Type} {next : StageEnum n → StageEnum n}
    {start : State → StageEnum n → StageEnum n} {batchEnd : State → Bool → State}
    {init : (Fin n → SizeT) → State → Prop} {rank : StageEnum n → Fin n → Nat}
    (hrank : Ranks next rank) (hsize : SizedByMap concurrency T)
    {σ : Serialised (walk (T := T) State next start batchEnd init)}
    (hσ : (serialised (walk State next start batchEnd init) concurrency).Reachable σ) (t : Fin T)
    (entropy : Nat → Unit) :
    ((walk State next start batchEnd init).nextStage n entropy t σ.own σ.ta).isSome := by
  have hroom := (serialised_invariant.holds hσ).exists_hasRoom hsize t
  obtain ⟨s, ta', hs, _⟩ := exists_nextStage_walk hrank σ.own hroom
  rw [hs entropy]
  rfl

/-- `RoundRobin` and `SRPT` tables that are sized by the stages or by the concurrency map: every
    call returns within as many rounds as there are stages. -/
theorem nextStage_bounded (hn : n < 2 ^ 64) (hsize : SizedByMap concurrency T) :
    (∀ σ, (serialised (RoundRobin.chooser n T) concurrency).Reachable σ → ∀ t entropy,
      ((RoundRobin.chooser n T).nextStage n entropy t σ.own σ.ta).isSome) ∧
    ∀ σ, (serialised (SRPT.chooser n T) concurrency).Reachable σ → ∀ t entropy,
      ((SRPT.chooser n T).nextStage n entropy t σ.own σ.ta).isSome :=
  ⟨fun _ hσ => nextStage_isSome_walk (RoundRobin.incrementStage_countsUp hn).ranks hsize hσ,
    fun _ hσ => nextStage_isSome_walk (SRPT.decrementStage_countsDown hn).ranks hsize hσ⟩

/-- Two stages with two places and one; thread 0 has been at stage 0 of the `RoundRobin` policy. -/
theorem nextStage_bounded_three :
    ∃ σ : Serialised (RoundRobin.chooser 2 3),
      (serialised (RoundRobin.chooser 2 3) ![2, 1]).Reachable σ ∧
        σ.ta.threadAssignment 0 = some 0 ∧ ∀ t entropy,
          ((RoundRobin.chooser 2 3).nextStage 2 entropy t σ.own σ.ta).isSome := by
  obtain ⟨σ, hσ, hstage⟩ := Lts.exists_reachable_of_run
    (serialised (RoundRobin.chooser 2 3) ![2, 1])
    { own := (), ta := ThreadAssignments.init ![2, 1] } [.nextStage 0 2 fun _ => ()]
    (fun σ => σ.ta.threadAssignment 0 = some 0) ⟨rfl, trivial⟩ (by decide)
  exact ⟨σ, hσ, hstage,
    (nextStage_bounded (by decide) (.concurrency ![2, 1] (by decide))).1 σ hσ⟩

end Wield.StageChooser
