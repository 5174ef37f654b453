import Wield.Schedulers.RoundRobin
import Wield.Schedulers.Serialised

/-!
# The order in which `RoundRobin` visits the stages

A call returns the first stage with room after the previous one.  So each call of a thread takes it
nearer to any given stage with room, until it is there; after as many calls as there are stages it
has been at the stage or has found it full.
-/

namespace Wield.RoundRobin

open Theory StageChooser

variable {n T : Nat} {concurrency : Fin n → SizeT} {t : Fin T} {s : Fin n}

/-- One of the calls of thread `t` in the run along the actions returns `s`, or finds `s` full once
    it has given up its own slot. -/
def Meets (concurrency : Fin n → SizeT) (σ : Serialised (chooser n T))
    (as : List (Serialised.Action (chooser n T))) (t : Fin T) (s : Fin n) : Prop :=
  ∃ before fuel entropy after σ', as = before ++ .nextStage t fuel entropy :: after ∧
    (serialised (chooser n T) concurrency).run σ before = some σ' ∧
    ((∃ own ta, (chooser n T).nextStage fuel entropy t σ'.own σ'.ta = some (s, own, ta)) ∨
      ¬ (σ'.ta.removeCurrentAssignment t).2.HasRoom s)

theorem Meets.cons {σ σ' : Serialised (chooser n T)} {a : Serialised.Action (chooser n T)}
    {as : List (Serialised.Action (chooser n T))}
    (hs : (serialised (chooser n T) concurrency).step σ a = some σ')
    (h : Meets concurrency σ' as t s) : Meets concurrency σ (a :: as) t s := by
  obtain ⟨before, fuel, entropy, after, σ'', rfl, hrun, hmeets⟩ := h
  refine ⟨a :: before, fuel, entropy, after, σ'', rfl, ?_, hmeets⟩
  rw [Lts.run, hs]
  exact hrun

/-- A call that neither returns `s` nor finds it full takes the thread nearer to `s`. -/
theorem upFrom_lt_of_nextStage (hn : n < 2 ^ 64) {fuel : Nat} {entropy : Nat → Unit}
    {own own' : Unit} {ta ta' : ThreadAssignments n T} {r : Fin n}
    (h : (chooser n T).nextStage fuel entropy t own ta = some (r, own', ta')) (hne : r ≠ s)
    (hroom : (ta.removeCurrentAssignment t).2.HasRoom s) :
    upFrom (ta'.threadAssignment t) s < upFrom (ta.threadAssignment t) s := by
  have hrank := (incrementStage_countsUp hn).ranks
  have hmin := (minimalFor_iff_forall_lt.mp (minimalFor_of_nextStage_walk hrank h)).2
  have hle : upFrom (ta.threadAssignment t) r ≤ upFrom (ta.threadAssignment t) s := by
    apply Nat.le_of_not_lt
    intro hlt
    exact hmin hlt hroom
  rw [(nextStage_moves h).assigned]
  exact hrank.lt_of_lt (lt_of_le_of_ne hle fun heq => hne (hrank.injective _ heq))

/-- A thread that calls more often than there are stages between it and `s` meets `s`. -/
theorem meets_of_countP (hn : n < 2 ^ 64) {σ σ' : Serialised (chooser n T)}
    {as : List (Serialised.Action (chooser n T))}
    (hrun : (serialised (chooser n T) concurrency).run σ as = some σ')
    (hcalls : upFrom (σ.ta.threadAssignment t) s < as.countP (Serialised.Action.calls t)) :
    Meets concurrency σ as t s := by
  induction as generalizing σ with
  | nil => exact absurd hcalls (Nat.not_lt_zero _)
  | cons a as ih =>
    simp only [Lts.run, Option.bind_eq_some_iff] at hrun
    obtain ⟨σ₁, hs, hrun⟩ := hrun
    cases ha : a.calls t with
    | false =>
      -- an action of somebody else leaves the thread where it is
      apply Meets.cons hs
      apply ih hrun
      rw [Serialised.step_threadAssignment hs ha]
      rwa [List.countP_cons_of_neg (by simp [ha])] at hcalls
    | true =>
      cases a with
      | nextStage u fuel entropy =>
        have hu : u = t := of_decide_eq_true ha
        subst u
        obtain ⟨⟨r, own, ta⟩, hnext, rfl⟩ := Option.map_eq_some_iff.mp hs
        by_cases hroom : (σ.ta.removeCurrentAssignment t).2.HasRoom s
        · by_cases hr : r = s
          · subst r
            exact ⟨[], fuel, entropy, as, σ, rfl, rfl, .inl ⟨own, ta, hnext⟩⟩
          · apply Meets.cons hs
            apply ih hrun
            have hlt := upFrom_lt_of_nextStage hn hnext hr hroom
            rw [List.countP_cons_of_pos ha] at hcalls
            dsimp only
            omega
        · exact ⟨[], fuel, entropy, as, σ, rfl, rfl, .inr hroom⟩
      | _ => cases ha

/-- A call returns the first stage with room in the cyclic order after the thread's previous stage,
    and in every stretch of a run with as many calls of a thread as there are stages, each stage is
    returned to that thread or full when it looks. -/
theorem skips_only_full (hn : n < 2 ^ 64) :
    (∀ (ta : ThreadAssignments n T) (t : Fin T),
      (∃ s, (ta.removeCurrentAssignment t).2.HasRoom s) → ∃ s ta',
        (∀ entropy, (chooser n T).nextStage n entropy t () ta = some (s, (), ta')) ∧
        MinimalFor (ta.removeCurrentAssignment t).2.HasRoom (upFrom (ta.threadAssignment t)) s ∧
        ta.Moves t s ta') ∧
    ∀ (concurrency : Fin n → SizeT) (σ σ' : Serialised (chooser n T))
      (as : List (Serialised.Action (chooser n T))) (t : Fin T),
      (serialised (chooser n T) concurrency).run σ as = some σ' →
        n ≤ as.countP (Serialised.Action.calls t) → ∀ s, Meets concurrency σ as t s := by
  have hrank := (incrementStage_countsUp hn).ranks
  refine ⟨fun ta t hroom => exists_nextStage_walk hrank () hroom, ?_⟩
  intro concurrency σ σ' as t hrun hcalls s
  exact meets_of_countP hn hrun ((hrank.lt _ s).trans_le hcalls)

/-- Two threads, three stages with one place each; thread 0 has three calls and thread 1 one. -/
theorem skips_only_full_three :
    (∃ s ta', (∀ entropy, (chooser 3 2).nextStage 3 entropy 0 ()
        (ThreadAssignments.init fun _ => 1) = some (s, (), ta')) ∧ s = 0) ∧
      ∀ s, Meets (fun _ => 1) (n := 3) (T := 2)
        { own := (), ta := ThreadAssignments.init fun _ => 1 }
        [.nextStage 0 3 fun _ => (), .nextStage 1 3 fun _ => (), .nextStage 0 3 fun _ => (),
          .nextStage 0 3 fun _ => ()] 0 s := by
  obtain ⟨hcall, hwindow⟩ := skips_only_full (n := 3) (T := 2) (by decide)
  constructor
  · obtain ⟨s, ta', hs, hmin, _⟩ := hcall (ThreadAssignments.init fun _ => 1) 0 ⟨0, by decide⟩
    refine ⟨s, ta', hs, ?_⟩
    have hle := hmin.2 (j := 0) (by decide) (Nat.zero_le _)
    exact Fin.ext (Nat.le_zero.mp hle)
  · exact hwindow _ _ _ _ 0 rfl (by decide)

end Wield.RoundRobin
