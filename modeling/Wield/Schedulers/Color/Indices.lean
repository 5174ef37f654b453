import Wield.Schedulers.Indices

/-!
# The indices that `Color::nextStage` uses

An empty work queue makes `dequeNextStage` return the marker `NumberOfEntries`, which `nextStage`
hands on to `tryAssign` like a name.
-/

namespace Wield

open Theory StageChooser

variable {n T : Nat}

namespace Color

variable {concurrency : Fin n → SizeT} {t : Fin T}

/-- The step is not a pop from an empty work queue. -/
def PopsName (σ : Calls (chooser n T)) : Calls.Action (chooser n T) → Prop
  | .access t _ => ∀ cursor, σ.caller t = .inside (.choose cursor) → σ.shared.own ≠ []
  | _ => True

theorem inBounds_update {σ : Calls (chooser n T)} (h : σ.InBounds)
    (shared : (chooser n T).Shared) (caller : (chooser n T).Caller) :
    Calls.InBounds { shared := shared, caller := Function.update σ.caller t caller } ↔
      caller.InBounds := by
  unfold Calls.InBounds
  dsimp only
  rw [Function.forall_update_iff σ.caller fun _ caller => caller.InBounds]
  exact and_iff_left fun u _ => h u

/-- Only a pop can lead a thread out of bounds. -/
theorem inBounds_of_step (hn : n < 2 ^ 64) {σ σ' : (chooser n T).Shared} {e : Unit}
    {pc pc' : (chooser n T).Pc} (hpc : ∀ cursor, pc ≠ .choose cursor)
    (hs : Call.step σ t e pc = (σ', .inl pc')) : (Caller.inside pc').InBounds := by
  cases pc with
  | enter =>
    simp only [Call.step] at hs
    split at hs <;> cases hs
    · exact inBounds_some hn _
    · rfl
  | decrement current =>
    cases hs
    rfl
  | clear current =>
    cases hs
    rfl
  | start original =>
    cases hs
    rfl
  | choose cursor => exact absurd rfl (hpc cursor)
  | load next cursor =>
    cases next with
    | none =>
      cases hs
      rfl
    | some next =>
      simp only [Call.step] at hs
      split at hs <;> cases hs
      · exact inBounds_some hn _
      · rfl
  | exchange next seen cursor =>
    simp only [Call.step] at hs
    split at hs <;> cases hs <;> rfl
  | record next =>
    cases hs
    exact inBounds_some hn _
  | refused next cursor =>
    cases hs
    rfl
  | assigned next => cases hs

/-- A pop leads out of bounds exactly if it finds nothing. -/
theorem inBounds_choose_iff (hn : n < 2 ^ 64) (workQueue : List (Fin n)) (cursor : Unit) :
    (Caller.inside (P := chooser n T) (.load (dequeNextStage workQueue).1 cursor)).InBounds ↔
      workQueue ≠ [] := by
  cases workQueue with
  | nil =>
    simp only [ne_eq, not_true_eq_false, iff_false]
    intro h
    have hlt : (StageEnum.NumberOfEntries : StageEnum n).toSizeT.toNat < n := of_decide_eq_true h
    rw [StageEnum.toNat_toSizeT_none hn] at hlt
    exact absurd hlt (Nat.lt_irrefl n)
  | cons name workQueue =>
    simp only [ne_eq, reduceCtorEq, not_false_eq_true, iff_true]
    exact inBounds_some hn _

theorem inBounds_iff_popsName (hn : n < 2 ^ 64) {σ σ' : Calls (chooser n T)}
    {a : Calls.Action (chooser n T)} (h : σ.InBounds) (hs : Calls.step σ a = some σ') :
    σ'.InBounds ↔ PopsName σ a := by
  cases Calls.step_inv hs with
  | call t last hc =>
    rw [inBounds_update h]
    exact iff_of_true rfl trivial
  | goOn t e pc shared pc' hpc hstep =>
    rw [inBounds_update h]
    by_cases hchoose : ∃ cursor, pc = .choose cursor
    · obtain ⟨cursor, rfl⟩ := hchoose
      cases hstep
      rw [inBounds_choose_iff hn]
      exact ⟨fun hne _ _ => hne, fun hne => hne cursor hpc⟩
    · refine iff_of_true (inBounds_of_step hn (fun cursor hc => hchoose ⟨cursor, hc⟩) hstep) ?_
      intro cursor hc
      rw [hpc] at hc
      exact absurd ⟨cursor, Caller.inside.inj hc⟩ hchoose
  | returns t e pc shared stage hpc hstep =>
    rw [inBounds_update h]
    refine iff_of_true trivial fun cursor hc => ?_
    -- a pop does not end the call
    rw [hpc] at hc
    cases hc
    cases hstep
  | batchEnd hadMessage => exact iff_of_true h trivial
  | dispatched stageName => exact iff_of_true h trivial

/-- In a run of any number of threads, dispatches and batch ends, every access of `nextStage` is in
    bounds exactly if no thread pops from an empty work queue. -/
theorem inBounds_always_iff (hn : n < 2 ^ 64) {σ : Calls (chooser n T)}
    (hσ : Calls.Initial concurrency σ) (as : List (Calls.Action (chooser n T))) :
    (calls (chooser n T) concurrency).Always Calls.InBounds σ as ↔
      (calls (chooser n T) concurrency).Steps PopsName σ as := by
  have hinit : σ.InBounds := by
    intro t
    rw [hσ.caller t]
    trivial
  exact Lts.always_iff_steps (calls_invariant concurrency)
    (fun σ a σ' _ h hs => inBounds_iff_popsName hn h hs) ((calls_invariant concurrency).init σ hσ)
    hinit as

/-- A thread takes the name of the only dispatch. -/
theorem inBounds_always_iff_dispatched :
    (calls (chooser 2 1) fun _ => 1).Always Calls.InBounds
        { shared := .fresh (fun _ => 1) [], caller := fun _ => .outside none }
        (.dispatched 1 :: .call 0 :: List.replicate 7 (.access 0 ())) ↔
      (calls (chooser 2 1) fun _ => 1).Steps PopsName
        { shared := .fresh (fun _ => 1) [], caller := fun _ => .outside none }
        (.dispatched 1 :: .call 0 :: List.replicate 7 (.access 0 ())) :=
  inBounds_always_iff (by decide) ⟨rfl, fun _ => rfl, rfl, fun _ => rfl⟩ _

/-- A new policy and one thread: the first `tryAssign` is called with `NumberOfEntries`. -/
theorem index_out_of_bounds :
    ∃ σ : Calls (chooser 2 1), (calls (chooser 2 1) fun _ => 1).Reachable σ ∧ ¬ σ.InBounds :=
  Lts.exists_reachable_of_run (calls (chooser 2 1) fun _ => 1)
    { shared := .fresh (fun _ => 1) [], caller := fun _ => .outside none }
    [.call 0, .access 0 (), .access 0 (), .access 0 ()] (fun σ => ¬ σ.InBounds)
    ⟨rfl, fun _ => rfl, rfl, fun _ => rfl⟩ (by decide)

end Color

end Wield
