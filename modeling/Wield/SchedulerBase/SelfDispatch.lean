import Wield.SchedulerBase.Deliveries
import Wield.SchedulerBase.Observes
import Wield.SchedulerBase.Stopping

/-!
# Stages that dispatch to themselves

A batch lasts until a poll finds nothing, and `done()` is only read between two batches.  At a stage
whose functor dispatches something to its own stage for every message there is always a message on
its way back, so that the batch of some thread goes on for ever, whatever is stopped.
-/

namespace Wield.SchedulerBase

open Theory

variable {n T C : Nat} {M : SchedulingPolicy n T} {A : Application n} {σ σ' : State M A C}
  {a : Action M A C} {s : Fin n}

/-- The thread is in the batch loop of the stage. -/
def Pc.InBatch (stage : Fin n) : Pc M A → Prop
  | .poll s | .running s _ _ | .pushed s _ _ _ => s = stage
  | .loop | .nextStage _ | .batchEnd _ _ | .exited => False

/-- A thread in the batch loop of the stage has a message before it or has yet to dispatch one
    there. -/
def Fed (s : Fin n) (σ : State M A C) : Prop :=
  ∃ t, (σ.pc t).InBatch s ∧ (σ.queue s ≠ [] ∨ s ∈ (σ.pc t).todo.map Prod.fst)

/-- While a message waits, nobody leaves the batch loop. -/
theorem Step.inBatch (hA : A.mayThrow = false) (hs : Step σ a σ') (hq : σ.queue s ≠ []) {t : Fin T}
    (h : (σ.pc t).InBatch s) : (σ'.pc t).InBatch s := by
  have move : ∀ {u pc pc'}, σ.pc u = pc → σ'.pc = Function.update σ.pc u pc' →
      (pc.InBatch s → pc'.InBatch s) → (σ'.pc t).InBatch s := by
    intro u pc pc' hpc hpc' hstays
    rw [hpc']
    by_cases htu : t = u
    · subst u
      rw [Function.update_self]
      rw [hpc] at h
      exact hstays h
    · rw [Function.update_of_ne htu]
      exact h
  cases hs with
  | throw u s' m todo hthrow hpc => cases hA.symm.trans hthrow
  | clientPush c target m hc he | clientDone c target hc | stop => exact h
  | empty u e v s' hpc hq' =>
    refine move hpc rfl fun heq => absurd hq' ?_
    obtain rfl : s' = s := heq
    exact hq
  | pop u e v s' m rest hpc hq' => exact move hpc rfl id
  | push u e v s' m target m' todo hpc => exact move hpc rfl id
  | account u e v s' m target todo hpc => exact move hpc rfl id
  | returns u e v s' m hpc => exact move hpc rfl id
  | leave u e v hpc hd => exact move hpc rfl False.elim
  | enter u e v hpc hd => exact move hpc rfl False.elim
  | call u e v p policy p' hpc hr => exact move hpc rfl False.elim
  | visit u e v p policy s' hpc hr => exact move hpc rfl False.elim
  | batchEnd u e v s' info hpc => exact move hpc rfl False.elim

/-- A thread with a dispatch to the stage of its own batch makes it or goes on to it. -/
theorem Step.owes (hA : A.mayThrow = false) (hs : Step σ a σ') {t : Fin T}
    (h : (σ.pc t).InBatch s) (htodo : s ∈ (σ.pc t).todo.map Prod.fst) :
    (σ'.pc t).InBatch s ∧ (σ'.queue s ≠ [] ∨ s ∈ (σ'.pc t).todo.map Prod.fst) := by
  have move : ∀ {u pc pc'}, σ.pc u = pc → σ'.pc = Function.update σ.pc u pc' →
      (pc.InBatch s → s ∈ pc.todo.map Prod.fst →
        pc'.InBatch s ∧ (σ'.queue s ≠ [] ∨ s ∈ pc'.todo.map Prod.fst)) →
      (σ'.pc t).InBatch s ∧ (σ'.queue s ≠ [] ∨ s ∈ (σ'.pc t).todo.map Prod.fst) := by
    intro u pc pc' hpc hpc' hstays
    rw [hpc']
    by_cases htu : t = u
    · subst u
      rw [Function.update_self]
      rw [hpc] at h htodo
      exact hstays h htodo
    · rw [Function.update_of_ne htu]
      exact ⟨h, .inr htodo⟩
  cases hs with
  | throw u s' m todo hthrow hpc => cases hA.symm.trans hthrow
  | clientPush c target m hc he | clientDone c target hc | stop => exact ⟨h, .inr htodo⟩
  | push u e v s' m target m' todo hpc =>
    refine move hpc rfl fun hin hmem => ⟨hin, ?_⟩
    rcases List.mem_cons.mp hmem with heq | hmem
    · left
      obtain rfl : s = target := heq
      rw [State.setPc_queue, State.forward_queue, State.push_queue, Function.update_self]
      exact List.append_ne_nil_of_right_ne_nil _ (List.cons_ne_nil m' [])
    · exact .inr hmem
  | account u e v s' m target todo hpc => exact move hpc rfl fun hin hmem => ⟨hin, .inr hmem⟩
  | leave u e v hpc hd => exact move hpc rfl fun _ hmem => absurd hmem List.not_mem_nil
  | enter u e v hpc hd => exact move hpc rfl fun _ hmem => absurd hmem List.not_mem_nil
  | call u e v p policy p' hpc hr => exact move hpc rfl fun _ hmem => absurd hmem List.not_mem_nil
  | visit u e v p policy s' hpc hr => exact move hpc rfl fun _ hmem => absurd hmem List.not_mem_nil
  | pop u e v s' m rest hpc hq' => exact move hpc rfl fun _ hmem => absurd hmem List.not_mem_nil
  | empty u e v s' hpc hq' => exact move hpc rfl fun _ hmem => absurd hmem List.not_mem_nil
  | returns u e v s' m hpc => exact move hpc rfl fun _ hmem => absurd hmem List.not_mem_nil
  | batchEnd u e v s' info hpc => exact move hpc rfl fun _ hmem => absurd hmem List.not_mem_nil

/-- Whoever pops a message there has another one to dispatch. -/
theorem fed_of_pop (hself : ∀ m v, s ∈ (A.functor s m v).map Prod.fst) (σ : State M A C)
    (t : Fin T) (v : A.Env) (m : A.Message) (rest : List A.Message) :
    Fed s ((σ.pop s m rest).setPc t (.running s m (A.functor s m v))) := by
  refine ⟨t, ?_⟩
  rw [State.setPc_pc, Function.update_self]
  exact ⟨rfl, .inr (hself m v)⟩

theorem Fed.step (hA : A.mayThrow = false)
    (hself : ∀ m v, s ∈ (A.functor s m v).map Prod.fst) (h : Fed s σ) (hs : Step σ a σ') :
    Fed s σ' := by
  obtain ⟨t, hin, hq | htodo⟩ := h
  · have hstays := hs.inBatch hA hq hin
    cases hs with
    | pop u e v s' m rest hpc hq' =>
      by_cases hss : s = s'
      · subst s'
        exact fed_of_pop hself σ u v m rest
      · refine ⟨t, hstays, .inl ?_⟩
        rw [State.setPc_queue, State.pop_queue, Function.update_of_ne hss]
        exact hq
    | push u e v s' m target m' todo hpc =>
      have hs : Step σ (.thread u e v) _ := .push u e v s' m target m' todo hpc
      exact ⟨t, hstays, .inl (hs.queue_ne_nil rfl s hq)⟩
    | clientPush c target m hc he =>
      have hs : Step σ (.push c target m) _ := .clientPush c target m hc he
      exact ⟨t, hstays, .inl (hs.queue_ne_nil rfl s hq)⟩
    | _ => exact ⟨t, hstays, .inl hq⟩
  · exact ⟨t, hs.owes hA hin htodo⟩

/-- From the first message on that is processed there. -/
theorem fed_invariant (hA : A.mayThrow = false)
    (hself : ∀ m v, s ∈ (A.functor s m v).map Prod.fst) :
    (system M A C).Invariant fun σ => σ.popped s ≠ [] → Fed s σ where
  init σ h hpopped := absurd (h.popped s) hpopped
  step σ a σ' h hs hpopped := by
    have hs := step_inv hs
    by_cases hbefore : σ.popped s = []
    · cases hs with
      | pop u e v s' m rest hpc hq =>
        by_cases hss : s = s'
        · subst s'
          exact fed_of_pop hself σ u v m rest
        · rw [State.setPc_popped, State.pop_popped, Function.update_of_ne hss] at hpopped
          exact absurd hbefore hpopped
      | _ => exact absurd hbefore hpopped
    · exact (h hbefore).step hA hself hs

/-- What has been popped stays popped. -/
theorem Step.popped_ne_nil (hs : Step σ a σ') (h : σ.popped s ≠ []) : σ'.popped s ≠ [] := by
  cases hs with
  | pop u e v s' m rest hpc hq =>
    rw [State.setPc_popped, State.pop_popped]
    by_cases hss : s = s'
    · subst s'
      rw [Function.update_self]
      exact List.append_ne_nil_of_right_ne_nil _ (List.cons_ne_nil m [])
    · rw [Function.update_of_ne hss]
      exact h
  | _ => exact h

/-- If the functor of a stage dispatches something to its own stage whatever it processes, then once
    the stage has processed a message, some thread is in its batch loop after every further run, and
    can go on there.  `stop()` changes nothing, so that `join()` does not return. -/
theorem selfDispatch_never_left (M : SchedulingPolicy n T) (A : Application n)
    (hA : A.mayThrow = false) (s : Fin n) (hself : ∀ m v, s ∈ (A.functor s m v).map Prod.fst)
    {σ : State M A C} (hσ : (system M A C).Reachable σ) (hpopped : σ.popped s ≠ [])
    {as : List (Action M A C)} {σ' : State M A C} (hrun : (system M A C).run σ as = some σ') :
    ∃ t, (σ'.pc t).InBatch s ∧ ∀ e v, threadStep σ' t e v ≠ none := by
  have hkeep : ∀ σ a σ', σ.popped s ≠ [] → (system M A C).step σ a = some σ' →
      σ'.popped s ≠ [] := fun _ _ _ hpopped hs => (step_inv hs).popped_ne_nil hpopped
  obtain ⟨t, hin, _⟩ := (fed_invariant hA hself).holds (hσ.run hrun)
    (Lts.run_preserves hkeep hpopped hrun)
  refine ⟨t, hin, fun e v hnone => ?_⟩
  rw [threadStep_eq_none hnone] at hin
  exact hin

/-- A stage that sends each message on to itself. -/
def echo : Application 1 where
  Message := Nat
  Env := Unit
  env := ()
  functor s m _ := [(s, m)]
  mayThrow := false
  entry _ := true

theorem selfDispatch_never_left_echo :
    ∃ σ : State (ThreadPerStage 1) echo 1, (system (ThreadPerStage 1) echo 1).Reachable σ ∧
      σ.done = true ∧ ∃ t, (σ.pc t).InBatch 0 ∧ ∀ e v, threadStep σ t e v ≠ none := by
  let σ₀ : State (ThreadPerStage 1) echo 1 := State.fresh ()
  obtain ⟨σ, hrun, hpopped⟩ : ∃ σ, (system (ThreadPerStage 1) echo 1).run σ₀
      (.push 0 0 (7 : Nat) :: List.replicate 4 (.thread 0 () ())) = some σ ∧ σ.popped 0 ≠ [] :=
    ⟨_, rfl, by decide⟩
  have hσ := (Lts.Reachable.init (State.fresh_initial trivial : Initial σ₀)).run hrun
  obtain ⟨σ', hstop, hdone⟩ : ∃ σ', (system (ThreadPerStage 1) echo 1).run σ [.stop] = some σ' ∧
      σ'.done = true := ⟨_, rfl, rfl⟩
  exact ⟨σ', hσ.run hstop, hdone, selfDispatch_never_left (ThreadPerStage 1) echo rfl 0
    (fun _ _ => List.mem_singleton.mpr rfl) hσ hpopped hstop⟩

end Wield.SchedulerBase
