import Wield.SchedulerBase

/-!
# The steps of the scheduler, one constructor each

`step_inv` inverts the step function once; every invariant of the scheduler is proved by cases on
`Step`.
-/

namespace Wield.SchedulerBase

open ExhaustivePollingPolicy

variable {n T C : Nat} {M : SchedulingPolicy n T} {A : Application n}

@[simp] theorem afterProcess_true (s : Fin n) : (afterProcess s true : Pc M A) = .poll s := rfl

@[simp] theorem afterProcess_false (s : Fin n) :
    (afterProcess s false : Pc M A) = .batchEnd s ⟨false⟩ := rfl

theorem State.setPc_pc_cases {σ : State M A C} {t u : Fin T} {pc pc' : Pc M A}
    (h : (σ.setPc t pc).pc u = pc') : u = t ∧ pc = pc' ∨ u ≠ t ∧ σ.pc u = pc' := by
  rw [State.setPc_pc] at h
  by_cases hut : u = t
  · subst u
    rw [Function.update_self] at h
    exact .inl ⟨rfl, h⟩
  · rw [Function.update_of_ne hut] at h
    exact .inr ⟨hut, h⟩

theorem State.setPc_pc_of_ne (σ : State M A C) {t u : Fin T} (h : u ≠ t) (pc : Pc M A) :
    (σ.setPc t pc).pc u = σ.pc u := by
  rw [State.setPc_pc, Function.update_of_ne h]

/-- All that a step can do. -/
inductive Step (σ : State M A C) : Action M A C → State M A C → Prop where
  | leave (t e v) : σ.pc t = .loop → σ.done = true → Step σ (.thread t e v) (σ.setPc t .exited)
  | enter (t e v) : σ.pc t = .loop → σ.done = false →
      Step σ (.thread t e v) (σ.setPc t (.nextStage M.enter))
  | call (t e v p policy p') : σ.pc t = .nextStage p → M.step σ.policy t e p = (policy, .inl p') →
      Step σ (.thread t e v) ((σ.setPolicy policy).setPc t (.nextStage p'))
  | visit (t e v p policy s) : σ.pc t = .nextStage p → M.step σ.policy t e p = (policy, .inr s) →
      Step σ (.thread t e v) ((σ.setPolicy policy).setPc t (.poll s))
  | pop (t e v s m rest) : σ.pc t = .poll s → σ.queue s = m :: rest →
      Step σ (.thread t e v) ((σ.pop s m rest).setPc t (.running s m (A.functor s m v)))
  | empty (t e v s) : σ.pc t = .poll s → σ.queue s = [] →
      Step σ (.thread t e v) (σ.setPc t (.batchEnd s ⟨false⟩))
  | push (t e v s m target m' todo) : σ.pc t = .running s m ((target, m') :: todo) →
      Step σ (.thread t e v)
        (((σ.push target m').forward s m').setPc t (.pushed s m target todo))
  | account (t e v s m target todo) : σ.pc t = .pushed s m target todo →
      Step σ (.thread t e v)
        ((σ.setPolicy (M.dispatched σ.policy target)).setPc t (.running s m todo))
  | returns (t e v s m) : σ.pc t = .running s m [] → Step σ (.thread t e v) (σ.setPc t (.poll s))
  | batchEnd (t e v s info) : σ.pc t = .batchEnd s info →
      Step σ (.thread t e v)
        ((σ.setPolicy (M.batchEnd σ.policy info.hadMessage)).setPc t .loop)
  | throw (t s m todo) : A.mayThrow = true → σ.pc t = .running s m todo →
      Step σ (.throw t) (σ.setPc t .exited)
  | clientPush (c target m) : σ.client c = none → A.entry target = true →
      Step σ (.push c target m) ((σ.push target m).setClient c (some target))
  | clientDone (c target) : σ.client c = some target →
      Step σ (.dispatched c)
        ((σ.setPolicy (M.dispatched σ.policy target)).setClient c none)
  | stop : Step σ .stop { σ with done := true }

theorem step_inv {σ σ' : State M A C} {a : Action M A C} (h : step σ a = some σ') :
    Step σ a σ' := by
  cases a with
  | thread t e v =>
    simp only [step, threadStep] at h
    split at h
    case h_1 hpc =>
      cases h
      cases hd : σ.done with
      | true => exact .leave t e v hpc hd
      | false => exact .enter t e v hpc hd
    case h_2 p hpc =>
      split at h
      · rename_i policy p' hs
        cases h
        exact .call t e v p policy p' hpc hs
      · rename_i policy s hs
        cases h
        exact .visit t e v p policy s hpc hs
    case h_3 s hpc =>
      split at h
      · rename_i m rest hq
        cases h
        exact .pop t e v s m rest hpc hq
      · rename_i hq
        cases h
        exact .empty t e v s hpc hq
    case h_4 s m target m' todo hpc =>
      cases h
      exact .push t e v s m target m' todo hpc
    case h_5 s m hpc =>
      cases h
      exact .returns t e v s m hpc
    case h_6 s m target todo hpc =>
      cases h
      exact .account t e v s m target todo hpc
    case h_7 s info hpc =>
      cases h
      exact .batchEnd t e v s info hpc
    case h_8 => cases h
  | throw t =>
    simp only [step] at h
    split at h
    · rename_i s m todo hpc
      simp only [Option.ite_none_right_eq_some, Option.some.injEq] at h
      obtain ⟨hA, rfl⟩ := h
      exact .throw t s m todo hA hpc
    · cases h
  | push c target m =>
    simp only [step, Option.ite_none_right_eq_some, Option.some.injEq] at h
    obtain ⟨⟨hc, he⟩, rfl⟩ := h
    exact .clientPush c target m hc he
  | dispatched c =>
    simp only [step] at h
    split at h
    · rename_i target hc
      cases h
      exact .clientDone c target hc
    · cases h
  | stop =>
    cases h
    exact .stop

end Wield.SchedulerBase
