import Wield.SchedulerBase.Slots

/-!
# A scheduler among others

Other schedulers may work at the same stages.  Their steps leave the threads of this one where they
are, and of its policy they change only what the dispatcher changes.
-/

namespace Wield.SchedulerBase

open StageChooser

variable {n T C : Nat} {A : Application n}

/-- What a scheduler sees of a step that is not its own. -/
structure Observes {M : SchedulingPolicy n T} (σ σ' : State M A C) : Prop where
  pc : σ'.pc = σ.pc
  done : σ'.done = σ.done
  policy : σ'.policy = σ.policy ∨ ∃ target, σ'.policy = M.dispatched σ.policy target
  queue : σ'.popped = σ.popped → ∀ s, σ.queue s ≠ [] → σ'.queue s ≠ []

section

variable {M : SchedulingPolicy n T} {σ σ' : State M A C} {a : Action M A C}

/-- A pop shows. -/
theorem popped_ne (s : Fin n) (m : A.Message) (rest : List A.Message) :
    (σ.pop s m rest).popped ≠ σ.popped := by
  intro hpopped
  have hlast := congrFun hpopped s
  rw [State.pop_popped, Function.update_self] at hlast
  exact List.cons_ne_nil m [] (List.append_right_eq_self.mp hlast)

/-- A queue from which nothing is popped does not become empty. -/
theorem Step.queue_ne_nil (hs : Step σ a σ') (hpopped : σ'.popped = σ.popped) (s : Fin n)
    (hq : σ.queue s ≠ []) : σ'.queue s ≠ [] := by
  have push : ∀ target (m : A.Message), (σ.push target m).queue s ≠ [] := by
    intro target m
    rw [State.push_queue]
    by_cases hst : s = target
    · subst s
      rw [Function.update_self]
      exact List.append_ne_nil_of_right_ne_nil _ (List.cons_ne_nil m [])
    · rw [Function.update_of_ne hst]
      exact hq
  cases hs with
  | pop t e v s' m rest hpc hq' => exact absurd hpopped (popped_ne s' m rest)
  | push t e v s' m target m' todo hpc => exact push target m'
  | clientPush c target m hc he => exact push target m
  | _ => exact hq

end

section

variable {P : StageChooser n T} {concurrency : Fin n → SizeT}
  {σ σ' : State (P.policy concurrency) A C}

theorem Observes.assignments (h : Observes σ σ') :
    σ'.policy.ta = σ.policy.ta ∧ σ'.policy.holding = σ.policy.holding := by
  rcases h.policy with hpolicy | ⟨target, hpolicy⟩
  · exact ⟨by rw [hpolicy], by rw [hpolicy]⟩
  · exact ⟨by rw [hpolicy], by rw [hpolicy]⟩

/-- What the dispatcher keeps of a policy's own data. -/
theorem Observes.own {V : P.State → Prop} (h : Observes σ σ')
    (hdispatched : ∀ own s, V own → V (P.dispatched own s)) (hown : V σ.policy.own) :
    V σ'.policy.own := by
  rcases h.policy with hpolicy | ⟨target, hpolicy⟩
  · rw [hpolicy]
    exact hown
  · rw [hpolicy]
    exact hdispatched _ target hown

theorem SlotInv.observes (hσ : SlotInv σ) (h : Observes σ σ') : SlotInv σ' :=
  hσ.of_policy h.pc h.assignments.1 h.assignments.2

end

end Wield.SchedulerBase
