import Wield.Schedulers.Slots
import Wield.Theory.Ranked

/-!
# How a thread comes to a stage

Inside `nextStage` a thread takes a bounded number of accesses from one choice of a stage to the
next, and while a stage stands empty that can be entered, its choice leads into it.  A thread of a
walking policy goes on in its walk with every choice, whatever the other threads do.
-/

namespace Wield.StageChooser

open Theory ThreadAssignments

variable {n T : Nat}

/-! ## Up to the next choice -/

/-- How many accesses a call takes at most until it chooses a stage; one that is about to return
    comes back after the batch and the test of `done()`, of three steps at least. -/
def Call.untilChoice {P : StageChooser n T} : P.Pc → Nat
  | .choose _ => 0
  | .start _ | .refused _ _ => 1
  | .clear _ => 2
  | .decrement _ => 3
  | .enter => 4
  | .assigned _ => 8
  | .record _ => 9
  | .exchange _ _ _ => 10
  | .load _ _ => 11

theorem Call.untilChoice_lt {P : StageChooser n T} {σ σ' : P.Shared} {t : Fin T} {e : P.Entropy}
    {p p' : P.Pc} (hp : ∀ c, p ≠ .choose c) (hr : Call.step σ t e p = (σ', .inl p')) :
    Call.untilChoice p' < Call.untilChoice p := by
  cases p with
  | enter =>
    simp only [Call.step] at hr
    split at hr
    · cases hr
      show 3 < 4
      omega
    · cases hr
      show 1 < 4
      omega
  | load next c =>
    cases next with
    | none =>
      cases hr
      show 1 < 11
      omega
    | some u =>
      simp only [Call.step] at hr
      split at hr
      · cases hr
        show 10 < 11
        omega
      · cases hr
        show 1 < 11
        omega
  | exchange u seen c =>
    simp only [Call.step] at hr
    split at hr
    · cases hr
      show 9 < 10
      omega
    · cases hr
      show 1 < 10
      omega
  | choose c => exact absurd rfl (hp c)
  | assigned u => cases hr
  | decrement u | clear u | start original | record u | refused next c =>
    cases hr
    exact Nat.lt_succ_self _

/-- A thread comes to hold a slot by the exchange only. -/
theorem Call.entered {P : StageChooser n T} {σ σ' : P.Shared} {t : Fin T} {e : P.Entropy}
    {p : P.Pc} {r : P.Pc ⊕ Fin n} {s : Fin n} (hr : Call.step σ t e p = (σ', r))
    (hbefore : σ.holding t ≠ some s) (hafter : σ'.holding t = some s) : r = .inl (.record s) := by
  cases p with
  | enter =>
    simp only [Call.step] at hr
    split at hr <;> cases hr <;> exact absurd hafter hbefore
  | decrement u =>
    cases hr
    simp only [Function.update_self, reduceCtorEq] at hafter
  | load next c =>
    cases next with
    | none =>
      cases hr
      exact absurd hafter hbefore
    | some u =>
      simp only [Call.step] at hr
      split at hr <;> cases hr <;> exact absurd hafter hbefore
  | exchange u seen c =>
    simp only [Call.step] at hr
    split at hr
    · cases hr
      simp only [Function.update_self, Option.some.injEq] at hafter
      rw [hafter]
    · cases hr
      exact absurd hafter hbefore
  | clear u | start original | choose c | record u | refused next c | assigned u =>
    cases hr
    exact absurd hafter hbefore

/-- Only the choice and the settling of a stage touch the policy's own data. -/
theorem Call.own_cases {P : StageChooser n T} {σ σ' : P.Shared} {t : Fin T} {e : P.Entropy}
    {p : P.Pc} {r : P.Pc ⊕ Fin n} (hr : Call.step σ t e p = (σ', r)) :
    σ'.own = σ.own ∨ (∃ c, p = .choose c ∧ σ'.own = (P.choose σ.own t c e).2.2) ∨
      ∃ next, σ'.own = P.settle σ.own next := by
  cases p with
  | choose c =>
    cases hr
    exact .inr (.inl ⟨c, rfl, rfl⟩)
  | refused next c =>
    cases hr
    exact .inr (.inr ⟨next, rfl⟩)
  | assigned u =>
    cases hr
    exact .inr (.inr ⟨some u, rfl⟩)
  | enter =>
    simp only [Call.step] at hr
    split at hr <;> cases hr <;> exact .inl rfl
  | load next c =>
    cases next with
    | none =>
      cases hr
      exact .inl rfl
    | some u =>
      simp only [Call.step] at hr
      split at hr <;> cases hr <;> exact .inl rfl
  | exchange u seen c =>
    simp only [Call.step] at hr
    split at hr <;> cases hr <;> exact .inl rfl
  | decrement u | clear u | start original | record u =>
    cases hr
    exact .inl rfl

/-- The thread tries `s`, and nobody is there as far as it has seen. -/
def Call.Entering {P : StageChooser n T} (s : Fin n) : P.Pc → Prop
  | .load next _ => next = some s
  | .exchange next seen _ => next = s ∧ seen = 0
  | .enter | .decrement _ | .clear _ | .start _ | .choose _ | .record _ | .refused _ _
  | .assigned _ => False

/-- A thread that tries an empty stage enters it. -/
theorem Call.Entering.step {P : StageChooser n T} {σ σ' : P.Shared} {t : Fin T} {e : P.Entropy}
    {s : Fin n} (hempty : σ.ta.threadsPerStage s = 0) (hroom : σ.ta.HasRoom s) {p p' : P.Pc}
    (h : Call.Entering s p) (hr : Call.step σ t e p = (σ', .inl p')) :
    Call.Entering s p' ∨ p' = .record s := by
  cases p with
  | load next c =>
    obtain rfl : next = some s := h
    simp only [Call.step] at hr
    split at hr
    · cases hr
      exact .inl ⟨rfl, hempty⟩
    · rename_i hfull
      exact absurd hroom hfull
  | exchange u seen c =>
    obtain ⟨rfl, rfl⟩ := h
    simp only [Call.step] at hr
    split at hr
    · cases hr
      exact .inr rfl
    · rename_i hfail
      rw [compareExchange, if_pos hempty] at hfail
      cases hfail
  | enter | decrement u | clear u | start original | choose c | record u | refused next c
  | assigned u => exact h.elim

/-- The stage that the call has chosen and not settled. -/
def Call.chosen {P : StageChooser n T} : P.Pc → StageEnum n
  | .load next _ | .refused next _ => next
  | .exchange next _ _ | .record next | .assigned next => some next
  | .enter | .decrement _ | .clear _ | .start _ | .choose _ => none

/-- An access other than a choice settles what was chosen or leaves it. -/
theorem Call.chosen_cases {P : StageChooser n T} {σ σ' : P.Shared} {t : Fin T} {e : P.Entropy}
    {p p' : P.Pc} (hp : ∀ c, p ≠ .choose c) (hr : Call.step σ t e p = (σ', .inl p')) :
    σ'.own = σ.own ∧ Call.chosen p' = Call.chosen p ∨
      σ'.own = P.settle σ.own (Call.chosen p) ∧ Call.chosen p' = none := by
  cases p with
  | choose c => exact absurd rfl (hp c)
  | refused next c =>
    cases hr
    exact .inr ⟨rfl, rfl⟩
  | assigned u => cases hr
  | enter =>
    simp only [Call.step] at hr
    split at hr <;> cases hr <;> exact .inl ⟨rfl, rfl⟩
  | load next c =>
    cases next with
    | none =>
      cases hr
      exact .inl ⟨rfl, rfl⟩
    | some u =>
      simp only [Call.step] at hr
      split at hr <;> cases hr <;> exact .inl ⟨rfl, rfl⟩
  | exchange u seen c =>
    simp only [Call.step] at hr
    split at hr <;> cases hr <;> exact .inl ⟨rfl, rfl⟩
  | decrement u | clear u | start original | record u =>
    cases hr
    exact .inl ⟨rfl, rfl⟩

section Walk

variable {State : Type} {next : StageEnum n → StageEnum n}
  {start : State → StageEnum n → StageEnum n} {batchEnd : State → Bool → State}
  {init : (Fin n → SizeT) → State → Prop}

/-- A walk leaves the policy's own data alone. -/
theorem Call.step_own {σ σ' : (walk (T := T) State next start batchEnd init).Shared} {t : Fin T}
    {e : Unit} {p : (walk (T := T) State next start batchEnd init).Pc}
    {r : (walk (T := T) State next start batchEnd init).Pc ⊕ Fin n}
    (hr : Call.step σ t e p = (σ', r)) : σ'.own = σ.own := by
  rcases Call.own_cases hr with hown | ⟨c, _, hown⟩ | ⟨next, hown⟩
  · exact hown
  · exact hown
  · exact hown

/-! ## The stages that are passed -/

/-- The walk is at the stage that is being tried. -/
def Call.AtCursor : (walk (T := T) State next start batchEnd init).Pc → Prop
  | .load next c | .refused next c => c = next
  | .exchange next _ c => c = some next
  | .enter | .decrement _ | .clear _ | .start _ | .choose _ | .record _ | .assigned _ => True

theorem Call.AtCursor.step {σ σ' : (walk (T := T) State next start batchEnd init).Shared}
    {t : Fin T} {e : Unit} {p p' : (walk (T := T) State next start batchEnd init).Pc}
    (h : Call.AtCursor p) (hr : Call.step σ t e p = (σ', .inl p')) : Call.AtCursor p' := by
  cases p with
  | enter =>
    simp only [Call.step] at hr
    split at hr <;> cases hr <;> trivial
  | choose c =>
    cases hr
    exact rfl
  | load next c =>
    cases next with
    | none =>
      cases hr
      exact h
    | some u =>
      simp only [Call.step] at hr
      split at hr <;> cases hr <;> exact h
  | exchange u seen c =>
    simp only [Call.step] at hr
    split at hr
    · cases hr
      trivial
    · cases hr
      exact h
  | assigned u => cases hr
  | decrement u | clear u | start original | record u | refused next c =>
    cases hr
    trivial

/-- Where a thread is in its walk, if `recorded` is its entry in the table of assignments. -/
def Call.cursor (recorded : StageEnum n) :
    (walk (T := T) State next start batchEnd init).Pc → StageEnum n
  | .enter => recorded
  | .start original => original
  | .choose c | .load _ c | .exchange _ _ c | .refused _ c => c
  | .decrement u | .clear u | .record u | .assigned u => some u

/-- An access other than the choice of a stage leaves the thread where it is. -/
theorem Call.cursor_eq {σ σ' : (walk (T := T) State next start batchEnd init).Shared} {t : Fin T}
    {e : Unit} (hstart : ∀ original, start σ.own original = original)
    {p p' : (walk (T := T) State next start batchEnd init).Pc} (hcursor : Call.AtCursor p)
    (hp : ∀ c, p ≠ .choose c) (hr : Call.step σ t e p = (σ', .inl p')) :
    Call.cursor (σ'.ta.threadAssignment t) p' = Call.cursor (σ.ta.threadAssignment t) p := by
  cases p with
  | choose c => exact absurd rfl (hp c)
  | enter =>
    simp only [Call.step] at hr
    split at hr
    · rename_i current hcurrent
      cases hr
      exact hcurrent.symm
    · rename_i hnone
      cases hr
      exact hnone.symm
  | start original =>
    cases hr
    exact hstart original
  | load next c =>
    cases next with
    | none =>
      cases hr
      rfl
    | some u =>
      simp only [Call.step] at hr
      split at hr <;> cases hr <;> rfl
  | exchange u seen c =>
    simp only [Call.step] at hr
    split at hr
    · cases hr
      exact (show c = some u from hcursor).symm
    · cases hr
      rfl
  | assigned u => cases hr
  | decrement u | clear u | record u | refused next c =>
    cases hr
    rfl

end Walk

end Wield.StageChooser
