import Mathlib.Order.Filter.AtTopBot.Basic
import Wield.Theory.Lts

/-!
# Infinite executions

An execution takes a step at every moment.  Several agents share a system; an execution is fair if
each of them acts again and again.  The rule for progress, `Fair.leadsTo`, is for one agent: a
number that never rises and falls whenever the agent acts is spent at some moment.

A system may be one of several that share their state.  It is then looked at `among` the others, of
whose steps only a relation is known.
-/

namespace Theory.Lts

open Filter

variable {S A ι : Type*} {L : Lts S A}

/-- The system among others, which take the steps that `rely` allows.  Such a step is named by the
    state it leads to. -/
noncomputable def among (L : Lts S A) (rely : S → S → Prop) : Lts S (A ⊕ S) where
  init := L.init
  step s := Sum.elim (L.step s) fun s' =>
    open scoped Classical in if rely s s' then some s' else none

section

variable {rely : S → S → Prop} {I : S → Prop} {s s' : S}

theorem among_step_inr {s'' : S} : (L.among rely).step s (.inr s') = some s'' ↔
    rely s s' ∧ s' = s'' := by
  classical
  show (if rely s s' then some s' else none) = some s'' ↔ _
  rw [Option.ite_none_right_eq_some, Option.some_inj]

/-- An invariant that the others respect. -/
theorem Invariant.among (hI : L.Invariant I) (hrely : ∀ s s', I s → rely s s' → I s') :
    (L.among rely).Invariant I where
  init := hI.init
  step s a s' hs hstep := by
    cases a with
    | inl a => exact hI.step s a s' hs hstep
    | inr r =>
      obtain ⟨hr, rfl⟩ := among_step_inr.mp hstep
      exact hrely s r hs hr

theorem Reachable.among (h : L.Reachable s) : (L.among rely).Reachable s := by
  induction h with
  | init h => exact .init h
  | step a _ hs ih => exact .step (.inl a) ih hs

end

/-- A run without end. -/
structure Execution (L : Lts S A) where
  state : Nat → S
  action : Nat → A
  step : ∀ i, L.step (state i) (action i) = some (state (i + 1))

namespace Execution

variable {ρ : L.Execution}

/-- Every agent acts again and again. -/
def Fair (ρ : L.Execution) (agent : A → Option ι) : Prop :=
  ∀ u, ∃ᶠ i in atTop, agent (ρ.action i) = some u

/-- What every step keeps holds at every moment. -/
theorem always (ρ : L.Execution) {I : S → Prop}
    (h : ∀ s a s', I s → L.step s a = some s' → I s') (hstart : I (ρ.state 0)) (i : Nat) :
    I (ρ.state i) := by
  induction i with
  | zero => exact hstart
  | succ i ih => exact h _ _ _ ih (ρ.step i)

/-- What grows and stays below a bound stops growing. -/
theorem exists_settled {f : Nat → Nat} {bound : Nat} (hmono : ∀ i, f i ≤ f (i + 1))
    (hbound : ∀ i, f i ≤ bound) : ∃ N, ∀ i, N ≤ i → f (i + 1) = f i := by
  -- the distance to the bound is least somewhere
  let N := Function.argmin fun i => bound - f i
  refine ⟨N, fun i hi => ?_⟩
  have hleast : bound - f N ≤ bound - f (i + 1) := Function.argmin_le (fun i => bound - f i) (i + 1)
  have hle : f N ≤ f i := monotone_nat_of_le_succ hmono hi
  have hstep := hmono i
  have hbelow := hbound (i + 1)
  omega

/-- While `P` holds and `Q` has not come, `f` does not rise, and each action of `u` lowers it.  Then
    `P` leads to `Q`. -/
theorem Fair.leadsTo {agent : A → Option ι} (hfair : ρ.Fair agent) (u : ι) {P Q : Nat → Prop}
    (f : Nat → Nat)
    (h : ∀ i, P i → Q (i + 1) ∨ P (i + 1) ∧ f (i + 1) ≤ f i ∧
      (agent (ρ.action i) = some u → f (i + 1) < f i)) {i : Nat} (hi : P i) :
    ∃ j, i < j ∧ Q j := by
  induction hk : f i using Nat.strong_induction_on generalizing i with
  | _ k ih =>
    subst hk
    by_contra hnever
    -- as long as `Q` does not come, `P` stays
    have hstays : ∀ j, i ≤ j → P j ∧ f j ≤ f i := by
      intro j hij
      induction j, hij using Nat.le_induction with
      | base => exact ⟨hi, le_rfl⟩
      | succ j hij ihj =>
        rcases h j ihj.1 with hq | ⟨hp, hle, _⟩
        · exact absurd ⟨j + 1, Nat.lt_succ_of_le hij, hq⟩ hnever
        · exact ⟨hp, hle.trans ihj.2⟩
    obtain ⟨j, hij, hact⟩ := frequently_atTop.mp (hfair u) i
    obtain ⟨hp, hle⟩ := hstays j hij
    rcases h j hp with hq | ⟨hp', _, hlt⟩
    · exact hnever ⟨j + 1, Nat.lt_succ_of_le hij, hq⟩
    · obtain ⟨m, hm, hq⟩ := ih (f (j + 1)) ((hlt hact).trans_le hle) hp' rfl
      exact hnever ⟨m, by omega, hq⟩

/-- What would be spent without end does not come. -/
theorem Fair.never {agent : A → Option ι} (hfair : ρ.Fair agent) (u : ι) {P : Nat → Prop}
    (f : Nat → Nat)
    (h : ∀ i, P i → P (i + 1) ∧ f (i + 1) ≤ f i ∧
      (agent (ρ.action i) = some u → f (i + 1) < f i)) (i : Nat) : ¬ P i := by
  intro hi
  obtain ⟨_, _, hfalse⟩ := hfair.leadsTo u (Q := fun _ => False) f (fun i hi => .inr (h i hi)) hi
  exact hfalse

/-- In a round of `k` turns each number comes again and again. -/
theorem exists_mod_eq {k : Nat} (u : Fin k) (i : Nat) : ∃ j, i ≤ j ∧ j % k = u := by
  refine ⟨i * k + u, ?_, ?_⟩
  · exact (Nat.le_mul_of_pos_right i (Fin.pos u)).trans (Nat.le_add_right _ _)
  · rw [Nat.mul_add_mod', Nat.mod_eq_of_lt u.isLt]

/-- Where every action of a sequence is always possible, the sequence is that of an execution. -/
theorem exists_of_enabled {I : S → Prop} (hI : ∀ s a s', I s → L.step s a = some s' → I s')
    (action : Nat → A) (henabled : ∀ i s, I s → (L.step s (action i)).isSome) {s : S} (hs : I s) :
    ∃ ρ : L.Execution, ρ.state 0 = s ∧ ρ.action = action := by
  let state : Nat → S := Nat.rec s fun i s => (L.step s (action i)).getD s
  have hstep : ∀ i, I (state i) → L.step (state i) (action i) = some (state (i + 1)) := by
    intro i hi
    obtain ⟨s', hs'⟩ := Option.isSome_iff_exists.mp (henabled i _ hi)
    show _ = some ((L.step (state i) (action i)).getD (state i))
    rw [hs', Option.getD_some]
  have hstate : ∀ i, I (state i) := by
    intro i
    induction i with
    | zero => exact hs
    | succ i ih => exact hI _ _ _ ih (hstep i ih)
  exact ⟨⟨state, action, fun i => hstep i (hstate i)⟩, rfl, rfl⟩

end Execution

end Theory.Lts
