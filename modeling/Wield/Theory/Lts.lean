import Mathlib.Algebra.GroupWithZero.Nat
import Mathlib.Algebra.Order.Monoid.OrderDual
import Mathlib.Order.WellFounded

/-!
# Transition systems with an executable step function

A system is a set of initial states and a partial step function on labelled actions, so that a run
on a concrete list of actions can be evaluated.  The rules below are the ones every development
over such a system needs: an invariant from its base and step case, an invariant of the runs whose
steps satisfy a side condition, and `always_iff_steps`, which characterises the runs that keep a
property by the steps they take.
-/

namespace Theory

/-- Initial states, and the state an action leads to where it is enabled. -/
structure Lts (S A : Type*) where
  init : S → Prop
  step : S → A → Option S

namespace Lts

variable {S A : Type*} {L : Lts S A}

/-- The states a run of `L` can end in. -/
inductive Reachable (L : Lts S A) : S → Prop where
  | init {s : S} : L.init s → Reachable L s
  | step {s s' : S} (a : A) : Reachable L s → L.step s a = some s' → Reachable L s'

/-- Take the actions of a list in order. -/
def run (L : Lts S A) : S → List A → Option S
  | s, [] => some s
  | s, a :: as => (L.step s a).bind (run L · as)

/-- The same system with only the actions that pass `ok`. -/
def restrict (L : Lts S A) (ok : A → Bool) : Lts S A where
  init := L.init
  step s a := if ok a then L.step s a else none

/-- `I` holds initially and every step keeps it. -/
structure Invariant (L : Lts S A) (I : S → Prop) : Prop where
  init : ∀ s, L.init s → I s
  step : ∀ s a s', I s → L.step s a = some s' → I s'

/-- `X` holds in every state that the run along a list of actions visits. -/
def Always (L : Lts S A) (X : S → Prop) : S → List A → Prop
  | s, [] => X s
  | s, a :: as => X s ∧ ∀ s', L.step s a = some s' → Always L X s' as

/-- Every step that the run along a list of actions takes satisfies `good`. -/
def Steps (L : Lts S A) (good : S → A → Prop) : S → List A → Prop
  | _, [] => True
  | s, a :: as => ∀ s', L.step s a = some s' → good s a ∧ Steps L good s' as

theorem run_cons {s t : S} {a : A} (h : L.step s a = some t) (as : List A) :
    L.run s (a :: as) = L.run t as := by
  rw [run, h, Option.bind_some]

theorem Reachable.run {s s' : S} {as : List A} (hs : L.Reachable s) (h : L.run s as = some s') :
    L.Reachable s' := by
  induction as generalizing s with
  | nil => cases h; exact hs
  | cons a as ih =>
    simp only [Lts.run, Option.bind_eq_some_iff] at h
    obtain ⟨t, ht, hrun⟩ := h
    exact ih (.step a hs ht) hrun

/-- What every step keeps, a run keeps. -/
theorem run_preserves {I : S → Prop} (h : ∀ s a s', I s → L.step s a = some s' → I s') {s s' : S}
    {as : List A} (hs : I s) (hrun : L.run s as = some s') : I s' := by
  induction as generalizing s with
  | nil =>
    cases hrun
    exact hs
  | cons a as ih =>
    simp only [Lts.run, Option.bind_eq_some_iff] at hrun
    obtain ⟨t, ht, hrun⟩ := hrun
    exact ih (h s a t hs ht) hrun

/-- Where every step lowers `μ`, runs are no longer than `μ` of their first state. -/
theorem run_length_le (μ : S → Nat) (h : ∀ s a s', L.step s a = some s' → μ s' < μ s) {s s' : S}
    {as : List A} (hrun : L.run s as = some s') : as.length + μ s' ≤ μ s := by
  induction as generalizing s with
  | nil =>
    cases hrun
    exact Nat.le_of_eq (Nat.zero_add _)
  | cons a as ih =>
    simp only [Lts.run, Option.bind_eq_some_iff] at hrun
    obtain ⟨t, ht, hrun⟩ := hrun
    have hlt := h s a t ht
    have hle := ih hrun
    rw [List.length_cons]
    omega

/-- The sum of `f` over the steps that the run along a list of actions takes. -/
def sum {M : Type*} [Zero M] [Add M] (L : Lts S A) (f : S → A → M) : S → List A → M
  | _, [] => 0
  | s, a :: as =>
    match L.step s a with
    | some s' => f s a + sum L f s' as
    | none => 0

theorem sum_cons {M : Type*} [Zero M] [Add M] (f : S → A → M) {s t : S} {a : A}
    (h : L.step s a = some t) (as : List A) : L.sum f s (a :: as) = f s a + L.sum f t as := by
  rw [sum, h]

theorem sum_mul (f : S → A → Nat) (k : Nat) (s : S) (as : List A) :
    L.sum (fun s a => f s a * k) s as = L.sum f s as * k := by
  induction as generalizing s with
  | nil => exact (Nat.zero_mul k).symm
  | cons a as ih =>
    simp only [sum]
    split
    · rw [ih, Nat.add_mul]
    · exact (Nat.zero_mul k).symm

theorem sum_eq_zero {M : Type*} [AddMonoid M] {f : S → A → M}
    (h : ∀ s a s', L.step s a = some s' → f s a = 0) (s : S) (as : List A) :
    L.sum f s as = 0 := by
  induction as generalizing s with
  | nil => rfl
  | cons a as ih =>
    simp only [sum]
    split
    · rename_i s' hs
      rw [h s a s' hs, ih s', add_zero]
    · rfl

/-- What each step spends, `f`, is covered over a run by what each step takes in, `g`, and by what
    there was at the start. -/
theorem run_sum_le {M : Type*} [AddCommMonoid M] [PartialOrder M] [IsOrderedAddMonoid M]
    (μ : S → M) {f g : S → A → M} {I : S → Prop}
    (hI : ∀ s a s', I s → L.step s a = some s' → I s')
    (h : ∀ s a s', I s → L.step s a = some s' → μ s' + f s a ≤ μ s + g s a) {s s' : S}
    {as : List A} (hs : I s) (hrun : L.run s as = some s') :
    μ s' + L.sum f s as ≤ μ s + L.sum g s as := by
  induction as generalizing s with
  | nil =>
    cases hrun
    exact le_rfl
  | cons a as ih =>
    simp only [Lts.run, Option.bind_eq_some_iff] at hrun
    obtain ⟨t, ht, hrun⟩ := hrun
    rw [sum_cons f ht, sum_cons g ht]
    calc μ s' + (f s a + L.sum f t as)
        = μ s' + L.sum f t as + f s a := by rw [add_comm (f s a), add_assoc]
      _ ≤ μ t + L.sum g t as + f s a := add_le_add_left (ih (hI s a t hs ht) hrun) _
      _ = μ t + f s a + L.sum g t as := add_right_comm _ _ _
      _ ≤ μ s + g s a + L.sum g t as := add_le_add_left (h s a t hs ht) _
      _ = μ s + (g s a + L.sum g t as) := add_assoc _ _ _

theorem sum_one {s s' : S} {as : List A} (hrun : L.run s as = some s') :
    L.sum (fun _ _ => 1) s as = as.length := by
  induction as generalizing s with
  | nil => rfl
  | cons a as ih =>
    simp only [Lts.run, Option.bind_eq_some_iff] at hrun
    obtain ⟨t, ht, hrun⟩ := hrun
    rw [sum_cons _ ht, ih hrun, List.length_cons, Nat.add_comm]

/-- What only depends on the actions. -/
theorem sum_of_run {M : Type*} [AddMonoid M] (f : A → M) {s s' : S} {as : List A}
    (hrun : L.run s as = some s') : L.sum (fun _ a => f a) s as = (as.map f).sum := by
  induction as generalizing s with
  | nil => rfl
  | cons a as ih =>
    simp only [Lts.run, Option.bind_eq_some_iff] at hrun
    obtain ⟨t, ht, hrun⟩ := hrun
    rw [sum_cons _ ht, ih hrun, List.map_cons, List.sum_cons]

/-- Books that balance at each step balance over a run. -/
theorem run_sum_eq {M : Type*} [AddCommMonoid M] [PartialOrder M] [IsOrderedAddMonoid M]
    (μ : S → M) {f g : S → A → M}
    (h : ∀ s a s', L.step s a = some s' → μ s' + f s a = μ s + g s a) {s s' : S} {as : List A}
    (hrun : L.run s as = some s') : μ s' + L.sum f s as = μ s + L.sum g s as := by
  refine le_antisymm ?_ ?_
  · exact run_sum_le (I := fun _ => True) μ (fun _ _ _ _ _ => trivial)
      (fun s a s' _ hs => (h s a s' hs).le) trivial hrun
  · exact run_sum_le (M := Mᵒᵈ) (I := fun _ => True) μ (fun _ _ _ _ _ => trivial)
      (fun s a s' _ hs => (h s a s' hs).ge) trivial hrun

/-- A concrete run shows that a state with a decidable property is reachable. -/
theorem exists_reachable_of_run (L : Lts S A) (s : S) (as : List A) (p : S → Prop)
    [DecidablePred p] (hs : L.init s) (h : (L.run s as).any (fun s' => decide (p s')) = true) :
    ∃ s', L.Reachable s' ∧ p s' := by
  obtain ⟨s', hrun, hp⟩ := (Option.any_eq_true _ _).mp h
  exact ⟨s', (Reachable.init hs).run hrun, of_decide_eq_true hp⟩

theorem Invariant.holds {I : S → Prop} (hI : L.Invariant I) {s : S} (hs : L.Reachable s) : I s := by
  induction hs with
  | init h => exact hI.init _ h
  | step a _ h ih => exact hI.step _ a _ ih h

theorem restrict_step_eq_some {ok : A → Bool} {s s' : S} {a : A} :
    (L.restrict ok).step s a = some s' ↔ ok a = true ∧ L.step s a = some s' := by
  simp only [restrict, Option.ite_none_right_eq_some]

theorem Invariant.restrict {I : S → Prop} (hI : L.Invariant I) (ok : A → Bool) :
    (L.restrict ok).Invariant I where
  init := hI.init
  step s a s' h hs := hI.step s a s' h (restrict_step_eq_some.mp hs).2

theorem always_congr {I X Y : S → Prop} (hI : L.Invariant I) (h : ∀ s, I s → (X s ↔ Y s)) {s : S}
    (hs : I s) (as : List A) : L.Always X s as ↔ L.Always Y s as := by
  induction as generalizing s with
  | nil => exact h s hs
  | cons a as ih =>
    exact and_congr (h s hs) (forall₂_congr fun s' hs' => ih (hI.step s a s' hs hs'))

theorem steps_congr {I : S → Prop} {good good' : S → A → Prop} (hI : L.Invariant I)
    (h : ∀ s a, I s → (good s a ↔ good' s a)) {s : S} (hs : I s) (as : List A) :
    L.Steps good s as ↔ L.Steps good' s as := by
  induction as generalizing s with
  | nil => exact Iff.rfl
  | cons a as ih =>
    exact forall₂_congr fun s' hs' => and_congr (h s a hs) (ih (hI.step s a s' hs hs'))

theorem steps_of_invariant {I : S → Prop} {good : S → A → Prop} (hI : L.Invariant I)
    (h : ∀ s a, I s → good s a) {s : S} (hs : I s) (as : List A) : L.Steps good s as := by
  induction as generalizing s with
  | nil => trivial
  | cons a as ih => exact fun s' hs' => ⟨h s a hs, ih (hI.step s a s' hs hs')⟩

theorem Steps.of_run {good : S → A → Prop} {s s' s'' : S} {as bs : List A} {a : A}
    (h : L.Steps good s (as ++ a :: bs)) (hrun : L.run s as = some s')
    (hs : L.step s' a = some s'') : good s' a := by
  induction as generalizing s with
  | nil =>
    cases hrun
    exact (h s'' hs).1
  | cons b as ih =>
    simp only [Lts.run, Option.bind_eq_some_iff] at hrun
    obtain ⟨t, ht, hrun⟩ := hrun
    exact ih (h t ht).2 hrun

/-- Where a step from a state with `X` keeps `X` exactly if it is `good`, the runs that stay in `X`
    are exactly the ones that take only good steps. -/
theorem always_iff_steps {I X : S → Prop} {good : S → A → Prop} (hI : L.Invariant I)
    (hstep : ∀ s a s', I s → X s → L.step s a = some s' → (X s' ↔ good s a))
    {s : S} (hs : I s) (hX : X s) (as : List A) : L.Always X s as ↔ L.Steps good s as := by
  induction as generalizing s with
  | nil => simp only [Always, Steps, hX]
  | cons a as ih =>
    simp only [Always, Steps, hX, true_and]
    refine forall₂_congr fun s' hs' => ?_
    have hiff := hstep s a s' hs hX hs'
    have hs'I := hI.step s a s' hs hs'
    constructor
    · intro h
      have hX' : X s' := by
        cases as with
        | nil => exact h
        | cons _ _ => exact h.1
      exact ⟨hiff.mp hX', (ih hs'I hX').mp h⟩
    · rintro ⟨hgood, h⟩
      exact (ih hs'I (hiff.mpr hgood)).mpr h

end Lts

end Theory
