import Mathlib.Algebra.BigOperators.Group.Finset.Piecewise
import Mathlib.Algebra.BigOperators.Group.Finset.Sigma
import Mathlib.Algebra.Order.BigOperators.Group.Finset
import Wield.Theory.SumUpdate

/-!
# Counting the holders of a resource

`tally f a` is the number of indices that `f` sends to `some a`.  A counter that is moved together
with `f` stays equal to it; `tally_update` is the only fact about cardinalities that such a proof
needs.
-/

namespace Theory

variable {ι α : Type*} [Fintype ι] [DecidableEq ι] [DecidableEq α]

/-- The number of indices that hold `a`. -/
def tally (f : ι → Option α) (a : α) : Nat :=
  (Finset.univ.filter fun i => f i = some a).card

omit [DecidableEq ι] in
theorem tally_eq_sum (f : ι → Option α) (a : α) :
    tally f a = ∑ i, if f i = some a then 1 else 0 := by
  rw [tally, Finset.card_filter]

theorem tally_update (f : ι → Option α) (i : ι) (v : Option α) (a : α) :
    tally (Function.update f i v) a + (if f i = some a then 1 else 0) =
      tally f a + (if v = some a then 1 else 0) := by
  rw [tally_eq_sum, tally_eq_sum]
  exact sum_update_add (fun _ held => if held = some a then 1 else 0) f i v

theorem tally_release {f : ι → Option α} {i : ι} {a : α} (h : f i = some a) (b : α) :
    tally (Function.update f i none) b + (if b = a then 1 else 0) = tally f b := by
  have hu := tally_update f i none b
  simp only [h, Option.some.injEq, reduceCtorEq, if_false, add_zero, eq_comm (a := a)] at hu
  exact hu

theorem tally_acquire {f : ι → Option α} {i : ι} (a : α) (h : f i = none) (b : α) :
    tally (Function.update f i (some a)) b = tally f b + (if b = a then 1 else 0) := by
  have hu := tally_update f i (some a) b
  simp only [h, Option.some.injEq, reduceCtorEq, if_false, add_zero, eq_comm (a := a)] at hu
  exact hu

omit [DecidableEq ι] in
theorem tally_pos {f : ι → Option α} {i : ι} {a : α} (h : f i = some a) : 0 < tally f a :=
  Finset.card_pos.mpr ⟨i, Finset.mem_filter.mpr ⟨Finset.mem_univ i, h⟩⟩

omit [DecidableEq ι] in
/-- At most one index holds a resource whose tally is at most one. -/
theorem holder_unique {f : ι → Option α} {a : α} (h : tally f a ≤ 1) {i j : ι}
    (hi : f i = some a) (hj : f j = some a) : i = j :=
  Finset.card_le_one.mp h i (Finset.mem_filter.mpr ⟨Finset.mem_univ i, hi⟩) j
    (Finset.mem_filter.mpr ⟨Finset.mem_univ j, hj⟩)

omit [DecidableEq ι] in
theorem tally_none (a : α) : tally (fun _ : ι => (none : Option α)) a = 0 := by
  simp [tally]

omit [DecidableEq ι] in
theorem tally_eq_zero {f : ι → Option α} {a : α} (h : ∀ i, f i ≠ some a) : tally f a = 0 := by
  rw [tally, Finset.card_eq_zero, Finset.filter_eq_empty_iff]
  exact fun i _ => h i

omit [DecidableEq ι] in
/-- If some index holds nothing, fewer resources are held than there are indices. -/
theorem sum_tally_lt [Fintype α] {f : ι → Option α} {i : ι} (h : f i = none) :
    ∑ a, tally f a < Fintype.card ι := by
  simp only [tally_eq_sum]
  rw [Finset.sum_comm, ← Finset.card_univ]
  -- an index holds at most one resource
  have hle : ∀ j, ∑ a, (if f j = some a then 1 else 0) ≤ if f j = none then 0 else 1 := by
    intro j
    cases hj : f j with
    | none => simp
    | some a => simp
  calc ∑ j, ∑ a, (if f j = some a then 1 else 0)
      ≤ ∑ j, (if f j = none then 0 else 1) := Finset.sum_le_sum fun j _ => hle j
    _ < ∑ _j : ι, 1 := by
        apply Finset.sum_lt_sum
        · intro j _
          split <;> omega
        · exact ⟨i, Finset.mem_univ i, by rw [if_pos h]; exact Nat.one_pos⟩
    _ = Finset.univ.card := by simp

omit [DecidableEq ι] in
/-- Dropping some holders changes no tally exactly if they held nothing. -/
theorem tally_mask_eq_iff (f : ι → Option α) (dropped : ι → Bool) :
    (∀ a, tally f a = tally (fun i => if dropped i then none else f i) a) ↔
      ∀ i, dropped i = true → f i = none := by
  constructor
  · intro h i hi
    cases hf : f i with
    | none => rfl
    | some a =>
      -- a dropped holder of `a` is missing from the second tally of `a`
      have hsub : (Finset.univ.filter fun j => (if dropped j then none else f j) = some a) ⊂
          Finset.univ.filter fun j => f j = some a := by
        refine Finset.ssubset_iff_of_subset (fun j hj => ?_) |>.mpr ⟨i, ?_, ?_⟩
        · simp only [Finset.mem_filter, Finset.mem_univ, true_and] at hj ⊢
          split at hj
          · cases hj
          · exact hj
        · simp only [Finset.mem_filter, Finset.mem_univ, true_and]
          exact hf
        · simp [hi]
      exact absurd (h a) (Nat.ne_of_gt (Finset.card_lt_card hsub))
  · intro h a
    have hmask : (fun i => if dropped i then none else f i) = f := by
      funext i
      split
      · rename_i hi
        exact (h i hi).symm
      · rfl
    rw [hmask]

end Theory
