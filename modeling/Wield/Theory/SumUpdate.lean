import Mathlib.Algebra.BigOperators.Group.Finset.Basic
import Mathlib.Data.Fintype.Card

/-! # A sum over a function that is changed at one place -/

namespace Theory

variable {ι β M : Type*} [Fintype ι] [DecidableEq ι] [AddCommMonoid M]

theorem sum_update_add (g : ι → β → M) (f : ι → β) (i : ι) (v : β) :
    ∑ j, g j (Function.update f i v j) + g i (f i) = ∑ j, g j (f j) + g i v := by
  have hrest : ∑ j ∈ Finset.univ.erase i, g j (Function.update f i v j) =
      ∑ j ∈ Finset.univ.erase i, g j (f j) := by
    refine Finset.sum_congr rfl fun j hj => ?_
    rw [Function.update_of_ne (Finset.ne_of_mem_erase hj)]
  rw [← Finset.add_sum_erase _ _ (Finset.mem_univ i),
    ← Finset.add_sum_erase Finset.univ (fun j => g j (f j)) (Finset.mem_univ i), hrest,
    Function.update_self, add_right_comm, add_comm (g i v), add_right_comm]

end Theory
