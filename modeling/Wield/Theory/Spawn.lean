import Mathlib.Algebra.BigOperators.Group.Multiset.Basic
import Mathlib.Data.Multiset.MapFold
import Mathlib.Tactic.Abel

/-!
# Items that spawn items

Handling an item spawns a list of further items, and no item descends from itself.  A pool of
pending items that is worked off in any order handles the same items in the end: `total` adds a
value over an item and all its descendants, and what a pool has handled plus the totals of what is
pending does not change.
-/

namespace Theory

variable {α : Type*} {M : Type*} [AddCommMonoid M]

/-- What each item spawns; the descent is well-founded. -/
structure Spawning (α : Type*) where
  children : α → List α
  wf : WellFounded fun b a => b ∈ children a

namespace Spawning

variable (S : Spawning α) (base : α → M)

/-- The sum of `base` over an item and its descendants, with multiplicity. -/
noncomputable def total : α → M :=
  S.wf.fix fun a rec => base a + ((S.children a).attach.map fun b => rec b.1 b.2).sum

theorem total_eq (a : α) :
    S.total base a = base a + ((S.children a).map (S.total base)).sum := by
  rw [total, WellFounded.fix_eq]
  have hattach : (S.children a).attach.map (fun b => S.total base b.1) =
      (S.children a).map (S.total base) := List.attach_map_val
  exact congrArg (fun l => base a + l.sum) hattach

/-- Items that have been handled, and items that wait. -/
structure Pool (α : Type*) where
  done : Multiset α
  pending : Multiset α

/-- Take any pending item, handle it, and add what it spawns. -/
inductive Pool.Step (S : Spawning α) : Pool α → Pool α → Prop where
  | take (done pending : Multiset α) (a : α) :
      Pool.Step S ⟨done, a ::ₘ pending⟩ ⟨done + {a}, pending + (S.children a : Multiset α)⟩

/-- All that has been or will be handled. -/
noncomputable def Pool.all (S : Spawning α) (pool : Pool α) : Multiset α :=
  pool.done + (pool.pending.map (S.total fun a => {a})).sum

theorem Pool.Step.all_eq {S : Spawning α} {pool pool' : Pool α} (h : Pool.Step S pool pool') :
    pool'.all S = pool.all S := by
  obtain ⟨done, pending, a⟩ := h
  simp only [Pool.all, Multiset.map_add, Multiset.sum_add, Multiset.map_cons, Multiset.sum_cons,
    Multiset.map_coe, Multiset.sum_coe]
  -- the total of `a` is `a` itself, now done, and the totals of its children, now pending
  rw [S.total_eq (fun a => ({a} : Multiset α)) a]
  abel

/-- What is added to a pool brings its descendants along. -/
theorem Pool.all_add (done pending more : Multiset α) : Pool.all S ⟨done, pending + more⟩ =
    Pool.all S ⟨done, pending⟩ + (more.map (S.total fun a => {a})).sum := by
  rw [Pool.all, Pool.all, Multiset.map_add, Multiset.sum_add, add_assoc]

/-- When nothing is pending, all has been handled. -/
theorem Pool.all_of_finished {pool : Pool α} (h : pool.pending = 0) : pool.all S = pool.done := by
  rw [Pool.all, h, Multiset.map_zero, Multiset.sum_zero, add_zero]

/-- What is pending will be handled. -/
theorem Pool.mem_all_of_pending {pool : Pool α} {a : α} (h : a ∈ pool.pending) :
    a ∈ pool.all S := by
  obtain ⟨rest, hrest⟩ := Multiset.exists_cons_of_mem h
  rw [Pool.all, hrest, Multiset.map_cons, Multiset.sum_cons, S.total_eq]
  simp only [Multiset.mem_add, Multiset.mem_singleton, true_or, or_true]

end Spawning

end Theory
