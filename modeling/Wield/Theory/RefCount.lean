import Mathlib.Logic.Function.Basic

/-!
# A heap of reference-counted objects

Objects are numbered in the order of their creation.  An object is deleted when its count is
lowered to 0; an access to an object that is not there sets `fault`.  `Counts` says that the heap
counts exactly the references that a program holds, and each operation of the heap has one rule
that says how it follows the program's references.
-/

namespace Theory

/-- The counts of the objects that exist, and the number of the next one. -/
structure RefHeap where
  count : Nat → Option Nat
  next : Nat
  fault : Bool

namespace RefHeap

variable (h : RefHeap)

def empty : RefHeap where
  count _ := none
  next := 0
  fault := false

/-- A new object, which starts at 0. -/
def new : RefHeap :=
  { h with count := Function.update h.count h.next (some 0), next := h.next + 1 }

def acquire (x : Nat) : RefHeap :=
  match h.count x with
  | some c => { h with count := Function.update h.count x (some (c + 1)) }
  | none => { h with fault := true }

/-- A new object and a first reference to it. -/
def alloc : RefHeap :=
  h.new.acquire h.next

def release (x : Nat) : RefHeap :=
  match h.count x with
  | some (c + 1) =>
    { h with count := Function.update h.count x (if c = 0 then none else some c) }
  | some 0 | none => { h with fault := true }

/-- Any other access. -/
def touch (x : Nat) : RefHeap :=
  if (h.count x).isSome then h else { h with fault := true }

/-- What the heap holds for an object with `k` references. -/
def stored (k : Nat) : Option Nat :=
  if k = 0 then none else some k

theorem stored_injective : Function.Injective stored := by
  intro k l h
  unfold stored at h
  split at h <;> split at h <;> simp_all

/-- The heap counts the references `refs`, and nothing has gone wrong. -/
structure Counts (h : RefHeap) (refs : Nat → Nat) : Prop where
  count : ∀ x, h.count x = stored (refs x)
  fresh : ∀ x, h.next ≤ x → refs x = 0
  fault : h.fault = false

variable {h} {refs refs' : Nat → Nat} {x : Nat}

theorem Counts.empty : Counts empty fun _ => 0 :=
  ⟨fun _ => rfl, fun _ _ => rfl, rfl⟩

theorem Counts.count_eq (hc : h.Counts refs) (hx : 0 < refs x) : h.count x = some (refs x) := by
  rw [hc.count, stored, if_neg (Nat.ne_of_gt hx)]

theorem Counts.congr (hc : h.Counts refs) (heq : ∀ y, refs' y = refs y) : h.Counts refs' :=
  (funext heq : refs' = refs) ▸ hc

theorem alloc_eq : h.alloc =
    { h with count := Function.update h.count h.next (some 1), next := h.next + 1 } := by
  simp [alloc, new, acquire]

/-- The new object is not one that is referenced already. -/
theorem Counts.alloc (hc : h.Counts refs)
    (heq : ∀ y, refs' y = refs y + if y = h.next then 1 else 0) : h.alloc.Counts refs' := by
  rw [alloc_eq]
  refine ⟨fun y => ?_, fun y hy => ?_, hc.fault⟩
  · rw [heq y]
    -- only the entry of the new object has changed
    by_cases hy : y = h.next
    · rw [hy, hc.fresh h.next (Nat.le_refl _)]
      simp [stored]
    · simp only [Function.update_of_ne hy, if_neg hy, Nat.add_zero]
      exact hc.count y
  · have hy' : h.next + 1 ≤ y := hy
    rw [heq y, hc.fresh y (by omega), if_neg (by omega)]

/-- A reference is only added to an object that is referenced. -/
theorem Counts.acquire (hc : h.Counts refs) (hx : 0 < refs x)
    (heq : ∀ y, refs' y = refs y + if y = x then 1 else 0) : (h.acquire x).Counts refs' := by
  -- an object with a reference has been created
  have hnext : x < h.next := by
    by_contra hle
    exact absurd (hc.fresh x (by omega)) (by omega)
  simp only [RefHeap.acquire, hc.count_eq hx]
  refine ⟨fun y => ?_, fun y hy => ?_, hc.fault⟩
  · rw [heq y]
    by_cases hy : y = x
    · subst y
      simp [stored]
    · simp only [Function.update_of_ne hy, if_neg hy, Nat.add_zero]
      exact hc.count y
  · have hy' : h.next ≤ y := hy
    rw [heq y, hc.fresh y hy', if_neg (by omega)]

/-- The last reference takes the object with it. -/
theorem Counts.release (hc : h.Counts refs)
    (heq : ∀ y, refs y = refs' y + if y = x then 1 else 0) : (h.release x).Counts refs' := by
  -- the count is the number of references, of which `x` has one more before than after
  have hx : refs x = refs' x + 1 := by rw [heq x, if_pos rfl]
  have hcount : h.count x = some (refs' x + 1) := by
    rw [← hx]
    exact hc.count_eq (by omega)
  simp only [RefHeap.release, hcount]
  refine ⟨fun y => ?_, fun y hy => ?_, hc.fault⟩
  · by_cases hy : y = x
    · subst y
      exact Function.update_self _ _ _
    · have hy' := heq y
      rw [if_neg hy, Nat.add_zero] at hy'
      simp only [Function.update_of_ne hy]
      rw [hc.count y, hy']
  · have hfresh := hc.fresh y hy
    have hy' := heq y
    omega

theorem Counts.touch (hc : h.Counts refs) (hx : 0 < refs x) : h.touch x = h := by
  rw [RefHeap.touch, hc.count_eq hx]
  rfl

end RefHeap

end Theory
