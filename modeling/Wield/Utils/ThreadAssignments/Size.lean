import Mathlib.Algebra.BigOperators.Fin
import Wield.Utils.ThreadAssignments

/-!
# The number of slots of a `ThreadAssignments` table

Without an explicit number of threads the constructors make one slot per stage, or as many as the
concurrency map has places.  Then a thread that has given up its slot leaves a place somewhere.
-/

namespace Wield.ThreadAssignments

open Theory

variable {n T : Nat}

/-- One step of `std::accumulate(begin(concurrency), end(concurrency), 0)`.  The accumulator is an
    `int`, which the addition converts to `std::size_t` and the assignment back. -/
def accumulateStep (concurrency : Fin n → SizeT) (sum : BitVec 32) (stage : Fin n) : BitVec 32 :=
  (sum.signExtend 64 + concurrency stage).setWidth 32

/-- The number of slots that the constructors take from `concurrency`. -/
def numThreads (concurrency : Fin n → SizeT) : Nat :=
  (((List.finRange n).foldl (accumulateStep concurrency) 0).signExtend 64).toNat

/-- The constructors without a number of threads, by the limits and the number of slots they
    leave. -/
inductive SizedByMap : (Fin n → SizeT) → Nat → Prop where
  | default : SizedByMap (fun _ => 1) n
  | concurrency (concurrency : Fin n → SizeT) :
      ∑ s, (concurrency s).toNat < 2 ^ 31 → SizedByMap concurrency (numThreads concurrency)

/-- A negative `int` becomes a large `std::size_t`. -/
theorem toNat_signExtend_int (x : BitVec 32) : (x.signExtend 64).toNat =
    if x.toNat < 2 ^ 31 then x.toNat else x.toNat + (2 ^ 64 - 2 ^ 32) := by
  have hx := x.isLt
  rw [BitVec.toNat_signExtend, BitVec.toNat_setWidth, BitVec.msb_eq_decide]
  by_cases hlt : x.toNat < 2 ^ 31
  · rw [if_pos hlt, if_neg (by simpa using hlt)]
    omega
  · rw [if_neg hlt, if_pos (by simpa using hlt)]
    omega

/-- Whatever its sign, the accumulator is the sum modulo `2 ^ 32`. -/
theorem toNat_accumulateStep (concurrency : Fin n → SizeT) (sum : BitVec 32) (s : Fin n) :
    (accumulateStep concurrency sum s).toNat =
      (sum.toNat + (concurrency s).toNat) % 2 ^ 32 := by
  rw [accumulateStep, BitVec.toNat_setWidth, BitVec.toNat_add, toNat_signExtend_int]
  split <;> omega

theorem toNat_foldl_accumulateStep (concurrency : Fin n → SizeT) (l : List (Fin n))
    (sum : BitVec 32) : (l.foldl (accumulateStep concurrency) sum).toNat =
      (sum.toNat + (l.map fun s => (concurrency s).toNat).sum) % 2 ^ 32 := by
  induction l generalizing sum with
  | nil =>
    rw [List.foldl_nil, List.map_nil, List.sum_nil, Nat.add_zero]
    exact (Nat.mod_eq_of_lt sum.isLt).symm
  | cons s l ih =>
    rw [List.foldl_cons, ih, toNat_accumulateStep, List.map_cons, List.sum_cons,
      Nat.mod_add_mod, Nat.add_assoc]

/-- The accumulator at the end. -/
theorem toNat_accumulate (concurrency : Fin n → SizeT) :
    ((List.finRange n).foldl (accumulateStep concurrency) 0).toNat =
      (∑ s, (concurrency s).toNat) % 2 ^ 32 := by
  have hsum : ((List.finRange n).map fun s => (concurrency s).toNat).sum =
      ∑ s, (concurrency s).toNat := (Fin.sum_univ_def _).symm
  rw [toNat_foldl_accumulateStep, hsum, BitVec.ofNat_eq_ofNat, BitVec.toNat_ofNat, Nat.zero_mod,
    Nat.zero_add]

theorem numThreads_eq_sum {concurrency : Fin n → SizeT}
    (h : ∑ s, (concurrency s).toNat < 2 ^ 31) :
    numThreads concurrency = ∑ s, (concurrency s).toNat := by
  rw [numThreads, toNat_signExtend_int, toNat_accumulate, Nat.mod_eq_of_lt (by omega), if_pos h]

/-- Such a table has no more slots than there are places. -/
theorem SizedByMap.le_sum {concurrency : Fin n → SizeT} (h : SizedByMap concurrency T) :
    T ≤ ∑ s, (concurrency s).toNat := by
  cases h with
  | default => simp
  | concurrency _ hsum => exact (numThreads_eq_sum hsum).le

/-- While one thread has no slot, the others cannot fill all places. -/
theorem CountedBy.exists_hasRoom {ta : ThreadAssignments n T} {holding : Fin T → StageEnum n}
    (h : ta.CountedBy holding) {t : Fin T} (ht : holding t = none)
    (hsize : T ≤ ∑ s, (ta.maximumConcurrency s).toNat) : ∃ s, ta.HasRoom s := by
  by_contra hfull
  have hheld := sum_tally_lt ht
  rw [Fintype.card_fin] at hheld
  have hle : ∑ s, (ta.maximumConcurrency s).toNat ≤ ∑ s, tally holding s := by
    apply Finset.sum_le_sum
    intro s _
    rw [← h.count s]
    exact BitVec.not_lt.mp fun hlt => hfull ⟨s, hlt⟩
  omega

end Wield.ThreadAssignments
