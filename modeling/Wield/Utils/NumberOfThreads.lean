import Wield.Utils.ThreadAssignments.Size

/-!
# The number of threads to run

`numberOfThreads` takes the smaller of the number of cores and the concurrency that the stages
allow.  The sum of a concurrency map is accumulated in an `int`, so that it is right below `2 ^ 31`
only.
-/

namespace Wield

variable {n : Nat}

/-- `std::max<std::size_t>(1, std::thread::hardware_concurrency())`. -/
def numCores (hardwareConcurrency : BitVec 32) : SizeT :=
  if hardwareConcurrency.setWidth 64 < 1 then 1 else hardwareConcurrency.setWidth 64

/-- `numberOfThreads(numberOfStages)`, with what `std::thread::hardware_concurrency()` returns. -/
def numberOfThreads (hardwareConcurrency : BitVec 32) (numberOfStages : SizeT) : SizeT :=
  if numberOfStages < numCores hardwareConcurrency then numberOfStages
  else numCores hardwareConcurrency

/-- `numberOfThreads(concurrencyMap)`. -/
def numberOfThreadsOfMap (hardwareConcurrency : BitVec 32) (concurrencyMap : Fin n → SizeT) :
    SizeT :=
  numberOfThreads hardwareConcurrency
    (((List.finRange n).foldl (ThreadAssignments.accumulateStep concurrencyMap) 0).signExtend 64)

theorem toNat_numCores (hardwareConcurrency : BitVec 32) :
    (numCores hardwareConcurrency).toNat = max 1 hardwareConcurrency.toNat := by
  have hlt := hardwareConcurrency.isLt
  have hwidth : (hardwareConcurrency.setWidth 64).toNat = hardwareConcurrency.toNat := by
    rw [BitVec.toNat_setWidth]
    omega
  unfold numCores
  split
  · rename_i h
    rw [BitVec.lt_def, hwidth] at h
    simp only [BitVec.ofNat_eq_ofNat, BitVec.toNat_ofNat] at h ⊢
    omega
  · rename_i h
    rw [BitVec.lt_def, hwidth] at h
    simp only [BitVec.ofNat_eq_ofNat, BitVec.toNat_ofNat] at h ⊢
    omega

theorem toNat_numberOfThreads (hardwareConcurrency : BitVec 32) (numberOfStages : SizeT) :
    (numberOfThreads hardwareConcurrency numberOfStages).toNat =
      min numberOfStages.toNat (max 1 hardwareConcurrency.toNat) := by
  rw [← toNat_numCores]
  unfold numberOfThreads
  split
  · rename_i h
    exact (Nat.min_eq_left (Nat.le_of_lt h)).symm
  · rename_i h
    exact (Nat.min_eq_right (BitVec.not_lt.mp h)).symm

namespace ThreadAssignments

/-- The constructors that take only a concurrency map, copied or moved.  `maxSize` is the
    `max_size()` of `threadAssignment_`, beyond which the vector throws `std::length_error`. -/
def ofConcurrency (maxSize : Nat) (concurrency : Fin n → SizeT) :
    Option ((T : Nat) × ThreadAssignments n T) :=
  if numThreads concurrency ≤ maxSize then
    some ⟨numThreads concurrency, ThreadAssignments.init concurrency⟩
  else none

/-- The table of `concurrency` has `size` slots, and `numberOfThreads` takes the smaller of `size`
    and the number of cores. -/
structure Sized (maxSize : Nat) (concurrency : Fin n → SizeT) (size : Nat) : Prop where
  slots : (ofConcurrency maxSize concurrency).map (·.1) = some size
  threads : ∀ hardwareConcurrency,
    (numberOfThreadsOfMap hardwareConcurrency concurrency).toNat =
      min size (max 1 hardwareConcurrency.toNat)

/-- The table has as many slots as the map has places, and `numberOfThreads` goes by their number,
    exactly if there are fewer than `2 ^ 31`. -/
theorem sized_sum_iff {maxSize : Nat} (hmin : 2 ^ 31 ≤ maxSize) (hmax : maxSize < 2 ^ 63)
    {concurrency : Fin n → SizeT} (hsum : ∑ s, (concurrency s).toNat < 2 ^ 64) :
    Sized maxSize concurrency (∑ s, (concurrency s).toNat) ↔
      ∑ s, (concurrency s).toNat < 2 ^ 31 := by
  constructor
  · intro h
    have hslots := h.slots
    have hnum : numThreads concurrency = if (∑ s, (concurrency s).toNat) % 2 ^ 32 < 2 ^ 31
        then (∑ s, (concurrency s).toNat) % 2 ^ 32
        else (∑ s, (concurrency s).toNat) % 2 ^ 32 + (2 ^ 64 - 2 ^ 32) := by
      rw [numThreads, toNat_signExtend_int, toNat_accumulate]
    unfold ofConcurrency at hslots
    split at hslots
    · rename_i hle
      have heq : numThreads concurrency = ∑ s, (concurrency s).toNat := Option.some.inj hslots
      -- a negative accumulator asks for more slots than a vector can have
      split at hnum <;> omega
    · cases hslots
  · intro h
    have hnum := numThreads_eq_sum h
    refine ⟨?_, fun hardwareConcurrency => ?_⟩
    · rw [ofConcurrency, if_pos (by omega), Option.map_some, hnum]
    · rw [numberOfThreadsOfMap, toNat_numberOfThreads]
      exact congrArg (min · _) hnum

/-- Two stages with two places and one. -/
theorem sized_sum_iff_three : Sized (2 ^ 63 - 1) (![2, 1] : Fin 2 → SizeT) 3 ↔ 3 < 2 ^ 31 :=
  sized_sum_iff (by decide) (by decide) (by decide)

/-- One stage with `2 ^ 32` places: the table has no slot, and no thread is to be run. -/
theorem no_slot_for_large_map :
    ∃ concurrency : Fin 1 → SizeT, ∑ s, (concurrency s).toNat = 2 ^ 32 ∧
      (ofConcurrency (2 ^ 63 - 1) concurrency).map (·.1) = some 0 ∧
      (∀ hardwareConcurrency, numberOfThreadsOfMap hardwareConcurrency concurrency = 0) ∧
      ¬ Sized (2 ^ 63 - 1) concurrency (2 ^ 32) := by
  have hslots : (ofConcurrency (2 ^ 63 - 1) (fun _ : Fin 1 => (2 ^ 32 : SizeT))).map (·.1) =
      some 0 := by decide
  refine ⟨fun _ => 2 ^ 32, by decide, hslots, fun hardwareConcurrency => ?_, fun h => ?_⟩
  · have hzero : (numberOfThreadsOfMap hardwareConcurrency
        (fun _ : Fin 1 => (2 ^ 32 : SizeT))).toNat = 0 := by
      rw [numberOfThreadsOfMap, toNat_numberOfThreads]
      exact Nat.zero_min _
    exact BitVec.eq_of_toNat_eq hzero
  · have hsize := hslots.symm.trans h.slots
    simp at hsize

end ThreadAssignments

end Wield
