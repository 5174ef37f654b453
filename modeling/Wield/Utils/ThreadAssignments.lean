import Mathlib.Tactic.Simps.Basic
import Wield.StageEnum
import Wield.Theory.Tally

/-!
# Thread assignments

The table that records which stage each thread visits, the visitor counter of each stage, and the
concurrency limit of each stage.  The counters are atomics, so the primitive accesses (`decrement`,
`compareExchange`, `setAssignment`) are named on their own: a concurrent call takes them one at a
time, and `removeCurrentAssignment` and `tryAssign` are the calls run without interference.
-/

namespace Wield

/-- `utils::ThreadAssignments` for `n` stages and `T` thread slots. -/
structure ThreadAssignments (n T : Nat) where
  threadAssignment : Fin T → StageEnum n
  threadsPerStage : Fin n → SizeT
  maximumConcurrency : Fin n → SizeT

namespace ThreadAssignments

open Theory

variable {n T : Nat} (ta : ThreadAssignments n T)

/-- The constructors with an explicit number of threads. -/
def init (concurrency : Fin n → SizeT) : ThreadAssignments n T where
  threadAssignment _ := StageEnum.NumberOfEntries
  threadsPerStage _ := 0
  maximumConcurrency := concurrency

/-- `threadAssignment_[threadId] = stage`. -/
@[simps -fullyApplied]
def setAssignment (threadId : Fin T) (stage : StageEnum n) : ThreadAssignments n T :=
  { ta with threadAssignment := Function.update ta.threadAssignment threadId stage }

/-- `--threadsPerStage_[stage]`. -/
@[simps -fullyApplied]
def decrement (stage : Fin n) : ThreadAssignments n T :=
  { ta with
    threadsPerStage := Function.update ta.threadsPerStage stage (ta.threadsPerStage stage - 1) }

/-- `threadsPerStage_[stage].compare_exchange_strong(expected, expected + 1)`: the new table if the
    exchange succeeds. -/
def compareExchange (stage : Fin n) (expected : SizeT) : Option (ThreadAssignments n T) :=
  if ta.threadsPerStage stage = expected then
    some { ta with threadsPerStage := Function.update ta.threadsPerStage stage (expected + 1) }
  else none

/-- Give up the slot of `threadId`; the result carries the previous assignment. -/
def removeCurrentAssignment (threadId : Fin T) : StageEnum n × ThreadAssignments n T :=
  match ta.threadAssignment threadId with
  | some current =>
    -- the counter is lowered before the entry is cleared
    (some current, (ta.decrement current).setAssignment threadId StageEnum.NumberOfEntries)
  | none => (none, ta)

/-- Try to enter `next`.  `NumberOfEntries` is past the end of both arrays; the call is taken to
    fail there. -/
def tryAssign (threadId : Fin T) : StageEnum n → Bool × ThreadAssignments n T
  | none => (false, ta)
  | some next =>
    -- loaded once; the exchange compares with the loaded value
    let currentVisitors := ta.threadsPerStage next
    if currentVisitors < ta.maximumConcurrency next then
      match ta.compareExchange next currentVisitors with
      | some ta' => (true, ta'.setAssignment threadId (some next))
      | none => (false, ta)
    else (false, ta)

/-- Another visitor fits into `stage`. -/
def HasRoom (stage : Fin n) : Prop :=
  ta.threadsPerStage stage < ta.maximumConcurrency stage

instance (stage : Fin n) : Decidable (ta.HasRoom stage) :=
  inferInstanceAs (Decidable (_ < _))

theorem compareExchange_eq_some {ta ta' : ThreadAssignments n T} {s : Fin n} {expected : SizeT}
    (h : ta.compareExchange s expected = some ta') :
    ta.threadsPerStage s = expected ∧
      ta' = { ta with
        threadsPerStage := Function.update ta.threadsPerStage s (expected + 1) } := by
  unfold compareExchange at h
  split at h
  · rename_i heq
    exact ⟨heq, (Option.some.inj h).symm⟩
  · cases h

/-! ## Counters against holders -/

/-- Each counter is the number of threads that `holding` sends to the stage, and within the
    limit. -/
structure CountedBy (holding : Fin T → StageEnum n) : Prop where
  count : ∀ s, (ta.threadsPerStage s).toNat = tally holding s
  bound : ∀ s, tally holding s ≤ (ta.maximumConcurrency s).toNat

variable {ta} {holding : Fin T → StageEnum n}

theorem CountedBy.init (concurrency : Fin n → SizeT) :
    (init concurrency : ThreadAssignments n T).CountedBy fun _ => none where
  count s := by rw [tally_none]; rfl
  bound s := by rw [tally_none]; exact Nat.zero_le _

theorem CountedBy.of_eq {ta' : ThreadAssignments n T} (h : ta.CountedBy holding)
    (hcount : ta'.threadsPerStage = ta.threadsPerStage)
    (hlimit : ta'.maximumConcurrency = ta.maximumConcurrency) : ta'.CountedBy holding :=
  ⟨by rw [hcount]; exact h.count, by rw [hlimit]; exact h.bound⟩

/-- No decrement finds the counter at zero. -/
theorem CountedBy.pos (h : ta.CountedBy holding) {t : Fin T} {s : Fin n}
    (hs : holding t = some s) : 0 < (ta.threadsPerStage s).toNat := by
  rw [h.count]
  exact tally_pos hs

theorem CountedBy.decrement (h : ta.CountedBy holding) {t : Fin T} {s : Fin n}
    (hs : holding t = some s) :
    (ta.decrement s).CountedBy (Function.update holding t none) := by
  have hpos := h.pos hs
  refine ⟨fun s' => ?_, fun s' => ?_⟩
  · have hrel := tally_release hs s'
    -- only the counter of `s` moves
    by_cases heq : s' = s
    · subst s'
      rw [if_pos rfl, ← h.count] at hrel
      simp only [decrement_threadsPerStage, Function.update_self]
      rw [SizeT.toNat_sub_one hpos]
      omega
    · rw [if_neg heq, ← h.count] at hrel
      simp only [decrement_threadsPerStage, Function.update_of_ne heq]
      omega
  · have hrel := tally_release hs s'
    have hb := h.bound s'
    rw [decrement_maximumConcurrency]
    omega

/-- An exchange succeeds on the value that was loaded, whatever happened in between; that value was
    below the limit. -/
theorem CountedBy.compareExchange {ta' : ThreadAssignments n T} (h : ta.CountedBy holding)
    {t : Fin T} {s : Fin n} {seen : SizeT} (hs : holding t = none)
    (hseen : seen < ta.maximumConcurrency s) (hta : ta.compareExchange s seen = some ta') :
    ta'.CountedBy (Function.update holding t (some s)) := by
  obtain ⟨heq, rfl⟩ := compareExchange_eq_some hta
  have hlt : seen.toNat < (ta.maximumConcurrency s).toNat := hseen
  have hcount := h.count s
  -- so the loaded value is the number of holders now, whatever happened since the load
  rw [heq] at hcount
  refine ⟨fun s' => ?_, fun s' => ?_⟩
  · have hacq := tally_acquire s hs s'
    by_cases hs' : s' = s
    · subst s'
      rw [if_pos rfl] at hacq
      simp only [Function.update_self]
      rw [SizeT.toNat_add_one hseen]
      omega
    · rw [if_neg hs', ← h.count] at hacq
      simp only [Function.update_of_ne hs']
      omega
  · have hacq := tally_acquire s hs s'
    have hb := h.bound s'
    dsimp only
    by_cases hs' : s' = s
    · subst s'
      rw [if_pos rfl] at hacq
      omega
    · rw [if_neg hs'] at hacq
      omega

/-! ## The calls without interference -/

/-- The table names exactly the threads that are counted. -/
abbrev Counted (ta : ThreadAssignments n T) : Prop :=
  ta.CountedBy ta.threadAssignment

theorem Counted.removeCurrentAssignment (h : ta.Counted) (t : Fin T) :
    (ta.removeCurrentAssignment t).2.Counted ∧
      (ta.removeCurrentAssignment t).2.threadAssignment t = none := by
  unfold ThreadAssignments.removeCurrentAssignment
  split
  · rename_i s hs
    exact ⟨(h.decrement hs).of_eq rfl rfl, Function.update_self _ _ _⟩
  · rename_i hs
    exact ⟨h, hs⟩

/-- A stage that a thread has given up has room. -/
theorem Counted.hasRoom_removed (h : ta.Counted) {t : Fin T} {s : Fin n}
    (hs : ta.threadAssignment t = some s) : (ta.removeCurrentAssignment t).2.HasRoom s := by
  have hpos := h.pos hs
  have hcount := h.count s
  have hbound := h.bound s
  simp only [ThreadAssignments.removeCurrentAssignment, hs, HasRoom, setAssignment_threadsPerStage,
    decrement_threadsPerStage, Function.update_self, setAssignment_maximumConcurrency,
    decrement_maximumConcurrency, BitVec.lt_def, SizeT.toNat_sub_one hpos]
  omega

/-- Without interference the exchange cannot fail: a call succeeds exactly where there is room. -/
theorem tryAssign_some (ta : ThreadAssignments n T) (t : Fin T) (next : Fin n) :
    ta.tryAssign t (some next) =
      if ta.HasRoom next then
        (true, ({ ta with
          threadsPerStage := Function.update ta.threadsPerStage next
            (ta.threadsPerStage next + 1) } : ThreadAssignments n T).setAssignment t (some next))
      else (false, ta) := by
  simp only [tryAssign, ThreadAssignments.compareExchange, if_true]
  rfl

theorem Counted.tryAssign (h : ta.Counted) {t : Fin T} (ht : ta.threadAssignment t = none)
    {s : Fin n} (hs : ta.HasRoom s) :
    (ta.tryAssign t (some s)).2.Counted ∧
      (ta.tryAssign t (some s)).2.threadAssignment t = some s := by
  rw [tryAssign_some, if_pos hs]
  exact ⟨(CountedBy.compareExchange h ht hs (if_pos rfl)).of_eq rfl rfl,
    Function.update_self _ _ _⟩

theorem removeCurrentAssignment_fst (ta : ThreadAssignments n T) (t : Fin T) :
    (ta.removeCurrentAssignment t).1 = ta.threadAssignment t := by
  unfold removeCurrentAssignment
  split <;> rename_i hs <;> exact hs.symm

/-! ## What a call of `nextStage` changes -/

/-- Thread `t` has gone to `stage`; nothing has changed but its entry and the counters of the stage
    it has left and of `stage`. -/
structure Moves (ta : ThreadAssignments n T) (t : Fin T) (stage : Fin n)
    (ta' : ThreadAssignments n T) : Prop where
  maximumConcurrency : ta'.maximumConcurrency = ta.maximumConcurrency
  assigned : ta'.threadAssignment t = some stage
  others : ∀ u, u ≠ t → ta'.threadAssignment u = ta.threadAssignment u
  counters : ∀ s, ta'.threadsPerStage s = ta.threadsPerStage s -
    (if ta.threadAssignment t = some s then 1 else 0) + (if s = stage then 1 else 0)

theorem removeCurrentAssignment_threadsPerStage (ta : ThreadAssignments n T) (t : Fin T)
    (s : Fin n) : (ta.removeCurrentAssignment t).2.threadsPerStage s =
      ta.threadsPerStage s - (if ta.threadAssignment t = some s then 1 else 0) := by
  unfold removeCurrentAssignment
  split
  · rename_i current hcurrent
    simp only [setAssignment_threadsPerStage, decrement_threadsPerStage, hcurrent,
      Option.some.injEq]
    by_cases hs : s = current
    · subst s
      rw [Function.update_self, if_pos rfl]
    · rw [Function.update_of_ne hs, if_neg (Ne.symm hs)]
      exact (BitVec.sub_zero _).symm
  · rename_i hnone
    rw [hnone, if_neg (by simp)]
    exact (BitVec.sub_zero _).symm

theorem removeCurrentAssignment_maximumConcurrency (ta : ThreadAssignments n T) (t : Fin T) :
    (ta.removeCurrentAssignment t).2.maximumConcurrency = ta.maximumConcurrency := by
  unfold removeCurrentAssignment
  split <;> rfl

theorem removeCurrentAssignment_of_ne (ta : ThreadAssignments n T) {t u : Fin T} (hu : u ≠ t) :
    (ta.removeCurrentAssignment t).2.threadAssignment u = ta.threadAssignment u := by
  unfold removeCurrentAssignment
  split
  · exact Function.update_of_ne hu _ _
  · rfl

theorem removeCurrentAssignment_self (ta : ThreadAssignments n T) (t : Fin T) :
    (ta.removeCurrentAssignment t).2.threadAssignment t = none := by
  unfold removeCurrentAssignment
  split
  · exact Function.update_self _ _ _
  · assumption

/-- Entering a stage and leaving it again. -/
theorem removeCurrentAssignment_tryAssign {t : Fin T} {stage : Fin n}
    (ht : ta.threadAssignment t = none) (h : ta.HasRoom stage) :
    ((ta.tryAssign t (some stage)).2.removeCurrentAssignment t).2 = ta := by
  have hcurrent : (ta.tryAssign t (some stage)).2.threadAssignment t = some stage := by
    rw [tryAssign_some, if_pos h]
    exact Function.update_self _ _ _
  rw [removeCurrentAssignment, hcurrent, tryAssign_some, if_pos h]
  simp only [setAssignment, decrement, Function.update_idem, Function.update_self,
    BitVec.add_sub_cancel, Function.update_eq_self, ← ht]

/-- Releasing the slot and entering a stage with room. -/
theorem moves_of_hasRoom {t : Fin T} {stage : Fin n}
    (h : (ta.removeCurrentAssignment t).2.HasRoom stage) :
    ta.Moves t stage ((ta.removeCurrentAssignment t).2.tryAssign t (some stage)).2 := by
  rw [tryAssign_some, if_pos h]
  refine ⟨removeCurrentAssignment_maximumConcurrency ta t, Function.update_self _ _ _,
    fun u hu => ?_, fun s => ?_⟩
  · exact (Function.update_of_ne hu _ _).trans (removeCurrentAssignment_of_ne ta hu)
  · rw [setAssignment_threadsPerStage, ← removeCurrentAssignment_threadsPerStage]
    dsimp only
    by_cases hs : s = stage
    · subst s
      rw [Function.update_self, if_pos rfl]
    · rw [Function.update_of_ne hs, if_neg hs]
      exact (BitVec.add_zero _).symm

end ThreadAssignments

end Wield
