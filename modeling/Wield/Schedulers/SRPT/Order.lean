import Wield.Schedulers.NextStage
import Wield.Schedulers.SRPT
import Wield.Theory.Lts

/-!
# The stage that `SRPT::nextStage` returns, and whose flag it reads

The walk starts at the end of the pipeline or below the previous stage, as `hadMessages_` says.
The two starts lead to the same stage exactly if no stage below the previous one has room.
`sharedFlag` has the `batchEnd` and `nextStage` calls of any number of threads, each call
indivisible, with the flag that each thread set itself kept as history.
-/

namespace Wield.SRPT

open Theory StageChooser

variable {n T : Nat} {t : Fin T} {ta : ThreadAssignments n T}

/-- Another visitor fits into `stage` once `t` has given up its slot. -/
abbrev RoomFor (ta : ThreadAssignments n T) (t : Fin T) (stage : Fin n) : Prop :=
  (ta.removeCurrentAssignment t).2.HasRoom stage

theorem returns_iff {hadMessages : Bool} {s : Fin n} :
    Returns (chooser n T) t hadMessages ta s ↔ ∃ k, FirstHit decrementStage (At (RoomFor ta t))
      (start hadMessages (ta.threadAssignment t)) k (some s) :=
  returns_walk_iff

theorem start_of_last {hadMessages : Bool} {p : Fin n} (hp : some p = lastStage n) :
    start hadMessages (some p) = some p := by
  simp only [start, hp, if_true, ite_self]

theorem start_true {p : Fin n} (hp : some p ≠ lastStage n) : start true (some p) = none := by
  simp only [start, hp, if_false, if_true]

@[simp] theorem start_false (original : StageEnum n) : start false original = original := rfl

@[simp] theorem start_none (hadMessages : Bool) :
    start hadMessages (StageEnum.NumberOfEntries : StageEnum n) = none := by
  simp only [start, ite_self]

/-- The search below the previous stage ends at the highest stage with room exactly if no stage
    before the previous one has room. -/
theorem returns_highest_iff (hn : n < 2 ^ 64) (hta : ta.Counted) {p : Fin n}
    (hp : ta.threadAssignment t = some p) :
    (∃ s, Returns (chooser n T) t false ta s ∧ IsGreatest {s | RoomFor ta t s} s) ↔
      ∀ s, s < p → ¬ RoomFor ta t s := by
  simp only [returns_iff, hp, start_false]
  exact (decrementStage_countsDown hn).firstHit_some_greatest_iff (hta.hasRoom_removed hp)

/-- Where the flag makes no difference. -/
theorem returns_flag_iff (hn : n < 2 ^ 64) (hta : ta.Counted) (b b' : Bool) :
    (∀ s, Returns (chooser n T) t b ta s ↔ Returns (chooser n T) t b' ta s) ↔
      b = b' ∨ ∀ p, ta.threadAssignment t = some p →
        some p = lastStage n ∨ ∀ s, s < p → ¬ RoomFor ta t s := by
  simp only [returns_iff]
  cases hp : ta.threadAssignment t with
  | none => simp
  | some p =>
    have hroom := hta.hasRoom_removed hp
    have hcount := decrementStage_countsDown hn
    simp only [Option.some.injEq, forall_eq']
    by_cases hlast : some p = lastStage n
    · simp only [start_of_last hlast]
      simp [hlast]
    · simp only [hlast, false_or]
      cases b <;> cases b'
      · simp
      · simp only [start_false, start_true hlast, Bool.false_eq_true, false_or]
        exact hcount.firstHit_some_eq_none_iff hroom
      · simp only [start_false, start_true hlast, Bool.true_eq_false, false_or]
        rw [← hcount.firstHit_some_eq_none_iff hroom]
        exact forall_congr' fun _ => Iff.comm
      · simp

/-! ## Threads that share the flag -/

structure SharedFlag (n T : Nat) where
  hadMessages : Bool
  ta : ThreadAssignments n T
  /-- History: the flag that the thread's own latest `batchEnd` wrote. -/
  latest : Fin T → Bool

inductive SharedFlag.Action (T : Nat) where
  | nextStage (t : Fin T) (fuel : Nat)
  /-- `batchEnd`, with the flag of any polling policy. -/
  | batchEnd (t : Fin T) (hadMessage : Bool)

def SharedFlag.step (σ : SharedFlag n T) : SharedFlag.Action T → Option (SharedFlag n T)
  | .nextStage t fuel =>
    ((chooser n T).nextStage fuel (fun _ => ()) t σ.hadMessages σ.ta).map
      fun (_, hadMessages, ta) => { σ with hadMessages := hadMessages, ta := ta }
  | .batchEnd t hadMessage =>
    some { σ with
      hadMessages := (chooser n T).batchEnd σ.hadMessages hadMessage
      latest := Function.update σ.latest t hadMessage }

/-- A new policy under some concurrency map. -/
def SharedFlag.fresh (concurrency : Fin n → SizeT) : SharedFlag n T where
  hadMessages := false
  ta := ThreadAssignments.init concurrency
  latest _ := false

def sharedFlag (n T : Nat) : Lts (SharedFlag n T) (SharedFlag.Action T) where
  init σ := ∃ concurrency, σ = SharedFlag.fresh concurrency
  step := SharedFlag.step

theorem sharedFlag_counted : (sharedFlag n T).Invariant fun σ => σ.ta.Counted where
  init := by
    rintro _ ⟨concurrency, rfl⟩
    exact .init concurrency
  step σ a σ' h hs := by
    cases a with
    | nextStage t fuel =>
      obtain ⟨⟨s, own, ta⟩, hnext, rfl⟩ := Option.map_eq_some_iff.mp hs
      exact (nextStage_counted h hnext).1
    | batchEnd t hadMessage =>
      cases hs
      exact h

/-- The call returns what it would return if only the calling thread had written the flag. -/
def Undisturbed (σ : SharedFlag n T) : SharedFlag.Action T → Prop
  | .nextStage t _ => ∀ s, Returns (chooser n T) t σ.hadMessages σ.ta s ↔
      Returns (chooser n T) t (σ.latest t) σ.ta s
  | .batchEnd _ _ => True

/-- The flag is as the calling thread left it, or the thread comes from nowhere, from the last
    stage, or from a stage without room before it. -/
def FlagIrrelevant (σ : SharedFlag n T) : SharedFlag.Action T → Prop
  | .nextStage t _ => σ.hadMessages = σ.latest t ∨ ∀ p, σ.ta.threadAssignment t = some p →
      some p = lastStage n ∨ ∀ s, s < p → ¬ RoomFor σ.ta t s
  | .batchEnd _ _ => True

/-- The runs in which no thread is disturbed by another one's flag. -/
theorem undisturbed_iff (hn : n < 2 ^ 64) (concurrency : Fin n → SizeT)
    (as : List (SharedFlag.Action T)) :
    (sharedFlag n T).Steps Undisturbed (SharedFlag.fresh concurrency) as ↔
      (sharedFlag n T).Steps FlagIrrelevant (SharedFlag.fresh concurrency) as := by
  refine Lts.steps_congr sharedFlag_counted (fun σ a h => ?_) (.init concurrency) as
  cases a with
  | nextStage t fuel => exact returns_flag_iff hn h σ.hadMessages (σ.latest t)
  | batchEnd t hadMessage => exact Iff.rfl

/-- Two threads go to the last two of three stages.  The second has had no message there, and then
    the first reports one. -/
def twoThreads (first second : Fin T) : List (SharedFlag.Action T) :=
  [.nextStage first 4, .nextStage second 4, .batchEnd second false, .batchEnd first true]

/-- Then the second is about to go on from there with the flag of the first, with room before its
    stage. -/
theorem twoThreads_run :
    ∃ σ σ' : SharedFlag 3 2, (sharedFlag 3 2).run (SharedFlag.fresh fun _ => 1) (twoThreads 0 1) =
      some σ ∧ (sharedFlag 3 2).step σ (.nextStage 1 4) = some σ' ∧
        ¬ FlagIrrelevant σ (.nextStage 1 4) := by
  obtain ⟨σ, σ', hrun, hs, hflag, hlatest, hp, hroom⟩ : ∃ σ σ' : SharedFlag 3 2,
      (sharedFlag 3 2).run (SharedFlag.fresh fun _ => 1) (twoThreads 0 1) = some σ ∧
        (sharedFlag 3 2).step σ (.nextStage 1 4) = some σ' ∧ σ.hadMessages = true ∧
        σ.latest 1 = false ∧ σ.ta.threadAssignment 1 = some 1 ∧ RoomFor σ.ta 1 0 :=
    ⟨_, _, rfl, rfl, rfl, rfl, rfl, by decide⟩
  refine ⟨σ, σ', hrun, hs, ?_⟩
  rintro (heq | hprev)
  · rw [hflag, hlatest] at heq
    cases heq
  · rcases hprev 1 hp with hlast | hnone
    · exact absurd hlast (by decide)
    · exact hnone 0 (by decide) hroom

theorem undisturbed_iff_three :
    ¬ (sharedFlag 3 2).Steps Undisturbed (SharedFlag.fresh fun _ => 1)
      (twoThreads 0 1 ++ [.nextStage 1 4]) := by
  rw [undisturbed_iff (by decide)]
  intro h
  obtain ⟨σ, σ', hrun, hs, hnot⟩ := twoThreads_run
  exact hnot (h.of_run hrun hs)

/-- Thread 1 goes back to stage 1 and not on to stage 0. -/
theorem disturbed_by_other_thread :
    ∃ σ : SharedFlag 3 2, (sharedFlag 3 2).Reachable σ ∧ ¬ Undisturbed σ (.nextStage 1 4) := by
  obtain ⟨σ, _, hrun, _, hnot⟩ := twoThreads_run
  have hσ : (sharedFlag 3 2).Reachable σ :=
    (Lts.Reachable.init (L := sharedFlag 3 2) ⟨_, rfl⟩).run hrun
  refine ⟨σ, hσ, fun h => hnot ?_⟩
  exact (returns_flag_iff (by decide) (sharedFlag_counted.holds hσ) _ _).mp h

end Wield.SRPT
