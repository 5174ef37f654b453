import Wield.SchedulingPolicy
import Wield.Schedulers.RandomVisit.Tables
import Wield.Theory.Search
import Wield.Theory.Termination

/-!
# Whether the retry loop ends

While no other thread holds a slot, `tryAssign` refuses exactly the stages that are not `opened`.
`Retry` is one refused round of the loop.  The walks and `RandomVisit` always come to an open stage;
`Color` and `ColorMinus` only if their work queue or their estimates lead to one.
-/

namespace Wield

open Theory StageChooser

variable {n T : Nat}

/-- A round of the loop of `nextStage` in which `tryAssign` refuses the chosen stage. -/
def StageChooser.Retry (P : StageChooser n T) (threadId : Fin T) (opened : Fin n → Prop)
    (x y : P.Cursor × P.State) : Prop :=
  ∃ entropy, ¬ At opened (P.choose x.2 threadId x.1 entropy).1 ∧
    y = ((P.choose x.2 threadId x.1 entropy).2.1,
      P.settle (P.choose x.2 threadId x.1 entropy).2.2 (P.choose x.2 threadId x.1 entropy).1)

variable {t : Fin T} {opened : Fin n → Prop}

theorem StageChooser.terminates_retry_walk {State : Type} {next : StageEnum n → StageEnum n}
    {start : State → StageEnum n → StageEnum n} {batchEnd : State → Bool → State}
    {init : (Fin n → SizeT) → State → Prop} {c b : StageEnum n} {k : Nat}
    (h : FirstHit next (At opened) c k b) (own : State) :
    Terminates ((walk State next start batchEnd init).Retry t opened) (c, own) := by
  -- the walk is refused at the missed places and stops at the hit
  induction h with
  | hit hit => exact .intro fun _ ⟨_, hrefused, _⟩ => absurd hit hrefused
  | miss _ _ ih =>
    refine .intro fun y ⟨_, _, hy⟩ => ?_
    rw [hy]
    exact ih

theorem RoundRobin.terminates_retry (hn : n < 2 ^ 64) (hex : ∃ s, opened s)
    (c : StageEnum n) (own : Unit) :
    Terminates ((RoundRobin.chooser n T).Retry t opened) (c, own) := by
  obtain ⟨s, hs⟩ := hex
  obtain ⟨j, hj⟩ := (RoundRobin.incrementStage_countsUp hn).reaches c s
  obtain ⟨k, b, hk⟩ := exists_firstHit_of_reaches hj hs
  exact terminates_retry_walk hk own

theorem SRPT.terminates_retry (hn : n < 2 ^ 64) (hex : ∃ s, opened s) (c : StageEnum n)
    (own : Bool) : Terminates ((SRPT.chooser n T).Retry t opened) (c, own) := by
  obtain ⟨s, hs⟩ := hex
  obtain ⟨j, hj⟩ := (SRPT.decrementStage_countsDown hn).reaches c s
  obtain ⟨k, b, hk⟩ := exists_firstHit_of_reaches hj hs
  exact terminates_retry_walk hk own

theorem RandomVisit.terminates_retry {maxConcurrency : Fin n → SizeT} {TableSizeFactor : ℕ+}
    {tables : Tables n T (n * TableSizeFactor)} (h : tables.Valid maxConcurrency) (hn : 0 < n)
    (c : Unit) : Terminates
      ((RandomVisit.chooser n T TableSizeFactor).Retry t fun s => maxConcurrency s ≠ 0)
      (c, tables) := by
  -- every entry that is read can be entered, so there is no refused round at all
  refine .intro fun y ⟨randomDevice, hrefused, _⟩ => absurd ?_ hrefused
  obtain ⟨_, s, hs, hopen⟩ :=
    randomStage_valid h (Nat.mul_pos hn TableSizeFactor.pos) t randomDevice
  dsimp only
  rw [hs]
  exact hopen

/-! ## `Color` -/

/-- The work queue leads to a stage that can be entered. -/
def Color.Finds (opened : Fin n → Prop) (workQueue : List (Fin n)) : Prop :=
  ∃ s ∈ workQueue, opened s

theorem Color.terminates_retry_iff (c : Unit) (workQueue : List (Fin n)) :
    Terminates ((Color.chooser n T).Retry t opened) (c, workQueue) ↔
      Color.Finds opened workQueue := by
  constructor
  · -- without an open name the queue runs empty, and popping goes on
    intro hterm
    by_contra hnone
    refine not_terminates_of_forever (K := fun x => ¬ Color.Finds opened x.2) ?_ hnone hterm
    rintro ⟨c, workQueue⟩ hnone
    cases workQueue with
    | nil => exact ⟨((), []), ⟨(), id, rfl⟩, hnone⟩
    | cons name workQueue =>
      refine ⟨((), workQueue), ⟨(), fun h => hnone ⟨name, List.mem_cons_self, h⟩, rfl⟩, ?_⟩
      rintro ⟨s, hs, hopen⟩
      exact hnone ⟨s, List.mem_cons_of_mem name hs, hopen⟩
  · intro hfinds
    refine terminates_of_measure (I := fun x => Color.Finds opened x.2)
      (fun x => x.2.length) ?_ hfinds
    rintro ⟨c, workQueue⟩ y ⟨s, hs, hopen⟩ ⟨_, hrefused, rfl⟩
    cases workQueue with
    | nil => cases hs
    | cons name workQueue =>
      refine .inr ⟨?_, Nat.lt_succ_self _⟩
      rcases List.mem_cons.mp hs with rfl | hs
      · exact absurd hopen hrefused
      · exact ⟨s, hs, hopen⟩

/-! ## `ColorMinus` -/

/-- The estimates lead to a stage that can be entered: one with a positive estimate, or, once all
    estimates are zero, the first stage. -/
def ColorMinus.Finds (opened : Fin n → Prop) (stats : ColorMinus.Stats n) : Prop :=
  (∃ s, opened s ∧ 0 < stats.estimatedDepth s) ∨ ∃ first : Fin n, first.val = 0 ∧ opened first

/-- If the most loaded stage cannot be entered, it has a positive estimate or the loop is stuck at
    the first stage. -/
theorem ColorMinus.Finds.pos {stats : ColorMinus.Stats n} (h : ColorMinus.Finds opened stats)
    {s : Fin n} (hmax : ∀ s', stats.estimatedDepth s' ≤ stats.estimatedDepth s ∧
      (s' < s → stats.estimatedDepth s' < stats.estimatedDepth s)) (hs : ¬ opened s) :
    0 < stats.estimatedDepth s := by
  rcases h with ⟨s', _, hpos⟩ | ⟨first, hfirst, hopen⟩
  · exact Nat.lt_of_lt_of_le hpos (hmax s').1
  · have hne : first ≠ s := fun heq => hs (heq ▸ hopen)
    have hlt : first < s := by
      rw [Fin.lt_def]
      have hne' : first.val ≠ s.val := fun heq => hne (Fin.ext heq)
      omega
    exact MessageCount.estimatedDepth_pos_of_lt ((hmax first).2 hlt)

theorem ColorMinus.Finds.updatePrevious {stats : ColorMinus.Stats n} {s : Fin n}
    (hs : ¬ opened s) :
    ColorMinus.Finds opened (stats.updatePrevious s) ↔ ColorMinus.Finds opened stats := by
  -- `updatePrevious` only touches the estimate of `s`, which is not open
  refine or_congr (exists_congr fun s' => and_congr_right fun hopen => ?_) Iff.rfl
  have hne : s' ≠ s := fun heq => hs (heq ▸ hopen)
  rw [MessageCount.estimatedDepth_updatePrevious_of_ne hne]

theorem ColorMinus.terminates_retry_iff (hn : 0 < n) (c : Unit) (stats : ColorMinus.Stats n) :
    Terminates ((ColorMinus.chooser n T).Retry t opened) (c, stats) ↔
      ColorMinus.Finds opened stats := by
  constructor
  · intro hterm
    by_contra hnone
    refine not_terminates_of_forever (K := fun x => ¬ ColorMinus.Finds opened x.2) ?_ hnone hterm
    rintro ⟨c, stats⟩ hnone
    obtain ⟨s, hs, hmax⟩ := MessageCount.highwaterStage_spec stats hn
    have hclosed : ¬ opened s := by
      intro hopen
      by_cases hpos : 0 < stats.estimatedDepth s
      · exact hnone (.inl ⟨s, hopen, hpos⟩)
      · -- with all estimates zero the most loaded stage is the first one
        refine hnone (.inr ⟨s, ?_, hopen⟩)
        by_contra hne
        have hlt : (⟨0, hn⟩ : Fin n) < s := by
          rw [Fin.lt_def]
          exact Nat.pos_of_ne_zero hne
        exact hpos (MessageCount.estimatedDepth_pos_of_lt ((hmax ⟨0, hn⟩).2 hlt))
    refine ⟨((), stats.updatePrevious s), ⟨(), ?_, ?_⟩, ?_⟩
    · show ¬ At opened stats.highwaterStage
      rw [hs]
      exact hclosed
    · show _ = ((), ColorMinus.updatePrevious stats stats.highwaterStage)
      rw [hs]
      rfl
    · exact (ColorMinus.Finds.updatePrevious hclosed).not.mpr hnone
  · intro hfinds
    classical
    refine terminates_of_measure (I := fun x => ColorMinus.Finds opened x.2)
      (fun x => (Finset.univ.filter fun s => 0 < x.2.estimatedDepth s).card) ?_ hfinds
    rintro ⟨c, stats⟩ y hfinds ⟨_, hrefused, rfl⟩
    -- the refused stage has a positive estimate, which `updatePrevious` sets to 0
    obtain ⟨s, hs, hmax⟩ := MessageCount.highwaterStage_spec stats hn
    change ¬ At opened stats.highwaterStage at hrefused
    rw [hs] at hrefused
    have hpos := ColorMinus.Finds.pos hfinds hmax hrefused
    show _ ∨ ColorMinus.Finds opened
        (ColorMinus.updatePrevious stats stats.highwaterStage) ∧
      (Finset.univ.filter fun s =>
        0 < (ColorMinus.updatePrevious stats stats.highwaterStage).estimatedDepth s).card < _
    rw [hs]
    refine .inr ⟨(ColorMinus.Finds.updatePrevious hrefused).mpr hfinds, Finset.card_lt_card ?_⟩
    refine Finset.ssubset_iff_of_subset (fun s' hs' => ?_) |>.mpr ⟨s, ?_, ?_⟩
    · simp only [Finset.mem_filter, Finset.mem_univ, true_and] at hs' ⊢
      by_cases heq : s' = s
      · exact heq ▸ hpos
      · rwa [ColorMinus.updatePrevious, MessageCount.estimatedDepth_updatePrevious_of_ne heq]
          at hs'
    · simp only [Finset.mem_filter, Finset.mem_univ, true_and]
      exact hpos
    · intro hmem
      have hzero := (Finset.mem_filter.mp hmem).2
      rw [ColorMinus.updatePrevious, MessageCount.estimatedDepth_updatePrevious_self] at hzero
      exact absurd hzero (BitVec.lt_irrefl 0)

end Wield
