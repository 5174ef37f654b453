import Wield.Schedulers.StageChooser

/-!
# Visitor counters against slots

Inside `nextStage` the counter of a stage and the thread's own table entry are written at different
moments and in a different order by `removeCurrentAssignment` and `tryAssign`.  `Call.Consistent`
says, for each place a thread can be at, what its entry and its slot are; `Slots` ties the counters
to the slots.  Together they survive each access of each thread.
-/

namespace Wield.StageChooser

open Theory

variable {n T : Nat} {P : StageChooser n T}

/-- Each counter is the number of slots held on its stage, and within the limit. -/
structure Slots (concurrency : Fin n → SizeT) (σ : P.Shared) : Prop where
  limit : σ.ta.maximumConcurrency = concurrency
  counted : σ.ta.CountedBy σ.holding

theorem Slots.count {concurrency : Fin n → SizeT} {σ : P.Shared} (h : Slots concurrency σ)
    (s : Fin n) : (σ.ta.threadsPerStage s).toNat = tally σ.holding s :=
  h.counted.count s

theorem Slots.bound {concurrency : Fin n → SizeT} {σ : P.Shared} (h : Slots concurrency σ)
    (s : Fin n) : tally σ.holding s ≤ (concurrency s).toNat :=
  h.limit ▸ h.counted.bound s

theorem Slots.initial {concurrency : Fin n → SizeT} {σ : P.Shared}
    (hta : σ.ta = ThreadAssignments.init concurrency) (hholding : ∀ t, σ.holding t = none) :
    Slots concurrency σ := by
  refine ⟨by rw [hta]; rfl, ?_⟩
  rw [hta, show σ.holding = fun _ => none from funext hholding]
  exact .init concurrency

/-- The table entry and the slot of a thread, by its place inside `nextStage`. -/
def Call.Consistent (concurrency : Fin n → SizeT) (recorded holding : StageEnum n) :
    P.Pc → Prop
  | .enter => recorded = holding
  | .decrement s => recorded = some s ∧ holding = some s
  | .clear s => recorded = some s ∧ holding = none
  | .start _ | .choose _ | .load _ _ | .refused _ _ => recorded = none ∧ holding = none
  | .exchange s seen _ => recorded = none ∧ holding = none ∧ seen < concurrency s
  | .record s => recorded = none ∧ holding = some s
  | .assigned s => recorded = some s ∧ holding = some s

/-- What a step of `nextStage` leaves: still inside, or returned with the stage recorded. -/
def Call.Outcome (concurrency : Fin n → SizeT) (recorded holding : StageEnum n) :
    P.Pc ⊕ Fin n → Prop
  | .inl pc => Call.Consistent concurrency recorded holding pc
  | .inr s => recorded = some s ∧ holding = some s

/-- The accesses of thread `t` leave the other threads' entries and slots alone. -/
structure Shared.Frame (t : Fin T) (σ σ' : P.Shared) : Prop where
  recorded : ∀ u, u ≠ t → σ'.ta.threadAssignment u = σ.ta.threadAssignment u
  holding : ∀ u, u ≠ t → σ'.holding u = σ.holding u

theorem Shared.Frame.rfl {t : Fin T} {σ : P.Shared} : Shared.Frame t σ σ :=
  ⟨fun _ _ => Eq.refl _, fun _ _ => Eq.refl _⟩

theorem Slots.of_eq {concurrency : Fin n → SizeT} {σ σ' : P.Shared} (h : Slots concurrency σ)
    (hlimit : σ'.ta.maximumConcurrency = σ.ta.maximumConcurrency)
    (hcount : σ'.ta.threadsPerStage = σ.ta.threadsPerStage)
    (hholding : σ'.holding = σ.holding) : Slots concurrency σ' :=
  ⟨hlimit.trans h.limit, by rw [hholding]; exact h.counted.of_eq hcount hlimit⟩

/-- One access of thread `t` inside `nextStage`. -/
theorem Call.step_slots {concurrency : Fin n → SizeT} {σ : P.Shared} (h : Slots concurrency σ)
    {t : Fin T} {e : P.Entropy} {pc : P.Pc}
    (hpc : Call.Consistent concurrency (σ.ta.threadAssignment t) (σ.holding t) pc) :
    Slots concurrency (Call.step σ t e pc).1 ∧ Shared.Frame t σ (Call.step σ t e pc).1 ∧
      Call.Outcome concurrency ((Call.step σ t e pc).1.ta.threadAssignment t)
        ((Call.step σ t e pc).1.holding t) (Call.step σ t e pc).2 := by
  cases pc with
  | enter =>
    have hpc : σ.ta.threadAssignment t = σ.holding t := hpc
    -- the thread reads its own entry, which nobody else writes
    simp only [Call.step]
    cases hrec : σ.ta.threadAssignment t with
    | none => exact ⟨h, .rfl, hrec, hpc ▸ hrec⟩
    | some s => exact ⟨h, .rfl, hrec, hpc ▸ hrec⟩
  | decrement s =>
    obtain ⟨hrec, hhold⟩ := hpc
    -- from here on the entry names a stage whose slot is given up
    refine ⟨⟨h.limit, h.counted.decrement hhold⟩, ⟨fun _ _ => rfl, fun u hu => ?_⟩, hrec, ?_⟩
    · exact Function.update_of_ne hu _ _
    · exact Function.update_self _ _ _
  | clear s =>
    obtain ⟨_, hhold⟩ := hpc
    refine ⟨h.of_eq rfl rfl rfl, ⟨fun u hu => ?_, fun _ _ => rfl⟩, ?_, hhold⟩
    · exact Function.update_of_ne hu _ _
    · exact Function.update_self _ _ _
  | start original => exact ⟨h, .rfl, hpc⟩
  | choose cursor => exact ⟨h.of_eq rfl rfl rfl, ⟨fun _ _ => rfl, fun _ _ => rfl⟩, hpc⟩
  | load next cursor =>
    obtain ⟨hrec, hhold⟩ := hpc
    cases next with
    | none => exact ⟨h, .rfl, hrec, hhold⟩
    | some s =>
      simp only [Call.step]
      split
      · rename_i hlt
        exact ⟨h, .rfl, hrec, hhold, by rw [← h.limit]; exact hlt⟩
      · exact ⟨h, .rfl, hrec, hhold⟩
  | exchange s seen cursor =>
    -- `hseen` was established at the load; the limit has not changed since
    obtain ⟨hrec, hhold, hseen⟩ := hpc
    simp only [Call.step]
    split
    · rename_i ta hta
      have hcounted := h.counted.compareExchange hhold (h.limit ▸ hseen) hta
      refine ⟨⟨?_, hcounted⟩, ⟨fun u _ => ?_, fun u hu => ?_⟩, ?_, ?_⟩
      · obtain ⟨_, rfl⟩ := ThreadAssignments.compareExchange_eq_some hta
        exact h.limit
      · obtain ⟨_, rfl⟩ := ThreadAssignments.compareExchange_eq_some hta
        rfl
      · exact Function.update_of_ne hu _ _
      · obtain ⟨_, rfl⟩ := ThreadAssignments.compareExchange_eq_some hta
        exact hrec
      · exact Function.update_self _ _ _
    · exact ⟨h, .rfl, hrec, hhold⟩
  | record s =>
    obtain ⟨_, hhold⟩ := hpc
    refine ⟨h.of_eq rfl rfl rfl, ⟨fun u hu => ?_, fun _ _ => rfl⟩, ?_, hhold⟩
    · exact Function.update_of_ne hu _ _
    · exact Function.update_self _ _ _
  | refused next cursor => exact ⟨h.of_eq rfl rfl rfl, ⟨fun _ _ => rfl, fun _ _ => rfl⟩, hpc⟩
  | assigned s => exact ⟨h.of_eq rfl rfl rfl, ⟨fun _ _ => rfl, fun _ _ => rfl⟩, hpc⟩

end Wield.StageChooser
