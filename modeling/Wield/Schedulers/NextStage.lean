import Wield.Schedulers.StageChooser
import Wield.Theory.Search

/-!
# `nextStage` without interference

What a call returns when no other thread moves during it, for any stage chooser, and for the ones
that walk over the stages the place where the walk stops.  `nextStage_runs` ties the sequential
call to the steps that `Call.step` takes for it.
-/

namespace Wield.StageChooser

open Theory

variable {n T : Nat} {P : StageChooser n T} {t : Fin T} {ta ta' : ThreadAssignments n T}
  {own own' : P.State} {c c' : P.Cursor} {entropy : Nat → P.Entropy} {fuel : Nat}

theorem assignLoop_accept {s : Fin n} (hc : P.choose own t c (entropy 0) = (some s, c', own'))
    (hroom : ta.HasRoom s) : P.assignLoop t (fuel + 1) entropy c own ta =
      some (s, P.settle own' (some s), (ta.tryAssign t (some s)).2) := by
  simp only [assignLoop, hc]
  rw [ThreadAssignments.tryAssign_some, if_pos hroom]

theorem assignLoop_refuse {next : StageEnum n}
    (hc : P.choose own t c (entropy 0) = (next, c', own')) (hroom : ¬ At ta.HasRoom next) :
    P.assignLoop t (fuel + 1) entropy c own ta =
      P.assignLoop t fuel (fun i => entropy (i + 1)) c' (P.settle own' next) ta := by
  simp only [assignLoop, hc]
  cases next with
  | none => rfl
  | some s =>
    have hroom' : ¬ ta.HasRoom s := hroom
    rw [ThreadAssignments.tryAssign_some, if_neg hroom']

/-- What the loop returns had room, and the table is changed by the last `tryAssign` only. -/
theorem assignLoop_eq_some {s : Fin n}
    (h : P.assignLoop t fuel entropy c own ta = some (s, own', ta')) :
    ta.HasRoom s ∧ ta' = (ta.tryAssign t (some s)).2 := by
  induction fuel generalizing entropy c own with
  | zero => cases h
  | succ fuel ih =>
    rcases hc : P.choose own t c (entropy 0) with ⟨next, c', own₁⟩
    -- without interference `tryAssign` accepts exactly a stage with room
    by_cases hroom : At ta.HasRoom next
    · cases next with
      | none => exact hroom.elim
      | some next =>
        rw [assignLoop_accept hc hroom] at h
        cases h
        exact ⟨hroom, rfl⟩
    · rw [assignLoop_refuse hc hroom] at h
      exact ih h

/-- A finished call leaves a consistent table that names the returned stage. -/
theorem nextStage_counted {s : Fin n} (hta : ta.Counted)
    (h : P.nextStage fuel entropy t own ta = some (s, own', ta')) :
    ta'.Counted ∧ ta'.threadAssignment t = some s := by
  obtain ⟨hroom, rfl⟩ := assignLoop_eq_some h
  obtain ⟨hcounted, hnone⟩ := hta.removeCurrentAssignment t
  exact hcounted.tryAssign hnone hroom

/-- `nextStage(threadId)` returns `stage` if nobody interferes. -/
def Returns (P : StageChooser n T) (threadId : Fin T) (own : P.State) (ta : ThreadAssignments n T)
    (stage : Fin n) : Prop :=
  ∃ fuel entropy, (P.nextStage fuel entropy threadId own ta).map (·.1) = some stage

/-! ## Walks -/

section Walk

variable {State : Type} {next : StageEnum n → StageEnum n}
  {start : State → StageEnum n → StageEnum n} {batchEnd : State → Bool → State}
  {init : (Fin n → SizeT) → State → Prop}

theorem assignLoop_walk_of_firstHit {c : StageEnum n} {own : State} {entropy : Nat → Unit}
    {s : Fin n} {k fuel : Nat} (h : FirstHit next (At ta.HasRoom) c k (some s)) (hk : k < fuel) :
    (walk State next start batchEnd init).assignLoop t fuel entropy c own ta =
      some (s, own, (ta.tryAssign t (some s)).2) := by
  -- each refused place uses up one round
  obtain ⟨fuel, rfl⟩ : ∃ f, fuel = f + 1 := ⟨fuel - 1, by omega⟩
  generalize hb : some s = b at h
  induction h generalizing fuel entropy with
  | @hit c hroom =>
    have hchoose : (walk State next start batchEnd init).choose own t c (entropy 0) =
        (some s, next c, own) := by
      rw [hb]
    rw [← hb] at hroom ⊢
    exact assignLoop_accept hchoose hroom
  | miss hmiss _ ih =>
    obtain ⟨fuel, rfl⟩ : ∃ f, fuel = f + 1 := ⟨fuel - 1, by omega⟩
    rw [assignLoop_refuse rfl hmiss]
    exact ih fuel (by omega) hb

theorem firstHit_of_assignLoop_walk {c : StageEnum n} {own own' : State} {entropy : Nat → Unit}
    {s : Fin n} (h : (walk State next start batchEnd init).assignLoop t fuel entropy c own ta =
      some (s, own', ta')) : own' = own ∧ ∃ k, FirstHit next (At ta.HasRoom) c k (some s) := by
  induction fuel generalizing entropy c with
  | zero => cases h
  | succ fuel ih =>
    by_cases hroom : At ta.HasRoom (next c)
    · cases hnext : next c with
      | none =>
        rw [hnext] at hroom
        exact hroom.elim
      | some r =>
        have hchoose : (walk State next start batchEnd init).choose own t c (entropy 0) =
            (some r, next c, own) := by
          rw [← hnext]
        rw [assignLoop_accept hchoose (hnext ▸ hroom : At ta.HasRoom (some r))] at h
        cases h
        exact ⟨rfl, 0, hnext ▸ .hit hroom⟩
    · rw [assignLoop_refuse rfl hroom] at h
      obtain ⟨hown, k, hk⟩ := ih h
      exact ⟨hown, k + 1, .miss hroom hk⟩

/-- A walk returns the first stage with room. -/
theorem returns_walk_iff {own : State} {s : Fin n} :
    Returns (walk State next start batchEnd init) t own ta s ↔
      ∃ k, FirstHit next (At (ta.removeCurrentAssignment t).2.HasRoom)
        (start own (ta.threadAssignment t)) k (some s) := by
  rw [← ThreadAssignments.removeCurrentAssignment_fst]
  constructor
  · rintro ⟨fuel, entropy, h⟩
    obtain ⟨⟨r, own', ta'⟩, hr, rfl⟩ := Option.map_eq_some_iff.mp h
    exact (firstHit_of_assignLoop_walk hr).2
  · rintro ⟨k, hk⟩
    refine ⟨k + 1, fun _ => (), ?_⟩
    rw [nextStage]
    dsimp only
    rw [assignLoop_walk_of_firstHit hk (Nat.lt_succ_self k)]
    rfl

end Walk

/-! ## The steps of a sequential call -/

/-- Thread `t` alone comes from inside `nextStage` to the return of `stage`. -/
inductive Call.Runs (t : Fin T) : P.Shared → P.Pc → P.Shared → Fin n → Prop where
  | last {σ σ' : P.Shared} {pc : P.Pc} {s : Fin n} (e : P.Entropy) :
      Call.step σ t e pc = (σ', .inr s) → Call.Runs t σ pc σ' s
  | next {σ σ' σ'' : P.Shared} {pc pc' : P.Pc} {s : Fin n} (e : P.Entropy) :
      Call.step σ t e pc = (σ', .inl pc') → Call.Runs t σ' pc' σ'' s → Call.Runs t σ pc σ'' s

theorem assignLoop_runs {σ : P.Shared} {s : Fin n}
    (h : P.assignLoop t fuel entropy c σ.own σ.ta = some (s, own', ta')) :
    ∃ σ', Call.Runs t σ (.choose c) σ' s ∧ σ'.own = own' ∧ σ'.ta = ta' := by
  induction fuel generalizing entropy c σ with
  | zero => cases h
  | succ fuel ih =>
    rcases hc : P.choose σ.own t c (entropy 0) with ⟨next, c', own₁⟩
    have hchoose : Call.step σ t (entropy 0) (.choose c) =
        ({ σ with own := own₁ }, .inl (.load next c')) := by
      simp only [Call.step, hc]
    by_cases hroom : At σ.ta.HasRoom next
    · cases next with
      | none => exact hroom.elim
      | some next =>
        rw [assignLoop_accept hc hroom] at h
        cases h
        have hroom : σ.ta.HasRoom s := hroom
        -- the exchange compares the counter with itself
        have hexchange : Call.step { σ with own := own₁ } t (entropy 0)
            (.exchange s (σ.ta.threadsPerStage s) c') =
            ({ own := own₁
               ta := { σ.ta with
                threadsPerStage := Function.update σ.ta.threadsPerStage s
                  (σ.ta.threadsPerStage s + 1) }
               holding := Function.update σ.holding t (some s) }, .inl (.record s)) := by
          simp only [Call.step, ThreadAssignments.compareExchange, if_true]
        refine ⟨{ own := P.settle own₁ (some s)
                  ta := (σ.ta.tryAssign t (some s)).2
                  holding := Function.update σ.holding t (some s) }, ?_, rfl, rfl⟩
        -- choose, load, exchange, record, return
        rw [ThreadAssignments.tryAssign_some, if_pos hroom]
        exact .next _ hchoose (.next (entropy 0) (if_pos hroom) (.next _ hexchange
          (.next (entropy 0) rfl (.last (entropy 0) rfl))))
    · rw [assignLoop_refuse hc hroom] at h
      obtain ⟨σ', hruns, hσ'⟩ := ih (σ := { σ with own := P.settle own₁ next }) h
      -- choose, load, refused, and the next round
      have hload : Call.step { σ with own := own₁ } t (entropy 0) (.load next c') =
          ({ σ with own := own₁ }, .inl (.refused next c')) := by
        cases next with
        | none => rfl
        | some next => exact if_neg hroom
      exact ⟨σ', .next _ hchoose (.next _ hload (.next (entropy 0) rfl hruns)), hσ'⟩

/-- The steps of one thread alone end as the sequential call does. -/
theorem nextStage_runs {σ : P.Shared} {s : Fin n}
    (h : P.nextStage fuel entropy t σ.own σ.ta = some (s, own', ta')) :
    ∃ σ', Call.Runs t σ .enter σ' s ∧ σ'.own = own' ∧ σ'.ta = ta' := by
  rw [nextStage] at h
  cases hs : σ.ta.threadAssignment t with
  | none =>
    simp only [ThreadAssignments.removeCurrentAssignment, hs] at h
    obtain ⟨σ', hruns, hσ'⟩ := assignLoop_runs h
    have henter : Call.step σ t (entropy 0) .enter = (σ, .inl (.start none)) := by
      simp only [Call.step, hs]
    exact ⟨σ', .next _ henter (.next (entropy 0) rfl hruns), hσ'⟩
  | some current =>
    simp only [ThreadAssignments.removeCurrentAssignment, hs] at h
    obtain ⟨σ', hruns, hσ'⟩ := assignLoop_runs
      (σ := { σ with
        ta := (σ.ta.decrement current).setAssignment t StageEnum.NumberOfEntries
        holding := Function.update σ.holding t none }) h
    have henter : Call.step σ t (entropy 0) .enter = (σ, .inl (.decrement current)) := by
      simp only [Call.step, hs]
    exact ⟨σ', .next _ henter (.next (entropy 0) rfl (.next (entropy 0) rfl
      (.next (entropy 0) rfl hruns))), hσ'⟩

end Wield.StageChooser
