import Wield.SchedulerBase.Work

/-!
# Lost work under `Color` and `ColorMinus`

Both policies take the advertisement of a stage off before they know whether the thread can enter
the stage.  If the visitors that fill the stage have had their empty poll, a message that arrived
since is stranded.  The results below say exactly which steps do that.
-/

namespace Wield.SchedulerBase

open Theory StageChooser

variable {n T C : Nat} {concurrency : Fin n → SizeT} {A : Application n}

section Initial

variable {P : StageChooser n T} {σ : State (P.policy concurrency) A C}

theorem NoWorkLost.initial {advertised : P.State → Fin n → Prop} (h : Initial σ) :
    NoWorkLost advertised σ :=
  fun s _ hne => absurd (h.queue s) hne

/-- A thread that serves nothing can strand nothing by a step that keeps what is advertised. -/
theorem NoWorkLost.not_strands {advertised : P.State → Fin n → Prop} (h : NoWorkLost advertised σ)
    {a : Agent T C} {s : Fin n} (ha : ¬ Serves σ s a) :
    ¬ Strands advertised σ a s σ.policy.own := by
  intro hstrands
  rcases noWorkLost_iff.mp h s hstrands.limit hstrands.waiting with hadv | hserved
  · exact hstrands.silent hadv
  · exact ((exists_serves_iff a s).mp hserved).elim ha hstrands.alone

end Initial

/-! ## `Color` -/

namespace Color

/-- The work queue contains the stage. -/
abbrev Advertised (workQueue : List (Fin n)) (s : Fin n) : Prop :=
  s ∈ workQueue

theorem advertises : Advertises (P := Color.chooser n T) Advertised where
  choose workQueue _ _ _ s h := by
    cases workQueue with
    | nil => cases h
    | cons name workQueue => exact (List.mem_cons.mp h).imp_left (congrArg some ·.symm)
  settle _ _ _ _ h := h
  batchEnd _ _ _ h := h
  dispatched _ _ _ _ h := List.mem_append_left _ h

/-- A message that waits is due to be popped, its stage being named in the work queue, in the hands
    of a thread or visited. -/
def WorkKept (σ : State ((Color.chooser n T).policy concurrency) A C) : Prop :=
  NoWorkLost (P := Color.chooser n T) Advertised σ

instance (σ : State ((Color.chooser n T).policy concurrency) A C) : Decidable (WorkKept σ) :=
  inferInstanceAs (Decidable (NoWorkLost (P := Color.chooser n T) Advertised σ))

/-- The action makes `tryAssign` refuse a popped stage name, or ends a visit by an exception, when
    messages wait at that stage and nobody else is due to advertise or to poll it. -/
def DropsLastName (σ : State ((Color.chooser n T).policy concurrency) A C) :
    Action ((Color.chooser n T).policy concurrency) A C → Prop
  | .thread t _ _ => ∃ s, Refuses σ t s ∧ Strands Advertised σ (.inl t) s σ.policy.own
  | .throw t =>
    ∃ s m todo, σ.pc t = .running s m todo ∧ Strands Advertised σ (.inl t) s σ.policy.own
  | _ => False

theorem losesWork_iff {σ : State ((Color.chooser n T).policy concurrency) A C}
    (h : NoWorkLost Advertised σ) (a : Action ((Color.chooser n T).policy concurrency) A C) :
    LosesWork Advertised σ a ↔ DropsLastName σ a := by
  cases a with
  | thread t e v =>
    refine ⟨?_, .inl⟩
    rintro (hdrop | ⟨s, c, hpc, hstrands⟩ | ⟨r, m, s, todo, hpc, hne, hstrands⟩)
    · exact hdrop
    · refine absurd hstrands (h.not_strands ?_)
      rw [serves_thread hpc]
      simp
    · exact absurd (List.mem_append_right _ (List.mem_singleton_self s)) hstrands.silent
  | dispatched c =>
    refine ⟨?_, False.elim⟩
    rintro ⟨s, _, hstrands⟩
    exact hstrands.silent (List.mem_append_right _ (List.mem_singleton_self s))
  | _ => exact Iff.rfl

/-- The runs that strand no message are the ones in which no last name is dropped. -/
theorem workKept_iff_no_name_dropped {σ : State ((Color.chooser n T).policy concurrency) A C}
    (hσ : Initial σ) (as : List (Action ((Color.chooser n T).policy concurrency) A C)) :
    (system ((Color.chooser n T).policy concurrency) A C).Always WorkKept σ as ↔
      (system ((Color.chooser n T).policy concurrency) A C).Steps
        (fun σ a => ¬ DropsLastName σ a) σ as := by
  refine Lts.always_iff_steps (I := fun _ => True) ⟨fun _ _ => trivial, fun _ _ _ _ _ => trivial⟩
    (fun σ a σ' _ hX hs => ?_) trivial (.initial hσ) as
  exact (noWorkLost_step advertises hX (step_inv hs)).trans (not_congr (losesWork_iff hX a))

/-- A message arrives after the empty poll of the thread that visits the stage.  Its name is popped
    by a second thread. -/
def lateMessage (c : Fin C) (s : Fin n) (first second : Fin T) :
    List (Action ((Color.chooser n T).policy concurrency) (.sink n false) C) :=
  .push c s (7 : Nat) :: .dispatched c :: List.replicate 11 (.thread first () ()) ++
    .push c s (8 : Nat) :: .dispatched c :: List.replicate 5 (.thread second () ())

theorem workKept_iff_no_name_dropped_late :
    (system ((Color.chooser 1 2).policy fun _ => 1) (.sink 1 false) 1).Always WorkKept
        (State.fresh (.fresh (fun _ => 1) [])) (lateMessage 0 0 0 1) ↔
      (system ((Color.chooser 1 2).policy fun _ => 1) (.sink 1 false) 1).Steps
        (fun σ a => ¬ DropsLastName σ a)
        (State.fresh (.fresh (fun _ => 1) [])) (lateMessage 0 0 0 1) :=
  workKept_iff_no_name_dropped (State.fresh_initial ⟨rfl, fun _ => rfl, rfl⟩) (lateMessage 0 0 0 1)

/-- The second thread finds the only stage full and drops the name. -/
theorem name_dropped :
    ∃ σ, (system ((Color.chooser 1 2).policy fun _ => 1) (.sink 1 false) 1).Reachable σ ∧
      ¬ WorkKept σ :=
  Lts.exists_reachable_of_run
    (system ((Color.chooser 1 2).policy fun _ => 1) (.sink 1 false) 1)
    (State.fresh (.fresh (fun _ => 1) [])) (lateMessage 0 0 0 1) (fun σ => ¬ WorkKept σ)
    (State.fresh_initial ⟨rfl, fun _ => rfl, rfl⟩) (by decide)

end Color

/-! ## `ColorMinus` -/

namespace ColorMinus

/-- The stage has a positive depth estimate. -/
abbrev Advertised (stats : ColorMinus.Stats n) (s : Fin n) : Prop :=
  0 < stats.estimatedDepth s

theorem advertises : Advertises (P := ColorMinus.chooser n T) Advertised where
  choose _ _ _ _ _ h := .inr h
  settle stats next s hs h := by
    cases next with
    | none => exact h
    | some next =>
      have hne : s ≠ next := fun heq => hs (congrArg some heq.symm)
      simp only [Advertised, ColorMinus.updatePrevious,
        MessageCount.estimatedDepth_updatePrevious_of_ne hne]
      exact h
  batchEnd _ _ _ h := h
  dispatched stats target s hs h := by
    simp only [Advertised, MessageCount.estimatedDepth_increment_of_ne hs]
    exact h

/-- A message that waits is due to be found, its stage having a positive estimate, in the hands of
    a thread or visited. -/
def WorkKept (σ : State ((ColorMinus.chooser n T).policy concurrency) A C) : Prop :=
  NoWorkLost (P := ColorMinus.chooser n T) Advertised σ

instance (σ : State ((ColorMinus.chooser n T).policy concurrency) A C) : Decidable (WorkKept σ) :=
  inferInstanceAs (Decidable (NoWorkLost (P := ColorMinus.chooser n T) Advertised σ))

/-- The runs that strand no message are the ones without a step of `LosesWork`. -/
theorem workKept_iff_no_work_lost {σ : State ((ColorMinus.chooser n T).policy concurrency) A C}
    (hσ : Initial σ) (as : List (Action ((ColorMinus.chooser n T).policy concurrency) A C)) :
    (system ((ColorMinus.chooser n T).policy concurrency) A C).Always WorkKept σ as ↔
      (system ((ColorMinus.chooser n T).policy concurrency) A C).Steps
        (fun σ a => ¬ LosesWork Advertised σ a) σ as := by
  refine Lts.always_iff_steps (I := fun _ => True) ⟨fun _ _ => trivial, fun _ _ _ _ _ => trivial⟩
    (fun σ a σ' _ hX hs => ?_) trivial (.initial hσ) as
  exact noWorkLost_step advertises hX (step_inv hs)

/-- A message arrives after the empty poll of the thread that visits the stage.  A second thread
    picks the stage. -/
def lateMessage (c : Fin C) (s : Fin n) (first second : Fin T) :
    List (Action ((ColorMinus.chooser n T).policy concurrency) (.sink n false) C) :=
  .push c s (7 : Nat) :: .dispatched c :: List.replicate 11 (.thread first () ()) ++
    .push c s (8 : Nat) :: .dispatched c :: List.replicate 6 (.thread second () ())

theorem workKept_iff_no_work_lost_late :
    (system ((ColorMinus.chooser 1 2).policy fun _ => 1) (.sink 1 false) 1).Always WorkKept
        (State.fresh (.fresh (fun _ => 1) MessageCount.reset)) (lateMessage 0 0 0 1) ↔
      (system ((ColorMinus.chooser 1 2).policy fun _ => 1) (.sink 1 false) 1).Steps
        (fun σ a => ¬ LosesWork Advertised σ a)
        (State.fresh (.fresh (fun _ => 1) MessageCount.reset)) (lateMessage 0 0 0 1) :=
  workKept_iff_no_work_lost (State.fresh_initial ⟨rfl, fun _ => rfl, rfl⟩) (lateMessage 0 0 0 1)

/-- The second thread finds the only stage full and wipes the estimate. -/
theorem estimate_wiped :
    ∃ σ, (system ((ColorMinus.chooser 1 2).policy fun _ => 1) (.sink 1 false) 1).Reachable σ ∧
      ¬ WorkKept σ :=
  Lts.exists_reachable_of_run
    (system ((ColorMinus.chooser 1 2).policy fun _ => 1) (.sink 1 false) 1)
    (State.fresh (.fresh (fun _ => 1) MessageCount.reset)) (lateMessage 0 0 0 1)
    (fun σ => ¬ WorkKept σ)
    (State.fresh_initial ⟨rfl, fun _ => rfl, rfl⟩) (by decide)

end ColorMinus

end Wield.SchedulerBase
