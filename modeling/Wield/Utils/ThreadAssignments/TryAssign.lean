import Wield.Theory.Lts
import Wield.Utils.ThreadAssignments

/-!
# `tryAssign` under contention

Any number of threads call `tryAssign` and `removeCurrentAssignment` on one table, each for itself
and as it likes, and their accesses are interleaved.  The load and the exchange of `tryAssign` are
separate steps, and the exchange is attempted only once.
-/

namespace Wield.ThreadAssignments

open Theory

variable {n T : Nat}

namespace Accesses

/-- Where a thread is in its calls. -/
inductive Pc (n : Nat) where
  | outside
  /-- In `tryAssign`, about to load the counter of `next`. -/
  | load (next : Fin n)
  | exchange (next : Fin n) (currentVisitors : SizeT)
  | record (next : Fin n)
  /-- `tryAssign` has returned. -/
  | returned (next : Fin n) (success : Bool)
  /-- In `removeCurrentAssignment`, about to read its own entry. -/
  | enter
  | decrement (current : Fin n)
  | clear (current : Fin n)
  deriving DecidableEq

structure Thread (n : Nat) where
  pc : Pc n
  /-- History: whether the stage had room just before the latest `compare_exchange`. -/
  hadRoom : Bool
  /-- History: whether the stage has been full at some instant from the load of the latest
      `tryAssign` on, until that call returned. -/
  wasFull : Bool

/-- A new call may begin. -/
def Pc.idle : Pc n → Bool
  | .outside | .returned _ _ => true
  | _ => false

/-- A thread between load and exchange sees whether the stage is full at this instant. -/
def Thread.observe (ta : ThreadAssignments n T) (thread : Thread n) : Thread n :=
  match thread.pc with
  | .exchange next _ => { thread with wasFull := thread.wasFull || !decide (ta.HasRoom next) }
  | _ => thread

/-- The next access of thread `threadId`. -/
def access (ta : ThreadAssignments n T) (threadId : Fin T) (thread : Thread n) :
    Option (ThreadAssignments n T × Thread n) :=
  match thread.pc with
  | .outside | .returned _ _ => none
  | .load next =>
    let currentVisitors := ta.threadsPerStage next
    if currentVisitors < ta.maximumConcurrency next then
      some (ta, { thread with pc := .exchange next currentVisitors, wasFull := false })
    else some (ta, { thread with pc := .returned next false, wasFull := true })
  | .exchange next currentVisitors =>
    let thread := { thread with hadRoom := decide (ta.HasRoom next) }
    match ta.compareExchange next currentVisitors with
    | some ta => some (ta, { thread with pc := .record next })
    | none => some (ta, { thread with pc := .returned next false })
  | .record next =>
    some (ta.setAssignment threadId (some next), { thread with pc := .returned next true })
  | .enter =>
    match ta.threadAssignment threadId with
    | some current => some (ta, { thread with pc := .decrement current })
    | none => some (ta, { thread with pc := .outside })
  | .decrement current => some (ta.decrement current, { thread with pc := .clear current })
  | .clear _ =>
    some (ta.setAssignment threadId StageEnum.NumberOfEntries, { thread with pc := .outside })

inductive Action (n T : Nat) where
  | tryAssign (t : Fin T) (next : Fin n)
  | removeCurrentAssignment (t : Fin T)
  | access (t : Fin T)

end Accesses

/-- A table and the threads that use it. -/
structure Accesses (n T : Nat) where
  ta : ThreadAssignments n T
  thread : Fin T → Accesses.Thread n

namespace Accesses

/-- Thread `t` has made a step, and all threads see the state after it. -/
def move (σ : Accesses n T) (t : Fin T) (ta : ThreadAssignments n T) (thread : Thread n) :
    Accesses n T where
  ta := ta
  thread u := (Function.update σ.thread t thread u).observe ta

def step (σ : Accesses n T) : Action n T → Option (Accesses n T)
  | .tryAssign t next =>
    if (σ.thread t).pc.idle then some (σ.move t σ.ta { σ.thread t with pc := .load next })
    else none
  | .removeCurrentAssignment t =>
    if (σ.thread t).pc.idle then some (σ.move t σ.ta { σ.thread t with pc := .enter }) else none
  | .access t =>
    (access σ.ta t (σ.thread t)).map fun (ta, thread) => σ.move t ta thread

/-- A new table, before the first call. -/
def fresh (concurrency : Fin n → SizeT) : Accesses n T where
  ta := ThreadAssignments.init concurrency
  thread _ := { pc := .outside, hadRoom := false, wasFull := false }

variable (T) in
def system (concurrency : Fin n → SizeT) : Lts (Accesses n T) (Action n T) where
  init σ := σ = fresh concurrency
  step := step

/-! ## What holds between load and exchange -/

/-- The value that was loaded is below the limit, and a successful exchange found room. -/
def Thread.Limited (concurrency : Fin n → SizeT) (thread : Thread n) : Prop :=
  match thread.pc with
  | .exchange next currentVisitors => currentVisitors < concurrency next
  | .record _ => thread.hadRoom = true
  | _ => True

/-- What the result of `tryAssign` says about the stage. -/
def Thread.Linearised (thread : Thread n) : Prop :=
  match thread.pc with
  | .returned _ true => thread.hadRoom = true
  | .returned _ false => thread.wasFull = true
  | _ => True

/-- The thread is not about to find the counter changed on a stage that has had room since the
    load. -/
def Thread.NotOvertaken (ta : ThreadAssignments n T) (thread : Thread n) : Prop :=
  match thread.pc with
  | .exchange next currentVisitors =>
    ta.threadsPerStage next = currentVisitors ∨ thread.wasFull = true
  | _ => True

@[simp] theorem Thread.observe_pc (ta : ThreadAssignments n T) (thread : Thread n) :
    (thread.observe ta).pc = thread.pc := by
  unfold observe
  split <;> rfl

@[simp] theorem Thread.observe_hadRoom (ta : ThreadAssignments n T) (thread : Thread n) :
    (thread.observe ta).hadRoom = thread.hadRoom := by
  unfold observe
  split <;> rfl

@[simp] theorem Thread.limited_observe {concurrency : Fin n → SizeT}
    (ta : ThreadAssignments n T) (thread : Thread n) :
    (thread.observe ta).Limited concurrency ↔ thread.Limited concurrency := by
  simp only [Limited, observe_pc, observe_hadRoom]

@[simp] theorem Thread.linearised_observe (ta : ThreadAssignments n T) (thread : Thread n) :
    (thread.observe ta).Linearised ↔ thread.Linearised := by
  unfold observe
  split
  · rename_i hpc
    simp only [Linearised, hpc]
  · rfl

/-- A thread between load and exchange has seen its stage full if it is full now. -/
theorem Thread.wasFull_of_observe {ta : ThreadAssignments n T} {thread : Thread n} {next : Fin n}
    {seen : SizeT} (hpc : (thread.observe ta).pc = .exchange next seen)
    (hfull : ¬ ta.HasRoom next) : (thread.observe ta).wasFull = true := by
  rw [observe_pc] at hpc
  simp only [observe, hpc, hfull, decide_false, Bool.not_false, Bool.or_true]

theorem move_self (σ : Accesses n T) (t : Fin T) (ta : ThreadAssignments n T)
    (thread : Thread n) : (σ.move t ta thread).thread t = thread.observe ta := by
  simp only [move, Function.update_self]

theorem move_of_ne (σ : Accesses n T) {t u : Fin T} (hu : u ≠ t) (ta : ThreadAssignments n T)
    (thread : Thread n) : (σ.move t ta thread).thread u = (σ.thread u).observe ta := by
  simp only [move, Function.update_of_ne hu]

/-- Updating one thread, as seen through a predicate that does not depend on `wasFull` between load
    and exchange. -/
theorem move_forall {P : Thread n → Prop} {σ : Accesses n T}
    (hP : ∀ ta' thread, P (thread.observe (T := T) ta') ↔ P thread) (t : Fin T)
    (ta : ThreadAssignments n T) (thread : Thread n) (h : ∀ u, P (σ.thread u)) :
    (∀ u, P ((σ.move t ta thread).thread u)) ↔ P thread := by
  simp only [move, hP]
  rw [Function.forall_update_iff σ.thread fun _ => P]
  exact and_iff_left fun u _ => h u

/-! ## The accesses -/

/-- What the accesses have in common. -/
structure Accessed (ta : ThreadAssignments n T) (thread : Thread n) (ta' : ThreadAssignments n T)
    (thread' : Thread n) : Prop where
  limit : ta'.maximumConcurrency = ta.maximumConcurrency
  limited : thread'.Limited ta.maximumConcurrency
  linearised : thread'.Linearised ↔ thread.NotOvertaken ta
  loaded : ∀ next seen, thread'.pc = .exchange next seen → ta'.threadsPerStage next = seen

theorem access_spec {ta ta' : ThreadAssignments n T} {t : Fin T} {thread thread' : Thread n}
    (hlimited : thread.Limited ta.maximumConcurrency)
    (h : access ta t thread = some (ta', thread')) : Accessed ta thread ta' thread' := by
  unfold access at h
  split at h
  · cases h
  · cases h
  · -- the load
    rename_i next hpc
    dsimp only at h
    split at h
    · rename_i hlt
      cases h
      refine ⟨rfl, hlt, ?_, fun _ _ hseen => by cases hseen; rfl⟩
      simp only [Thread.Linearised, Thread.NotOvertaken, hpc]
    · cases h
      refine ⟨rfl, trivial, ?_, fun _ _ hseen => by cases hseen⟩
      simp only [Thread.Linearised, Thread.NotOvertaken, hpc]
  · -- the exchange
    rename_i next seen hpc
    have hseen : seen < ta.maximumConcurrency next := by
      simpa only [Thread.Limited, hpc] using hlimited
    dsimp only at h
    split at h
    · rename_i exchanged hexchange
      obtain ⟨hcounter, rfl⟩ := compareExchange_eq_some hexchange
      cases h
      have hroom : ta.HasRoom next := by
        rw [HasRoom, hcounter]
        exact hseen
      refine ⟨rfl, decide_eq_true hroom, ?_, fun _ _ hseen => by cases hseen⟩
      simp only [Thread.Linearised, Thread.NotOvertaken, hpc, hcounter, true_or]
    · rename_i hexchange
      cases h
      have hcounter : ta.threadsPerStage next ≠ seen := by
        intro heq
        rw [compareExchange, if_pos heq] at hexchange
        cases hexchange
      refine ⟨rfl, trivial, ?_, fun _ _ hseen => by cases hseen⟩
      simp only [Thread.Linearised, Thread.NotOvertaken, hpc, hcounter, false_or]
  · -- the entry of a successful call
    rename_i next hpc
    cases h
    refine ⟨rfl, trivial, ?_, fun _ _ hseen => by cases hseen⟩
    have hroom : thread.hadRoom = true := by simpa only [Thread.Limited, hpc] using hlimited
    simp only [Thread.Linearised, Thread.NotOvertaken, hpc, hroom]
  · -- `removeCurrentAssignment`
    rename_i hpc
    split at h <;> cases h <;>
      exact ⟨rfl, trivial, by simp only [Thread.Linearised, Thread.NotOvertaken, hpc],
        fun _ _ hseen => by cases hseen⟩
  · rename_i hpc
    cases h
    exact ⟨rfl, trivial, by simp only [Thread.Linearised, Thread.NotOvertaken, hpc],
      fun _ _ hseen => by cases hseen⟩
  · rename_i hpc
    cases h
    exact ⟨rfl, trivial, by simp only [Thread.Linearised, Thread.NotOvertaken, hpc],
      fun _ _ hseen => by cases hseen⟩

/-- A step begins a call, or makes one access. -/
theorem step_cases {σ σ' : Accesses n T} {a : Action n T} (h : step σ a = some σ') :
    (∃ t pc, (∀ u, a ≠ .access u) ∧ ((∃ next, pc = .load next) ∨ pc = .enter) ∧
      σ' = σ.move t σ.ta { σ.thread t with pc }) ∨
    ∃ t ta thread, a = .access t ∧ access σ.ta t (σ.thread t) = some (ta, thread) ∧
      σ' = σ.move t ta thread := by
  cases a with
  | tryAssign t next =>
    simp only [step, Option.ite_none_right_eq_some, Option.some.injEq] at h
    exact .inl ⟨t, .load next, by simp, .inl ⟨next, rfl⟩, h.2.symm⟩
  | removeCurrentAssignment t =>
    simp only [step, Option.ite_none_right_eq_some, Option.some.injEq] at h
    exact .inl ⟨t, .enter, by simp, .inr rfl, h.2.symm⟩
  | access t =>
    obtain ⟨⟨ta, thread⟩, haccess, heq⟩ := Option.map_eq_some_iff.mp h
    exact .inr ⟨t, ta, thread, rfl, haccess, heq.symm⟩

/-- The limits are the ones of the construction, and a thread that has loaded a counter is within
    them and sees the stage when it is full. -/
structure Consistent (concurrency : Fin n → SizeT) (σ : Accesses n T) : Prop where
  limit : σ.ta.maximumConcurrency = concurrency
  limited : ∀ t, (σ.thread t).Limited concurrency
  observed : ∀ t next seen, (σ.thread t).pc = .exchange next seen → ¬ σ.ta.HasRoom next →
    (σ.thread t).wasFull = true

theorem consistent_invariant (concurrency : Fin n → SizeT) :
    (system T concurrency).Invariant (Consistent concurrency) where
  init := by
    rintro _ rfl
    exact ⟨rfl, fun _ => trivial, fun _ _ _ hpc => by cases hpc⟩
  step σ a σ' hσ h := by
    have hmove : ∀ t ta thread, ta.maximumConcurrency = concurrency →
        thread.Limited concurrency → Consistent concurrency (σ.move t ta thread) :=
      fun t ta thread hlimit hlimited =>
        ⟨hlimit, (move_forall (by simp) t ta thread hσ.limited).mpr hlimited,
          fun _ _ _ hpc hfull => Thread.wasFull_of_observe hpc hfull⟩
    rcases step_cases h with ⟨t, pc, -, hpc, rfl⟩ | ⟨t, ta, thread, -, haccess, rfl⟩
    · apply hmove _ _ _ hσ.limit
      rcases hpc with ⟨_, rfl⟩ | rfl <;> trivial
    · have hthread := hσ.limited t
      rw [← hσ.limit] at hthread
      have hspec := access_spec hthread haccess
      exact hmove _ _ _ (hspec.limit.trans hσ.limit) (hσ.limit ▸ hspec.limited)

/-! ## When the result speaks of the stage -/

/-- The step is not an exchange that finds the counter changed on a stage that has had room since
    the load. -/
def NotOvertaken (σ : Accesses n T) (a : Action n T) : Prop :=
  ∀ t, a = .access t → (σ.thread t).NotOvertaken σ.ta

theorem always_linearised_iff (concurrency : Fin n → SizeT) (as : List (Action n T)) :
    (system T concurrency).Always (fun σ => ∀ t, (σ.thread t).Linearised) (fresh concurrency) as ↔
      (system T concurrency).Steps NotOvertaken (fresh concurrency) as := by
  apply Lts.always_iff_steps (consistent_invariant concurrency)
  · intro σ a σ' hσ hlinearised h
    rcases step_cases h with ⟨t, pc, ha, hpc, rfl⟩ | ⟨t, ta, thread, rfl, haccess, rfl⟩
    · rw [move_forall (by simp) t _ _ hlinearised]
      constructor
      · intro _ u hu
        exact absurd hu (ha u)
      · intro _
        rcases hpc with ⟨_, rfl⟩ | rfl <;> trivial
    · have hthread := hσ.limited t
      rw [← hσ.limit] at hthread
      rw [move_forall (by simp) t _ _ hlinearised, (access_spec hthread haccess).linearised]
      constructor
      · intro hnot u hu
        cases hu
        exact hnot
      · intro hnot
        exact hnot t rfl
  · exact (consistent_invariant concurrency).init _ rfl
  · exact fun _ => trivial

/-- With one thread nothing happens between load and exchange. -/
theorem loaded_invariant (hT : T ≤ 1) (concurrency : Fin n → SizeT) :
    (system T concurrency).Invariant fun σ => Consistent concurrency σ ∧
      ∀ t next seen, (σ.thread t).pc = .exchange next seen →
        σ.ta.threadsPerStage next = seen where
  init σ hσ := by
    refine ⟨(consistent_invariant concurrency).init σ hσ, ?_⟩
    cases hσ
    exact fun _ _ _ hpc => by cases hpc
  step σ a σ' hσ h := by
    refine ⟨(consistent_invariant concurrency).step σ a σ' hσ.1 h, ?_⟩
    intro u next seen hpc
    rcases step_cases h with ⟨t, pc, -, hstart, rfl⟩ | ⟨t, ta, thread, -, haccess, rfl⟩
    all_goals
      obtain rfl : u = t := Fin.ext (by omega)
      simp only [move, Thread.observe_pc, Function.update_self] at hpc
    · rcases hstart with ⟨_, rfl⟩ | rfl <;> cases hpc
    · have hthread := hσ.1.limited u
      rw [← hσ.1.limit] at hthread
      exact (access_spec hthread haccess).loaded next seen hpc

theorem notOvertaken_of_thread (hT : T ≤ 1) (concurrency : Fin n → SizeT)
    (as : List (Action n T)) :
    (system T concurrency).Steps NotOvertaken (fresh concurrency) as := by
  refine Lts.steps_of_invariant (loaded_invariant hT concurrency) ?_
    ((loaded_invariant hT concurrency).init _ rfl) as
  intro σ a hσ t _
  unfold Thread.NotOvertaken
  split
  · rename_i next seen hpc
    exact .inl (hσ.2 t next seen hpc)
  · trivial

/-- On a stage for one visitor a counter that has changed since the load has been the limit. -/
theorem notOvertaken_of_limit {concurrency : Fin n → SizeT} (hone : ∀ s, concurrency s ≤ 1)
    (as : List (Action n T)) :
    (system T concurrency).Steps NotOvertaken (fresh concurrency) as := by
  refine Lts.steps_of_invariant (consistent_invariant concurrency) ?_
    ((consistent_invariant concurrency).init _ rfl) as
  intro σ a hσ t _
  unfold Thread.NotOvertaken
  split
  · rename_i next seen hpc
    by_cases hcounter : σ.ta.threadsPerStage next = seen
    · exact .inl hcounter
    · right
      apply hσ.observed t next seen hpc
      have hseen := hσ.limited t
      simp only [Thread.Limited, hpc] at hseen
      have hlimit := hone next
      rw [HasRoom, hσ.limit]
      bv_omega
  · trivial

/-- Between load and exchange of `next`, with the counter loaded as `seen`; the stage has had room
    since. -/
def Undecided (next : Fin n) (seen : SizeT) (thread : Thread n) : Prop :=
  thread.pc = .exchange next seen ∧ thread.wasFull = false

theorem Undecided.observe {next : Fin n} {seen : SizeT} {thread : Thread n}
    (h : Undecided next seen thread) {ta : ThreadAssignments n T} (hroom : ta.HasRoom next) :
    Undecided next seen (thread.observe ta) := by
  obtain ⟨hpc, hwas⟩ := h
  refine ⟨(Thread.observe_pc ta thread).trans hpc, ?_⟩
  simp only [Thread.observe, hpc, hwas, hroom, decide_true, Bool.not_true, Bool.or_false]

theorem step_tryAssign {σ : Accesses n T} {t : Fin T} (next : Fin n)
    (hidle : (σ.thread t).pc.idle = true) :
    step σ (.tryAssign t next) =
      some (σ.move t σ.ta { σ.thread t with pc := .load next }) :=
  if_pos hidle

theorem step_load {σ : Accesses n T} {t : Fin T} {next : Fin n}
    (hpc : (σ.thread t).pc = .load next) (hroom : σ.ta.HasRoom next) :
    step σ (.access t) = some (σ.move t σ.ta { σ.thread t with
      pc := .exchange next (σ.ta.threadsPerStage next), wasFull := false }) := by
  have hlt : σ.ta.threadsPerStage next < σ.ta.maximumConcurrency next := hroom
  simp only [step, access, hpc, hlt, if_true, Option.map_some]

theorem step_exchange {σ : Accesses n T} {t : Fin T} {next : Fin n}
    (hpc : (σ.thread t).pc = .exchange next (σ.ta.threadsPerStage next)) :
    step σ (.access t) = some (σ.move t { σ.ta with
        threadsPerStage := Function.update σ.ta.threadsPerStage next
          (σ.ta.threadsPerStage next + 1) }
      { σ.thread t with pc := .record next, hadRoom := decide (σ.ta.HasRoom next) }) := by
  simp only [step, access, hpc, compareExchange, if_true, Option.map_some]

/-- Thread `t₁` enters the stage between load and exchange of thread `t₀`. -/
def overtaking (t₀ t₁ : Fin T) (next : Fin n) : List (Action n T) :=
  [.tryAssign t₀ next, .access t₀, .tryAssign t₁ next, .access t₁, .access t₁]

theorem run_overtaking {concurrency : Fin n → SizeT} {next : Fin n} (hnext : 1 < concurrency next)
    {t₀ t₁ : Fin T} (ht : t₀ ≠ t₁) :
    ∃ σ, (system T concurrency).run (fresh concurrency) (overtaking t₀ t₁ next) = some σ ∧
      σ.ta.threadsPerStage next = 1 ∧ Undecided next 0 (σ.thread t₀) := by
  have hroom : (ThreadAssignments.init concurrency : ThreadAssignments n T).HasRoom next := by
    show (0 : SizeT) < concurrency next
    bv_omega
  let σ := fresh (T := T) concurrency
  -- `t₀` loads the counter
  let σ₁ := σ.move t₀ σ.ta { σ.thread t₀ with pc := .load next }
  have h₁ : step σ (.tryAssign t₀ next) = some σ₁ := step_tryAssign next rfl
  let σ₂ := σ₁.move t₀ σ₁.ta { σ₁.thread t₀ with pc := .exchange next 0, wasFull := false }
  have h₂ : step σ₁ (.access t₀) = some σ₂ := by
    apply step_load _ hroom
    rw [move_self, Thread.observe_pc]
  have hundecided₂ : Undecided next 0 (σ₂.thread t₀) := by
    rw [move_self]
    exact Undecided.observe ⟨rfl, rfl⟩ hroom
  -- `t₁` loads the counter and exchanges it
  let σ₃ := σ₂.move t₁ σ₂.ta { σ₂.thread t₁ with pc := .load next }
  have h₃ : step σ₂ (.tryAssign t₁ next) = some σ₃ := by
    apply step_tryAssign
    rw [move_of_ne _ ht.symm, Thread.observe_pc, move_of_ne _ ht.symm, Thread.observe_pc]
    rfl
  let σ₄ := σ₃.move t₁ σ₃.ta { σ₃.thread t₁ with pc := .exchange next 0, wasFull := false }
  have h₄ : step σ₃ (.access t₁) = some σ₄ := by
    apply step_load _ hroom
    rw [move_self, Thread.observe_pc]
  let entered : ThreadAssignments n T := { σ₄.ta with
    threadsPerStage := Function.update σ₄.ta.threadsPerStage next (0 + 1) }
  let σ₅ := σ₄.move t₁ entered
    { σ₄.thread t₁ with pc := .record next, hadRoom := decide (σ₄.ta.HasRoom next) }
  have h₅ : step σ₄ (.access t₁) = some σ₅ := by
    apply step_exchange
    rw [move_self, Thread.observe_pc]
    rfl
  refine ⟨σ₅, ?_, Function.update_self _ _ _, ?_⟩
  · exact (Lts.run_cons h₁ _).trans <| (Lts.run_cons h₂ _).trans <| (Lts.run_cons h₃ _).trans <|
      (Lts.run_cons h₄ _).trans (Lts.run_cons h₅ _)
  -- the stage has room for `t₀` all along
  · have hstill : entered.HasRoom next := by
      show Function.update σ₄.ta.threadsPerStage next (0 + 1) next < concurrency next
      rw [Function.update_self]
      exact hnext
    rw [move_of_ne _ ht, move_of_ne _ ht, move_of_ne _ ht]
    exact ((hundecided₂.observe hroom).observe hroom).observe hstill

theorem not_steps_notOvertaken {concurrency : Fin n → SizeT} {next : Fin n}
    (hnext : 1 < concurrency next) {t₀ t₁ : Fin T} (ht : t₀ ≠ t₁) :
    ¬ (system T concurrency).Steps NotOvertaken (fresh concurrency)
      (overtaking t₀ t₁ next ++ [.access t₀]) := by
  intro hsteps
  obtain ⟨σ, hrun, hcounter, hpc, hwas⟩ := run_overtaking hnext ht
  have hstep : ∃ σ', (system T concurrency).step σ (.access t₀) = some σ' := by
    simp only [system, step, access, hpc, compareExchange, hcounter]
    exact ⟨_, rfl⟩
  obtain ⟨σ', hstep⟩ := hstep
  have hnot := Lts.Steps.of_run hsteps hrun hstep t₀ rfl
  simp only [Thread.NotOvertaken, hpc, hcounter, hwas] at hnot
  simp at hnot

/-- The results of `tryAssign` speak of the stage exactly in the runs in which no exchange finds the
    counter changed on a stage that has had room since the load; all runs are such if there is one
    thread only or no stage takes two visitors. -/
theorem refuses_only_full (concurrency : Fin n → SizeT) :
    (∀ as, (system T concurrency).Always (fun σ => ∀ t, (σ.thread t).Linearised)
        (fresh concurrency) as ↔
      (system T concurrency).Steps NotOvertaken (fresh concurrency) as) ∧
    ((∀ as, (system T concurrency).Always (fun σ => ∀ t, (σ.thread t).Linearised)
        (fresh concurrency) as) ↔ T ≤ 1 ∨ ∀ s, concurrency s ≤ 1) := by
  refine ⟨always_linearised_iff concurrency, ?_⟩
  simp only [always_linearised_iff]
  constructor
  · intro hall
    by_contra hmany
    push Not at hmany
    obtain ⟨hT, next, hnext⟩ := hmany
    have ht : (⟨0, by omega⟩ : Fin T) ≠ ⟨1, hT⟩ := by simp
    exact not_steps_notOvertaken (BitVec.not_le.mp hnext) ht (hall _)
  · rintro (hT | hone) as
    · exact notOvertaken_of_thread hT concurrency as
    · exact notOvertaken_of_limit hone as

/-- Two threads enter a stage for two visitors at once, and one of them is refused. -/
theorem refused_with_room :
    ∃ σ, (system 2 fun _ : Fin 1 => 2).Reachable σ ∧ ¬ ∀ t, (σ.thread t).Linearised := by
  have hrun : ((system 2 fun _ : Fin 1 => 2).run (fresh fun _ => 2)
      (overtaking 0 1 0 ++ [.access 0])).any
      (fun σ => decide ((σ.thread 0).pc = .returned 0 false ∧ (σ.thread 0).wasFull = false)) =
        true := by decide
  obtain ⟨σ, hσ, hpc, hwas⟩ := Lts.exists_reachable_of_run _ _ _ _ rfl hrun
  refine ⟨σ, hσ, fun hall => ?_⟩
  have hzero := hall 0
  simp only [Thread.Linearised, hpc, hwas] at hzero
  cases hzero

end Accesses

end Wield.ThreadAssignments
