import Mathlib.Algebra.BigOperators.Fin
import Wield.SchedulerBase.Observes
import Wield.SchedulerBase.StageTree

/-!
# Several schedulers over the same stages

An application may have any number of `SchedulerBase`s, each with a policy, threads and a `stop()`
of its own, while the stages, their queues and the dispatcher are shared.  The masks of the policies
should not overlap.  What the schedulers do together is what one scheduler does whose policy sends
its threads anywhere.  `Color` and `ColorMinus` require a specialized dispatcher; several of them
would need a one-off dispatcher that does the work of each, which the library does not have.
-/

namespace Wield

open Theory Theory.Spawning StageChooser

variable {n K : Nat} {T : Fin K → Nat} {Message : Type}

/-- A policy that says nothing about where a thread goes, or how long it takes to decide. -/
@[reducible] def Anywhere (n T : Nat) : SchedulingPolicy n T where
  State := Unit
  Pc := Unit
  Entropy := Option (Fin n)
  enter := ()
  step _ _ stage _ := ((), stage.elim (.inl ()) .inr)
  batchEnd _ _ := ()
  dispatched _ _ := ()
  init _ := True

namespace MultipleSchedulers

/-- What a `SchedulerBase` has of its own. -/
structure Scheduler {T : Nat} (M : SchedulingPolicy n T) (A : Application n) where
  policy : M.State
  done : Bool
  pc : Fin T → SchedulerBase.Pc M A

structure State (M : ∀ i, SchedulingPolicy n (T i)) (A : Application n) (C : Nat) where
  scheduler : ∀ i, Scheduler (M i) A
  queue : Fin n → List A.Message
  client : Fin C → Option (Fin n)
  arrived : Fin n → List A.Message
  popped : Fin n → List A.Message
  forwarded : Fin n → List A.Message

/-- A step of one of the schedulers; a client's dispatch can be taken for a step of any. -/
abbrev Action (M : ∀ i, SchedulingPolicy n (T i)) (A : Application n) (C : Nat) :=
  Σ i, SchedulerBase.Action (M i) A C

variable {M : ∀ i, SchedulingPolicy n (T i)} {A : Application n} {C : Nat}

/-- The stages as a scheduler sees them. -/
def State.view (σ : State M A C) (i : Fin K) : SchedulerBase.State (M i) A C where
  policy := (σ.scheduler i).policy
  queue := σ.queue
  done := (σ.scheduler i).done
  pc := (σ.scheduler i).pc
  client := σ.client
  arrived := σ.arrived
  popped := σ.popped
  forwarded := σ.forwarded

/-- The stage to which the action completes a dispatch. -/
def booked {T : Nat} {M : SchedulingPolicy n T} (σ : SchedulerBase.State M A C) :
    SchedulerBase.Action M A C → Option (Fin n)
  | .thread t _ _ =>
    match σ.pc t with
    | .pushed _ _ target _ => some target
    | _ => none
  | .dispatched c => σ.client c
  | .throw _ | .push _ _ _ | .stop => none

/-- What the dispatcher does after a push, for the policy of one scheduler.  The plain dispatcher
    does nothing.  For policies that require a specialized one this is the one-off dispatcher that
    does the work of each, which an application would have to write. -/
def Scheduler.book {T : Nat} {M : SchedulingPolicy n T} (scheduler : Scheduler M A)
    (target : Option (Fin n)) : Scheduler M A :=
  { scheduler with policy := target.elim scheduler.policy (M.dispatched scheduler.policy) }

/-- After a step of scheduler `i`. -/
def State.put (σ : State M A C) (i : Fin K) (target : Option (Fin n))
    (σ' : SchedulerBase.State (M i) A C) : State M A C where
  scheduler := Function.update (fun j => (σ.scheduler j).book target) i
    { policy := σ'.policy, done := σ'.done, pc := σ'.pc }
  queue := σ'.queue
  client := σ'.client
  arrived := σ'.arrived
  popped := σ'.popped
  forwarded := σ'.forwarded

def step (σ : State M A C) (a : Action M A C) : Option (State M A C) :=
  (SchedulerBase.step (σ.view a.1) a.2).map (σ.put a.1 (booked (σ.view a.1) a.2))

/-- No scheduler has been started, nothing has been dispatched. -/
structure Initial (σ : State M A C) : Prop where
  policy : ∀ i, (M i).init (σ.scheduler i).policy
  done : ∀ i, (σ.scheduler i).done = false
  pc : ∀ i t, (σ.scheduler i).pc t = .loop
  queue : ∀ s, σ.queue s = []
  client : ∀ c, σ.client c = none
  arrived : ∀ s, σ.arrived s = []
  popped : ∀ s, σ.popped s = []
  forwarded : ∀ s, σ.forwarded s = []

/-- The state before any `start()`, from the data of newly constructed policies. -/
def State.fresh (policy : ∀ i, (M i).State) : State M A C where
  scheduler i := { policy := policy i, done := false, pc := fun _ => .loop }
  queue _ := []
  client _ := none
  arrived _ := []
  popped _ := []
  forwarded _ := []

theorem State.fresh_initial {policy : ∀ i, (M i).State} (h : ∀ i, (M i).init (policy i)) :
    Initial (State.fresh policy : State M A C) :=
  ⟨h, fun _ => rfl, fun _ _ => rfl, fun _ => rfl, fun _ => rfl, fun _ => rfl, fun _ => rfl,
    fun _ => rfl⟩

theorem Initial.view {σ : State M A C} (h : Initial σ) (i : Fin K) :
    SchedulerBase.Initial (σ.view i) :=
  ⟨h.policy i, h.queue, h.done i, h.pc i, h.client, h.arrived, h.popped, h.forwarded⟩

variable (M A C) in
def system : Lts (State M A C) (Action M A C) where
  init := Initial
  step := step

theorem step_inv {σ σ' : State M A C} {i : Fin K} {a : SchedulerBase.Action (M i) A C}
    (h : step σ ⟨i, a⟩ = some σ') :
    ∃ σᵢ, SchedulerBase.Step (σ.view i) a σᵢ ∧ σ' = σ.put i (booked (σ.view i) a) σᵢ := by
  obtain ⟨σᵢ, hs, rfl⟩ := Option.map_eq_some_iff.mp h
  exact ⟨σᵢ, SchedulerBase.step_inv hs, rfl⟩

/-! ## Each scheduler by itself -/

theorem State.put_view_self (σ : State M A C) (i : Fin K) (target : Option (Fin n))
    (σᵢ : SchedulerBase.State (M i) A C) : (σ.put i target σᵢ).view i = σᵢ := by
  simp only [view, put, Function.update_self]

theorem State.put_scheduler_of_ne (σ : State M A C) {i j : Fin K} (h : j ≠ i)
    (target : Option (Fin n)) (σᵢ : SchedulerBase.State (M i) A C) :
    (σ.put i target σᵢ).scheduler j = (σ.scheduler j).book target := by
  simp only [put, Function.update_of_ne h]

theorem State.put_view_pc_of_ne (σ : State M A C) {i j : Fin K} (h : j ≠ i)
    (target : Option (Fin n)) (σᵢ : SchedulerBase.State (M i) A C) :
    ((σ.put i target σᵢ).view j).pc = (σ.view j).pc := by
  simp only [view, σ.put_scheduler_of_ne h, Scheduler.book]

/-- A step of one scheduler, as another one sees it. -/
theorem State.put_observes (σ : State M A C) {i j : Fin K} (h : j ≠ i)
    {a : SchedulerBase.Action (M i) A C} {σᵢ : SchedulerBase.State (M i) A C}
    (hs : SchedulerBase.Step (σ.view i) a σᵢ) (target : Option (Fin n)) :
    SchedulerBase.Observes (σ.view j) ((σ.put i target σᵢ).view j) := by
  refine ⟨σ.put_view_pc_of_ne h target σᵢ, ?_, ?_, hs.queue_ne_nil⟩
  · simp only [view, σ.put_scheduler_of_ne h, Scheduler.book]
  · cases target with
    | none =>
      left
      simp only [view, σ.put_scheduler_of_ne h, Scheduler.book, Option.elim]
    | some target =>
      right
      exact ⟨target, by simp only [view, σ.put_scheduler_of_ne h, Scheduler.book, Option.elim]⟩

/-- What holds of a scheduler by itself and is not disturbed by the others holds of each. -/
theorem views_invariant {I : ∀ i, SchedulerBase.State (M i) A C → Prop}
    (hI : ∀ i, (SchedulerBase.system (M i) A C).Invariant (I i))
    (hobserves : ∀ i σ σ', I i σ → SchedulerBase.Observes σ σ' → I i σ') :
    (system M A C).Invariant fun σ => ∀ i, I i (σ.view i) where
  init σ h i := (hI i).init _ (h.view i)
  step σ a σ' h hs j := by
    obtain ⟨i, a⟩ := a
    obtain ⟨σᵢ, hstep, rfl⟩ := Option.map_eq_some_iff.mp hs
    by_cases hji : j = i
    · subst j
      rw [σ.put_view_self]
      exact (hI i).step _ a _ (h i) hstep
    · exact hobserves j _ _ (h j) (σ.put_observes hji (SchedulerBase.step_inv hstep) _)

/-! ## All schedulers as one -/

/-- The threads of all schedulers, numbered. -/
def threadId (i : Fin K) (t : Fin (T i)) : Fin (∑ i, T i) :=
  finSigmaFinEquiv ⟨i, t⟩

theorem exists_threadId (u : Fin (∑ i, T i)) : ∃ i t, threadId i t = u := by
  obtain ⟨⟨i, t⟩, h⟩ := finSigmaFinEquiv.surjective u
  exact ⟨i, t, h⟩

theorem threadId_ne_of_scheduler {i j : Fin K} (h : j ≠ i) (t : Fin (T i)) (u : Fin (T j)) :
    threadId j u ≠ threadId i t :=
  fun heq => h (congrArg Sigma.fst (finSigmaFinEquiv.injective heq))

theorem threadId_injective (i : Fin K) : Function.Injective (threadId (T := T) i) :=
  finSigmaFinEquiv.injective.comp sigma_mk_injective

/-- The place of a thread, without what its policy does there. -/
def erase {T U : Nat} {M : SchedulingPolicy n T} :
    SchedulerBase.Pc M A → SchedulerBase.Pc (Anywhere n U) A
  | .loop => .loop
  | .nextStage _ => .nextStage ()
  | .poll s => .poll s
  | .running s m todo => .running s m todo
  | .pushed s m target todo => .pushed s m target todo
  | .batchEnd s info => .batchEnd s info
  | .exited => .exited

def State.place (σ : State M A C) (U : Nat) (p : Σ i, Fin (T i)) :
    SchedulerBase.Pc (Anywhere n U) A :=
  erase ((σ.view p.1).pc p.2)

/-- One scheduler in place of all, with one flag in place of theirs. -/
def State.together (σ : State M A C) (done : Bool) :
    SchedulerBase.State (Anywhere n (∑ i, T i)) A C where
  policy := ()
  queue := σ.queue
  done := done
  pc t := σ.place _ (finSigmaFinEquiv.symm t)
  client := σ.client
  arrived := σ.arrived
  popped := σ.popped
  forwarded := σ.forwarded

/-- The same step, of the one scheduler; `stage` is where it sends the thread. -/
def together (i : Fin K) (stage : Option (Fin n)) :
    SchedulerBase.Action (M i) A C → SchedulerBase.Action (Anywhere n (∑ i, T i)) A C
  | .thread t _ env => .thread (threadId i t) stage env
  | .throw t => .throw (threadId i t)
  | .push c target m => .push c target m
  | .dispatched c => .dispatched c
  | .stop => .stop

theorem State.together_pc (σ : State M A C) (done : Bool) (i : Fin K) (t : Fin (T i)) :
    (σ.together done).pc (threadId i t) = erase ((σ.view i).pc t) := by
  show σ.place _ (finSigmaFinEquiv.symm (finSigmaFinEquiv ⟨i, t⟩)) = _
  rw [Equiv.symm_apply_apply]
  rfl

theorem State.put_together_pc {σ : State M A C} {i : Fin K} {t : Fin (T i)}
    {σᵢ : SchedulerBase.State (M i) A C} {pc : SchedulerBase.Pc (M i) A}
    (hpc : σᵢ.pc = Function.update (σ.view i).pc t pc) (target : Option (Fin n)) (done : Bool) :
    ((σ.put i target σᵢ).together done).pc =
      Function.update (σ.together done).pc (threadId i t) (erase pc) := by
  funext u
  obtain ⟨j, v, rfl⟩ := exists_threadId u
  rw [together_pc]
  by_cases hji : j = i
  · subst j
    rw [put_view_self, hpc]
    by_cases hvt : v = t
    · subst v
      rw [Function.update_self, Function.update_self]
    · rw [Function.update_of_ne hvt, Function.update_of_ne ((threadId_injective i).ne hvt),
        together_pc]
  · rw [σ.put_view_pc_of_ne hji target σᵢ,
      Function.update_of_ne (threadId_ne_of_scheduler hji t v), together_pc]

theorem State.put_together_pc_of_eq {σ : State M A C} {i : Fin K}
    {σᵢ : SchedulerBase.State (M i) A C} (hpc : σᵢ.pc = (σ.view i).pc) (target : Option (Fin n))
    (done : Bool) : ((σ.put i target σᵢ).together done).pc = (σ.together done).pc := by
  funext u
  obtain ⟨j, v, rfl⟩ := exists_threadId u
  rw [together_pc, together_pc]
  by_cases hji : j = i
  · subst j
    rw [put_view_self, hpc]
  · rw [σ.put_view_pc_of_ne hji target σᵢ]

/-- The one scheduler in the state in which a step has left the stages, with its threads at `pc`. -/
def oneScheduler (done : Bool) {i : Fin K} (σᵢ : SchedulerBase.State (M i) A C)
    (pc : Fin (∑ i, T i) → SchedulerBase.Pc (Anywhere n (∑ i, T i)) A) :
    SchedulerBase.State (Anywhere n (∑ i, T i)) A C where
  policy := ()
  queue := σᵢ.queue
  done := done
  pc := pc
  client := σᵢ.client
  arrived := σᵢ.arrived
  popped := σᵢ.popped
  forwarded := σᵢ.forwarded

theorem State.put_together {σ : State M A C} {i : Fin K} {target : Option (Fin n)}
    {σᵢ : SchedulerBase.State (M i) A C} {done : Bool}
    {pc : Fin (∑ i, T i) → SchedulerBase.Pc (Anywhere n (∑ i, T i)) A}
    (hpc : ((σ.put i target σᵢ).together done).pc = pc) :
    (σ.put i target σᵢ).together done = oneScheduler done σᵢ pc := by
  subst hpc
  rfl

/-- A step of any scheduler is a step of the one. -/
theorem step_together {σ σ' : State M A C} {i : Fin K} {a : SchedulerBase.Action (M i) A C}
    (h : step σ ⟨i, a⟩ = some σ') :
    ∃ done done' stage, SchedulerBase.Step (σ.together done) (together i stage a)
      (σ'.together done') := by
  obtain ⟨σᵢ, hs, rfl⟩ := step_inv h
  generalize booked (σ.view i) a = target
  have place : ∀ {t pc} (done : Bool), (σ.view i).pc t = pc →
      (σ.together done).pc (threadId i t) = erase pc := by
    intro t pc done hpc
    rw [σ.together_pc, hpc]
  have moved : ∀ {t pc} (done : Bool) (stage : Option (Fin n)),
      σᵢ.pc = Function.update (σ.view i).pc t pc →
      SchedulerBase.Step (σ.together done) (together i stage a) (oneScheduler done σᵢ
        (Function.update (σ.together done).pc (threadId i t) (erase pc))) →
      ∃ done done' stage, SchedulerBase.Step (σ.together done) (together i stage a)
        ((σ.put i target σᵢ).together done') := by
    intro t pc done stage hpc hstep
    refine ⟨done, done, stage, ?_⟩
    rw [State.put_together (State.put_together_pc hpc target done)]
    exact hstep
  have stays : ∀ (done done' : Bool), σᵢ.pc = (σ.view i).pc →
      SchedulerBase.Step (σ.together done) (together i none a)
        (oneScheduler done' σᵢ (σ.together done').pc) →
      ∃ done done' stage, SchedulerBase.Step (σ.together done) (together i stage a)
        ((σ.put i target σᵢ).together done') := by
    intro done done' hpc hstep
    refine ⟨done, done', none, ?_⟩
    rw [State.put_together (State.put_together_pc_of_eq hpc target done')]
    exact hstep
  cases hs with
  | leave t e v hpc hd =>
    exact moved true none rfl
      (.leave (M := Anywhere n _) (threadId i t) none v (place true hpc) rfl)
  | enter t e v hpc hd =>
    exact moved false none rfl
      (.enter (M := Anywhere n _) (threadId i t) none v (place false hpc) rfl)
  | call t e v p policy p' hpc hr =>
    have hstep : SchedulerBase.Step (σ.together false) (.thread (threadId i t) none v)
        (((σ.together false).setPolicy ()).setPc (threadId i t) (.nextStage ())) :=
      .call (M := Anywhere n _) (threadId i t) none v () () () (place false hpc) rfl
    exact moved false none rfl hstep
  | visit t e v p policy s hpc hr =>
    have hstep : SchedulerBase.Step (σ.together false) (.thread (threadId i t) (some s) v)
        (((σ.together false).setPolicy ()).setPc (threadId i t) (.poll s)) :=
      .visit (M := Anywhere n _) (threadId i t) (some s) v () () s (place false hpc) rfl
    exact moved false (some s) rfl hstep
  | pop t e v s m rest hpc hq =>
    exact moved false none rfl
      (.pop (M := Anywhere n _) (threadId i t) none v s m rest (place false hpc) hq)
  | empty t e v s hpc hq =>
    exact moved false none rfl
      (.empty (M := Anywhere n _) (threadId i t) none v s (place false hpc) hq)
  | push t e v s m stage m' todo hpc =>
    exact moved false none rfl
      (.push (M := Anywhere n _) (threadId i t) none v s m stage m' todo (place false hpc))
  | account t e v s m stage todo hpc =>
    exact moved false none rfl
      (.account (M := Anywhere n _) (threadId i t) none v s m stage todo (place false hpc))
  | returns t e v s m hpc =>
    exact moved false none rfl
      (.returns (M := Anywhere n _) (threadId i t) none v s m (place false hpc))
  | batchEnd t e v s info hpc =>
    exact moved false none rfl
      (.batchEnd (M := Anywhere n _) (threadId i t) none v s info (place false hpc))
  | throw t s m todo hA hpc =>
    exact moved false none rfl (.throw (threadId i t) s m todo hA (place false hpc))
  | clientPush c stage m hc he => exact stays false false rfl (.clientPush c stage m hc he)
  | clientDone c stage hc => exact stays false false rfl (.clientDone c stage hc)
  | stop => exact stays false true rfl .stop

theorem Initial.together {σ : State M A C} (h : Initial σ) :
    SchedulerBase.Initial (σ.together false) where
  policy := trivial
  queue := h.queue
  done := rfl
  pc u := by
    obtain ⟨i, t, rfl⟩ := exists_threadId u
    rw [State.together_pc, (h.view i).pc]
    rfl
  client := h.client
  arrived := h.arrived
  popped := h.popped
  forwarded := h.forwarded

@[simp] theorem erase_todo {T U : Nat} {M : SchedulingPolicy n T} (pc : SchedulerBase.Pc M A) :
    (erase pc : SchedulerBase.Pc (Anywhere n U) A).todo = pc.todo := by
  cases pc <;> rfl

@[simp] theorem erase_visits {T U : Nat} {M : SchedulingPolicy n T} (pc : SchedulerBase.Pc M A)
    (s : Fin n) : (erase pc : SchedulerBase.Pc (Anywhere n U) A).Visits s ↔ pc.Visits s := by
  cases pc <;> exact Iff.rfl

/-- No message waits, and no functor of any scheduler has a dispatch to make. -/
def Idle (σ : State M A C) : Prop :=
  (∀ s, σ.queue s = []) ∧ ∀ i t, ((σ.view i).pc t).todo = []

theorem Idle.together {σ : State M A C} (h : Idle σ) (done : Bool) :
    SchedulerBase.Idle (σ.together done) := by
  refine ⟨h.1, fun u => ?_⟩
  obtain ⟨i, t, rfl⟩ := exists_threadId u
  rw [State.together_pc, erase_todo]
  exact h.2 i t

/-- All dispatches of the clients, in order. -/
def clientDispatches (as : List (Action M A C)) : List (Fin n × A.Message) :=
  as.filterMap fun a => a.2.clientPush

/-- The dispatches that a functor which throws does not make. -/
def dropped (σ : State M A C) (a : Action M A C) : List (Fin n × A.Message) :=
  SchedulerBase.dropped (σ.view a.1) a.2

theorem together_clientPush (i : Fin K) (stage : Option (Fin n))
    (a : SchedulerBase.Action (M i) A C) : (together i stage a).clientPush = a.clientPush := by
  cases a <;> rfl

theorem together_dropped (σ : State M A C) (done : Bool) (i : Fin K) (stage : Option (Fin n))
    (a : SchedulerBase.Action (M i) A C) :
    SchedulerBase.dropped (σ.together done) (together i stage a) = dropped σ ⟨i, a⟩ := by
  cases a with
  | throw t =>
    show ((σ.together done).pc (threadId i t)).todo = ((σ.view i).pc t).todo
    rw [State.together_pc, erase_todo]
  | thread t e v | push c target m | dispatched c | stop => rfl

section

variable {G : StageGraph n Message} {mayThrow : Bool} {entry : Fin n → Bool}
  {σ σ' : State M (G.application mayThrow entry) C}

/-- What has been popped, and what waits or is still to be dispatched. -/
def State.pool (σ : State M (G.application mayThrow entry) C) : Pool (Fin n × Message) :=
  (σ.together false).pool

/-- What the thrown exceptions of a run have cut off. -/
noncomputable def lost (σ : State M (G.application mayThrow entry) C)
    (as : List (Action M (G.application mayThrow entry) C)) : Multiset (Fin n × Message) :=
  (system M (G.application mayThrow entry) C).sum (fun σ a => G.deliveries (dropped σ a)) σ as

theorem step_all {a : Action M (G.application mayThrow entry) C} (h : step σ a = some σ') :
    σ'.pool.all G.spawning + G.deliveries (dropped σ a) =
      σ.pool.all G.spawning + G.deliveries a.2.clientPush.toList := by
  obtain ⟨done, done', stage, hs⟩ := step_together h
  have hall := SchedulerBase.step_all hs
  rwa [together_dropped, together_clientPush] at hall

theorem all_add_lost {σ₀ : State M (G.application mayThrow entry) C} (hσ₀ : Initial σ₀)
    {as : List (Action M (G.application mayThrow entry) C)}
    (hrun : (system M (G.application mayThrow entry) C).run σ₀ as = some σ) :
    σ.pool.all G.spawning + lost σ₀ as = G.deliveries (clientDispatches as) := by
  have hstart : σ₀.pool.all G.spawning = 0 := by
    rw [State.pool, hσ₀.together.pool, Pool.all_of_finished _ rfl]
  have hbalance := Lts.run_sum_eq (fun σ => σ.pool.all G.spawning)
    (fun _ _ _ hs => step_all hs) hrun
  rwa [hstart, zero_add, Lts.sum_of_run (fun a => G.deliveries a.2.clientPush.toList) hrun,
    G.sum_deliveries] at hbalance

theorem dropped_of_not_mayThrow {σ σ' : State M (G.application false entry) C}
    {a : Action M (G.application false entry) C} (h : step σ a = some σ') : dropped σ a = [] := by
  obtain ⟨i, a⟩ := a
  obtain ⟨σᵢ, hs, _⟩ := step_inv h
  cases hs with
  | throw t s m todo hA hpc => cases hA
  | _ => rfl

theorem lost_of_not_mayThrow (hthrow : mayThrow = false)
    (σ₀ : State M (G.application mayThrow entry) C)
    (as : List (Action M (G.application mayThrow entry) C)) : lost σ₀ as = 0 := by
  subst hthrow
  refine Lts.sum_eq_zero (fun σ a σ' hs => ?_) σ₀ as
  rw [dropped_of_not_mayThrow hs]
  rfl

/-- However many schedulers share the stages, with whatever policies: what has been popped, what
    follows from the dispatches that are outstanding and what exceptions have cut off are together
    the deliveries that follow from the clients' dispatches. -/
theorem processed_independent_of_schedulers (G : StageGraph n Message) (mayThrow : Bool)
    (entry : Fin n → Bool) (M : ∀ i, SchedulingPolicy n (T i))
    {σ₀ σ : State M (G.application mayThrow entry) C} (hσ₀ : Initial σ₀)
    {as : List (Action M (G.application mayThrow entry) C)}
    (hrun : (system M (G.application mayThrow entry) C).run σ₀ as = some σ) :
    σ.pool.all G.spawning + lost σ₀ as = G.deliveries (clientDispatches as) ∧
      (mayThrow = false → Idle σ → queued σ.popped = G.deliveries (clientDispatches as)) := by
  have hbalance := all_add_lost hσ₀ hrun
  refine ⟨hbalance, fun hthrow hidle => ?_⟩
  have hpool : σ.pool.all G.spawning = σ.pool.done :=
    Pool.all_of_finished _ (hidle.together false).pending
  calc queued σ.popped = σ.pool.all G.spawning + lost σ₀ as := by
        rw [lost_of_not_mayThrow hthrow, add_zero, hpool]
        rfl
    _ = G.deliveries (clientDispatches as) := hbalance

/-- One of two schedulers takes a message to the second stage, the other one takes it on. -/
theorem processed_independent_of_schedulers_two :
    ∃ σ : State (fun _ : Fin 2 => ThreadPerStage 2)
        (forwarding.application false fun _ => true) 1,
      Idle σ ∧ queued σ.popped = forwarding.deliveries [(0, 7)] := by
  let as : List (Action (fun _ : Fin 2 => ThreadPerStage 2)
      (forwarding.application false fun _ => true) 1) :=
    ⟨0, .push 0 0 (7 : Nat)⟩ :: List.replicate 5 ⟨0, .thread 0 () ()⟩ ++
      List.replicate 3 ⟨1, .thread 1 () ()⟩
  obtain ⟨σ, hrun, hidle⟩ : ∃ σ, (system (fun _ : Fin 2 => ThreadPerStage 2)
      (forwarding.application false fun _ => true) 1).run (State.fresh fun _ => ()) as = some σ ∧
        Idle σ :=
    ⟨_, rfl, Fin.forall_fin_two.mpr ⟨rfl, rfl⟩, Fin.forall_fin_two.mpr
      ⟨Fin.forall_fin_two.mpr ⟨rfl, rfl⟩, Fin.forall_fin_two.mpr ⟨rfl, rfl⟩⟩⟩
  exact ⟨σ, hidle, (processed_independent_of_schedulers forwarding false (fun _ => true)
    (fun _ : Fin 2 => ThreadPerStage 2) (State.fresh_initial fun _ => trivial) hrun).2 rfl hidle⟩

end

/-! ## Masks that do not overlap -/

section

variable {tree : StageTree n Message} {p : Fin K → AssignmentPolicy}
  {concurrency : Fin K → Fin n → SizeT}

theorem slotInv_invariant (A : Application n) (P : ∀ i, StageChooser n (T i)) :
    (system (fun i => (P i).policy (concurrency i)) A C).Invariant fun σ =>
      ∀ i, SchedulerBase.SlotInv (σ.view i) :=
  views_invariant (fun _ => SchedulerBase.slotInv_invariant) fun _ _ _ h hobserves =>
    h.observes hobserves

/-- If no two masks have a stage in common and no limit is above 1, the schedulers together leave a
    stage to one visitor at a time. -/
theorem exclusive_of_masks {A : Application n} {P : ∀ i, StageChooser n (T i)}
    (hlimit : ∀ i s, concurrency i s = 0 ∨ concurrency i s = 1)
    (hmasks : ∀ s i j, concurrency i s ≠ 0 → concurrency j s ≠ 0 → i = j)
    {σ : State (fun i => (P i).policy (concurrency i)) A C}
    (h : ∀ i, SchedulerBase.SlotInv (σ.view i)) (done : Bool) :
    SchedulerBase.Exclusive (σ.together done) := by
  intro s u v hu hv
  obtain ⟨i, t, rfl⟩ := exists_threadId u
  obtain ⟨j, t', rfl⟩ := exists_threadId v
  rw [State.together_pc, erase_visits] at hu hv
  obtain rfl : i = j := by
    refine hmasks s i j (fun hzero => ?_) fun hzero => ?_
    · exact (h i).not_visits hzero t hu
    · exact (h j).not_visits hzero t' hv
  rw [(h i).exclusive (hlimit i) s t t' hu hv]

theorem treeInv_invariant (P : ∀ i, StageChooser n (T i))
    (hlimit : ∀ i s, concurrency i s = 0 ∨ concurrency i s = 1)
    (hmasks : ∀ s i j, concurrency i s ≠ 0 → concurrency j s ≠ 0 → i = j) :
    (system (fun i => (P i).policy (concurrency i)) tree.application C).Invariant fun σ =>
      (∀ i, SchedulerBase.SlotInv (σ.view i)) ∧ SchedulerBase.TreeInv (σ.together false) where
  init σ h := ⟨(slotInv_invariant _ P).init σ h, .initial h.together⟩
  step σ a σ' h hs := by
    have hslots := (slotInv_invariant _ P).step σ a σ' h.1 hs
    obtain ⟨i, a⟩ := a
    obtain ⟨done, done', stage, hs⟩ := step_together (M := fun i => (P i).policy (concurrency i)) hs
    have htree : SchedulerBase.TreeInv (σ.together done) := h.2.of_eq rfl rfl rfl rfl
    have htree' := htree.step (exclusive_of_masks hlimit hmasks h.1 done)
      (exclusive_of_masks hlimit hmasks hslots done') hs
    exact ⟨hslots, htree'.of_eq rfl rfl rfl rfl⟩

/-- What each stage has processed is a beginning of its history, and all of it when nothing is left
    to do. -/
structure FollowsHistory (σ : State M tree.application C) : Prop where
  popped : ∀ s, σ.popped s <+: tree.history σ.arrived s
  idle : Idle σ → ∀ s, σ.popped s = tree.history σ.arrived s

/-- The policies whose dispatcher only pushes, so that any number of schedulers can share it. -/
def HasPlainDispatcher : AssignmentPolicy → Prop
  | .roundRobin | .srpt | .randomVisit _ => True
  | .color | .colorMinus => False

/-- In a tree of stages that schedulers with separate masks share, whatever is processed at a stage,
    and in what order, is determined by what the clients have dispatched in what order; and no
    thread comes to a stage outside the mask of its scheduler. -/
theorem schedulers_followHistory (tree : StageTree n Message) (concurrency : Fin K → Fin n → SizeT)
    (hlimit : ∀ i s, concurrency i s = 0 ∨ concurrency i s = 1)
    (hmasks : ∀ s i j, concurrency i s ≠ 0 → concurrency j s ≠ 0 → i = j) :
    ∀ p : Fin K → AssignmentPolicy, (∀ i, HasPlainDispatcher (p i)) →
      ∀ σ : State (fun i => ((p i).chooser n (T i)).policy (concurrency i)) tree.application C,
        (system _ _ C).Reachable σ →
        FollowsHistory σ ∧ ∀ i t s, ((σ.view i).pc t).Visits s → concurrency i s = 1 := by
  intro p _ σ hσ
  obtain ⟨hslots, htree⟩ :=
    (treeInv_invariant (fun i => (p i).chooser n (T i)) hlimit hmasks).holds hσ
  refine ⟨⟨htree.popped_prefix, fun hidle => htree.popped_eq (hidle.together false)⟩, ?_⟩
  intro i t s hvisits
  exact (hlimit i s).resolve_left fun hzero => (hslots i).not_visits hzero t hvisits

/-- The first scheduler only has the third of three stages, the second one has the others. -/
def masks (i : Fin 2) (s : Fin 3) : SizeT :=
  if i.val = 0 ↔ s.val = 2 then 1 else 0

theorem schedulers_followHistory_two :
    ∃ σ : State (T := fun _ => 1)
        (fun i : Fin 2 => (AssignmentPolicy.roundRobin.chooser 3 1).policy (masks i))
        SchedulerBase.fork.application 1, σ.popped 2 = [7] ∧ FollowsHistory σ := by
  let as : List (Action (T := fun _ => 1)
      (fun i : Fin 2 => (AssignmentPolicy.roundRobin.chooser 3 1).policy (masks i))
      SchedulerBase.fork.application 1) :=
    ⟨0, .push 0 0 (7 : Nat)⟩ :: ⟨0, .dispatched 0⟩ :: List.replicate 13 ⟨1, .thread 0 () ()⟩ ++
      List.replicate 15 ⟨0, .thread 0 () ()⟩
  obtain ⟨σ, hσ, hpopped⟩ := Lts.exists_reachable_of_run (system (T := fun _ => 1)
      (fun i : Fin 2 => (AssignmentPolicy.roundRobin.chooser 3 1).policy (masks i))
      SchedulerBase.fork.application 1)
    (State.fresh fun i => .fresh (masks i) ()) as (fun σ => σ.popped 2 = [7])
    (State.fresh_initial fun i => ⟨rfl, fun _ => rfl, trivial⟩) (by decide)
  exact ⟨σ, hpopped, (schedulers_followHistory SchedulerBase.fork masks (by decide) (by decide)
    (fun _ => .roundRobin) (fun _ => trivial) σ hσ).1⟩

end

end MultipleSchedulers

end Wield
