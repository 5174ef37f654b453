import Mathlib.Order.Filter.Finite
import Wield.SchedulerBase.Observes
import Wield.SchedulerBase.Pipeline
import Wield.SchedulerBase.StopAll
import Wield.Schedulers.Approach
import Wield.Theory.Execution

/-!
# Everything that is dispatched gets processed

The scheduler runs on for ever after the last dispatch from outside, and every processing thread is
scheduled again and again.  Only finitely many messages are popped, so at some moment the last one
is.  If a message waited then, the threads at its stage would leave it, and the next thread to come
by would find the stage empty of visitors and enter it.
-/

namespace Wield

open Theory Theory.Spawning StageChooser

variable {n T C : Nat} {Message : Type}

namespace SchedulerBase

section

variable {M : SchedulingPolicy n T} {A : Application n} {σ σ' : State M A C} {a : Action M A C}
  {t : Fin T}

/-- The processing thread that takes the step. -/
def Action.actor : Action M A C → Option (Fin T)
  | .thread t _ _ | .throw t => some t
  | .push _ _ _ | .dispatched _ | .stop => none

/-- A thread is moved by its own steps only. -/
theorem Step.pc_of_ne (hs : Step σ a σ') (ha : a.actor ≠ some t) : σ'.pc t = σ.pc t := by
  cases hs with
  | clientPush c target m hc he | clientDone c target hc | stop => rfl
  | _ => exact Function.update_of_ne (fun heq => ha (congrArg some heq.symm)) _ _

/-- What holds of the place of every thread, when one thread moves to such a place. -/
theorem forall_pc_of_update {Q : Pc M A → Prop} {pc : Pc M A}
    (hpc' : σ'.pc = Function.update σ.pc t pc) (h : ∀ u, Q (σ.pc u)) (hpc : Q pc) (u : Fin T) :
    Q (σ'.pc u) := by
  rw [hpc']
  exact (Function.forall_update_iff σ.pc fun _ => Q).mpr ⟨hpc, fun u _ => h u⟩ u

/-- A step pops nothing or one message. -/
theorem Step.popped (hs : Step σ a σ') :
    σ'.popped = σ.popped ∨ σ'.processed.card = σ.processed.card + 1 := by
  cases hs with
  | pop t e v s m rest hpc hq =>
    right
    rw [State.processed, State.setPc_popped, State.pop_popped, queued_push, Multiset.card_cons]
    rfl
  | _ => exact .inl rfl

/-- How many steps a thread takes that pops nothing, where `inside` says it of a thread inside
    `nextStage`. -/
def Pc.ahead (inside : M.Pc → Nat) : Pc M A → Nat
  | .exited => 0
  | .nextStage p => inside p
  | .loop => 5
  | .batchEnd _ _ => 6
  | .poll _ => 7
  | .running _ _ todo => 2 * todo.length + 8
  | .pushed _ _ _ todo => 2 * todo.length + 9

/-- A step outside of `nextStage`. -/
theorem Step.ahead_lt {inside : M.Pc → Nat} (henter : inside M.enter < 5) {e : M.Entropy}
    {v : A.Env} (hs : Step σ (.thread t e v) σ') (hdone : σ.done = false)
    (hpopped : σ'.popped = σ.popped) (hout : (σ.pc t).call = none) :
    (σ'.pc t).ahead inside < (σ.pc t).ahead inside := by
  have ahead : ∀ {pc pc'}, σ.pc t = pc → σ'.pc = Function.update σ.pc t pc' →
      pc'.ahead inside < pc.ahead inside →
      (σ'.pc t).ahead inside < (σ.pc t).ahead inside := by
    intro pc pc' hpc hpc' hlt
    rw [hpc', Function.update_self, hpc]
    exact hlt
  cases hs with
  | leave _ _ _ hpc hd =>
    rw [hdone] at hd
    cases hd
  | enter _ _ _ hpc hd => exact ahead hpc rfl henter
  | call _ _ _ p policy p' hpc hp | visit _ _ _ p policy s hpc hp =>
    rw [hpc] at hout
    cases hout
  | pop _ _ _ s m rest hpc hq => exact absurd hpopped (popped_ne s m rest)
  | empty _ _ _ s hpc hq => exact ahead hpc rfl (Nat.lt_succ_self 6)
  | push _ _ _ s m target m' todo hpc =>
    refine ahead hpc rfl ?_
    show 2 * todo.length + 9 < 2 * (todo.length + 1) + 8
    omega
  | account _ _ _ s m target todo hpc => exact ahead hpc rfl (Nat.lt_succ_self _)
  | returns _ _ _ s m hpc => exact ahead hpc rfl (Nat.lt_succ_self 7)
  | batchEnd _ _ _ s info hpc => exact ahead hpc rfl (Nat.lt_succ_self 5)

/-- A functor with dispatches to make pushes the next one, or is between two of them. -/
theorem Step.todo {e : M.Entropy} {v : A.Env} (hs : Step σ (.thread t e v) σ')
    (htodo : (σ.pc t).todo ≠ []) :
    (∃ s, σ'.queue s ≠ []) ∨ (σ'.pc t).todo = (σ.pc t).todo := by
  cases hs with
  | push _ _ _ s m target m' todo hpc =>
    refine .inl ⟨target, ?_⟩
    rw [State.setPc_queue, State.forward_queue, State.push_queue, Function.update_self]
    exact List.append_ne_nil_of_right_ne_nil _ (List.cons_ne_nil m' [])
  | account _ _ _ s m target todo hpc =>
    right
    rw [State.setPc_pc, Function.update_self, hpc]
    rfl
  | leave _ _ _ hpc hd | enter _ _ _ hpc hd | call _ _ _ p policy p' hpc hp
  | visit _ _ _ p policy s hpc hp | pop _ _ _ s m rest hpc hq | empty _ _ _ s hpc hq
  | returns _ _ _ s m hpc | batchEnd _ _ _ s info hpc =>
    rw [hpc] at htodo
    exact absurd rfl htodo

end

/-! ## The executions after the last dispatch from outside -/

section

variable {G : StageGraph n Message} {entry : Fin n → Bool} {M : SchedulingPolicy n T}

/-- The scheduler once nothing is dispatched from outside any more, among others that may work at
    the same stages. -/
noncomputable abbrev shared (M : SchedulingPolicy n T) (G : StageGraph n Message)
    (entry : Fin n → Bool) (C : Nat) :
    Lts (State M (G.application false entry) C)
      (Action M (G.application false entry) C ⊕ State M (G.application false entry) C) :=
  ((system M (G.application false entry) C).among Observes).restrict
    (Sum.elim NotDispatching fun _ => true)

/-- The thread of this scheduler that takes the step. -/
abbrev actor {A : Application n} : Action M A C ⊕ State M A C → Option (Fin T) :=
  Sum.elim Action.actor fun _ => none

/-- The execution starts in a reachable state before `stop()`, and every thread is scheduled again
    and again. -/
structure Scheduled (ρ : (shared M G entry C).Execution) : Prop where
  reachable : ((system M (G.application false entry) C).among Observes).Reachable (ρ.state 0)
  running : (ρ.state 0).done = false
  fair : ρ.Fair actor

/-- From moment `N` on nothing is popped. -/
def Settled (ρ : (shared M G entry C).Execution) (N : Nat) : Prop :=
  ∀ i, N ≤ i → (ρ.state (i + 1)).popped = (ρ.state i).popped

/-- When nothing is popped any more, nothing waits at the stage. -/
def LeavesNothing (ρ : (shared M G entry C).Execution) (s : Fin n) : Prop :=
  ∀ N, Settled ρ N → (ρ.state N).queue s = []

variable {ρ : (shared M G entry C).Execution} {i : Nat} {t : Fin T}

theorem shared_own {a : Action M (G.application false entry) C} (hact : ρ.action i = .inl a) :
    NotDispatching a = true ∧ Step (ρ.state i) a (ρ.state (i + 1)) := by
  have hs := ρ.step i
  rw [hact] at hs
  obtain ⟨ha, hs⟩ := Lts.restrict_step_eq_some.mp hs
  exact ⟨ha, step_inv hs⟩

theorem shared_step (ρ : (shared M G entry C).Execution) (i : Nat) :
    (∃ a, ρ.action i = .inl a ∧ NotDispatching a = true ∧
      Step (ρ.state i) a (ρ.state (i + 1))) ∨
    (∃ σ, ρ.action i = .inr σ) ∧ Observes (ρ.state i) (ρ.state (i + 1)) := by
  cases hact : ρ.action i with
  | inl a => exact .inl ⟨a, rfl, shared_own hact⟩
  | inr σ =>
    have hs := ρ.step i
    rw [hact] at hs
    obtain ⟨hobserves, hσ⟩ := Lts.among_step_inr.mp (Lts.restrict_step_eq_some.mp hs).2
    rw [← hσ]
    exact .inr ⟨⟨σ, rfl⟩, hobserves⟩

/-- The functors do not throw. -/
theorem shared_thread (ht : actor (ρ.action i) = some t) :
    ∃ e v, ρ.action i = .inl (.thread t e v) ∧
      Step (ρ.state i) (.thread t e v) (ρ.state (i + 1)) := by
  rcases shared_step ρ i with ⟨a, hact, _, hs⟩ | ⟨⟨σ, hact⟩, _⟩
  · rw [hact] at ht ⊢
    generalize ρ.state (i + 1) = σ' at hs
    cases a with
    | thread u e v =>
      cases ht
      exact ⟨e, v, rfl, hs⟩
    | throw u =>
      cases hs with
      | throw _ s m todo hA hpc => cases hA
    | push c target m | dispatched c | stop => cases ht
  · rw [hact] at ht
    cases ht

theorem shared_pc_of_ne (ht : actor (ρ.action i) ≠ some t) :
    (ρ.state (i + 1)).pc t = (ρ.state i).pc t := by
  rcases shared_step ρ i with ⟨a, hact, _, hs⟩ | ⟨_, hobserves⟩
  · rw [hact] at ht
    exact hs.pc_of_ne ht
  · rw [hobserves.pc]

theorem shared_queue_ne_nil (hpopped : (ρ.state (i + 1)).popped = (ρ.state i).popped) (s : Fin n)
    (hq : (ρ.state i).queue s ≠ []) : (ρ.state (i + 1)).queue s ≠ [] := by
  rcases shared_step ρ i with ⟨a, _, _, hs⟩ | ⟨_, hobserves⟩
  · exact hs.queue_ne_nil hpopped s hq
  · exact hobserves.queue hpopped s hq

/-- An invariant that the others respect. -/
theorem Scheduled.holds {I : State M (G.application false entry) C → Prop} (h : Scheduled ρ)
    (hI : (system M (G.application false entry) C).Invariant I)
    (hobserves : ∀ σ σ', I σ → Observes σ σ' → I σ') (i : Nat) : I (ρ.state i) :=
  ρ.always ((hI.among hobserves).restrict _).step ((hI.among hobserves).holds h.reachable) i

theorem Scheduled.not_done (h : Scheduled ρ) (i : Nat) : (ρ.state i).done = false := by
  induction i with
  | zero => exact h.running
  | succ i ih =>
    rcases shared_step ρ i with ⟨a, _, ha, hs⟩ | ⟨_, hobserves⟩
    · generalize ρ.state (i + 1) = σ' at hs
      cases hs with
      | stop => cases ha
      | _ => exact ih
    · exact hobserves.done.trans ih

theorem Settled.waits {N : Nat} (h : Settled ρ N) {s : Fin n} (hq : (ρ.state N).queue s ≠ [])
    {i : Nat} (hi : N ≤ i) : (ρ.state i).queue s ≠ [] := by
  induction i, hi using Nat.le_induction with
  | base => exact hq
  | succ i hi ih => exact shared_queue_ne_nil (h i hi) s ih

/-- A progress argument about one thread: its own steps spend `f`, and the steps of the others add
    nothing. -/
theorem Scheduled.never (h : Scheduled ρ) (t : Fin T) {P : Nat → Prop} (f : Nat → Nat)
    (hother : ∀ i, P i → actor (ρ.action i) ≠ some t → P (i + 1) ∧ f (i + 1) ≤ f i)
    (hown : ∀ i e v, P i → ρ.action i = .inl (.thread t e v) →
      Step (ρ.state i) (.thread t e v) (ρ.state (i + 1)) → P (i + 1) ∧ f (i + 1) < f i)
    (i : Nat) : ¬ P i := by
  refine h.fair.never t f (fun i hi => ?_) i
  by_cases ht : actor (ρ.action i) = some t
  · obtain ⟨e, v, hact, hs⟩ := shared_thread ht
    obtain ⟨hp, hlt⟩ := hown i e v hi hact hs
    exact ⟨hp, hlt.le, fun _ => hlt⟩
  · obtain ⟨hp, hle⟩ := hother i hi ht
    exact ⟨hp, hle, fun hact => absurd hact ht⟩

/-- What a thread is led out of by its own steps and does not come back to, it has left from some
    moment on. -/
theorem Scheduled.eventually_not (h : Scheduled ρ) (t : Fin T) {X : Nat → Prop} {N : Nat}
    (f : Nat → Nat) (hstays : ∀ i, N ≤ i → ¬ X i → ¬ X (i + 1))
    (hother : ∀ i, N ≤ i → X i → actor (ρ.action i) ≠ some t → f (i + 1) ≤ f i)
    (hown : ∀ i e v, N ≤ i → X i → Step (ρ.state i) (.thread t e v) (ρ.state (i + 1)) →
      f (i + 1) < f i) : ∀ᶠ i in Filter.atTop, ¬ X i := by
  obtain ⟨i, hi, hleft⟩ : ∃ i, N ≤ i ∧ ¬ X i := by
    by_contra hin
    push Not at hin
    refine h.never t (P := fun i => N ≤ i) f (fun i hi ht => ?_) (fun i e v hi _ hs => ?_) N le_rfl
    · exact ⟨hi.trans (Nat.le_succ i), hother i hi (hin i hi) ht⟩
    · exact ⟨hi.trans (Nat.le_succ i), hown i e v hi (hin i hi) hs⟩
  refine Filter.eventually_atTop.mpr ⟨i, fun j hj => ?_⟩
  induction j, hj using Nat.le_induction with
  | base => exact hleft
  | succ j hj ih => exact hstays j (hi.trans hj) ih

/-- Once nothing waits for ever, all functors have made their dispatches. -/
theorem Settled.todo {N : Nat} (h : Settled ρ N) (hρ : Scheduled ρ)
    (hqueue : ∀ i, N ≤ i → ∀ s, (ρ.state i).queue s = []) {i : Nat} (hi : N ≤ i) (t : Fin T) :
    ((ρ.state i).pc t).todo = [] := by
  by_contra htodo
  refine hρ.never t (P := fun i => N ≤ i ∧ ((ρ.state i).pc t).todo ≠ [])
    (fun i => ((ρ.state i).pc t).ahead fun _ => 0) (fun i hi ht => ?_) (fun i e v hi _ hs => ?_) i
    ⟨hi, htodo⟩
  · rw [shared_pc_of_ne ht]
    exact ⟨⟨hi.1.trans (Nat.le_succ i), hi.2⟩, le_rfl⟩
  · rcases hs.todo hi.2 with ⟨s, hs⟩ | hsame
    · exact absurd (hqueue (i + 1) (hi.1.trans (Nat.le_succ i)) s) hs
    · have hout : ((ρ.state i).pc t).call = none := by
        cases hpc : (ρ.state i).pc t with
        | nextStage p => exact absurd (by rw [hpc]; rfl) hi.2
        | _ => rfl
      exact ⟨⟨hi.1.trans (Nat.le_succ i), hsame ▸ hi.2⟩,
        hs.ahead_lt (Nat.succ_pos 4) (hρ.not_done i) (h i hi.1) hout⟩

end

/-! ## A scheduler that has the stages to itself -/

section

variable {G : StageGraph n Message} {entry : Fin n → Bool} {M : SchedulingPolicy n T}
  {ρ : (undisturbed M G false entry C).Execution}

/-- Among others that do nothing. -/
abbrev alone (ρ : (undisturbed M G false entry C).Execution) : (shared M G entry C).Execution where
  state := ρ.state
  action i := .inl (ρ.action i)
  step := ρ.step

theorem execution_step (ρ : (undisturbed M G false entry C).Execution) (i : Nat) :
    Step (ρ.state i) (ρ.action i) (ρ.state (i + 1)) :=
  step_inv (Lts.restrict_step_eq_some.mp (ρ.step i)).2

/-- What holds in every reachable state. -/
theorem execution_holds {I : State M (G.application false entry) C → Prop}
    (hI : (system M (G.application false entry) C).Invariant I)
    {σ₀ : State M (G.application false entry) C} (hσ₀ : Initial σ₀)
    {as : List (Action M (G.application false entry) C)}
    (hrun : (system M (G.application false entry) C).run σ₀ as = some (ρ.state 0)) (i : Nat) :
    I (ρ.state i) :=
  ρ.always (hI.restrict NotDispatching).step (hI.holds ((Lts.Reachable.init hσ₀).run hrun)) i

theorem scheduled_alone {σ₀ : State M (G.application false entry) C} (hσ₀ : Initial σ₀)
    {as : List (Action M (G.application false entry) C)}
    (hrun : (system M (G.application false entry) C).run σ₀ as = some (ρ.state 0))
    (hrunning : (ρ.state 0).done = false) (hfair : ρ.Fair Action.actor) : Scheduled (alone ρ) :=
  ⟨((Lts.Reachable.init hσ₀).run hrun).among, hrunning, hfair⟩

/-- Nothing is added to what has been or will be processed. -/
theorem execution_all (ρ : (undisturbed M G false entry C).Execution) (i : Nat) :
    (ρ.state i).pool.all G.spawning = (ρ.state 0).pool.all G.spawning := by
  refine ρ.always (I := fun σ => σ.pool.all G.spawning = (ρ.state 0).pool.all G.spawning)
    (fun σ a σ' hall hs => ?_) rfl i
  obtain ⟨ha, hs⟩ := Lts.restrict_step_eq_some.mp hs
  have hbalance := step_all (step_inv hs)
  have hdropped : dropped σ a = [] := by
    cases step_inv hs with
    | throw t s m todo hA hpc => cases hA
    | _ => rfl
  have hpush : a.clientPush = none := by
    cases a with
    | push c target m => cases ha
    | thread t e v | throw t | dispatched c | stop => rfl
  rw [hdropped, hpush] at hbalance
  exact (add_right_cancel hbalance).trans hall

theorem exists_settled (ρ : (undisturbed M G false entry C).Execution) :
    ∃ N, Settled (alone ρ) N := by
  have hmono : ∀ i, (ρ.state i).processed.card ≤ (ρ.state (i + 1)).processed.card := by
    intro i
    rcases (execution_step ρ i).popped with hsame | hmore
    · exact le_of_eq (by rw [State.processed, State.processed, hsame])
    · omega
  have hbound : ∀ i, (ρ.state i).processed.card ≤ ((ρ.state 0).pool.all G.spawning).card := by
    intro i
    rw [← execution_all ρ i]
    exact Multiset.card_le_card (Multiset.le_add_right _ _)
  obtain ⟨N, hN⟩ := Lts.Execution.exists_settled hmono hbound
  refine ⟨N, fun i hi => ?_⟩
  have hcard := hN i hi
  exact (execution_step ρ i).popped.resolve_right (by omega)

/-- From some moment on nothing is left to do, and the deliveries that follow from the clients'
    dispatches have been processed. -/
def Drained (as : List (Action M (G.application false entry) C))
    (ρ : (undisturbed M G false entry C).Execution) : Prop :=
  ∀ᶠ i in Filter.atTop, Idle (ρ.state i) ∧
    (ρ.state i).processed = G.deliveries (clientDispatches as)

/-- What has been and will be processed is what follows from the clients' dispatches. -/
theorem execution_deliveries {σ₀ : State M (G.application false entry) C} (hσ₀ : Initial σ₀)
    {as : List (Action M (G.application false entry) C)}
    (hrun : (system M (G.application false entry) C).run σ₀ as = some (ρ.state 0)) (i : Nat) :
    (ρ.state i).pool.all G.spawning = G.deliveries (clientDispatches as) := by
  have hall := all_add_lost hσ₀ hrun
  rw [lost_of_not_mayThrow rfl, add_zero] at hall
  rw [execution_all ρ i, hall]

/-- It is enough that the stages to which messages are delivered leave nothing. -/
theorem Scheduled.drained (hρ : Scheduled (alone ρ)) {σ₀ : State M (G.application false entry) C}
    (hσ₀ : Initial σ₀) {as : List (Action M (G.application false entry) C)}
    (hrun : (system M (G.application false entry) C).run σ₀ as = some (ρ.state 0))
    (hnothing : ∀ d ∈ G.deliveries (clientDispatches as), LeavesNothing (alone ρ) d.1) :
    Drained as ρ := by
  obtain ⟨N, hN⟩ := exists_settled ρ
  have hqueue : ∀ i, N ≤ i → ∀ s, (ρ.state i).queue s = [] := by
    intro i hi s
    by_contra hq
    obtain ⟨m, hm⟩ := List.exists_mem_of_ne_nil _ hq
    have hdelivery : (s, m) ∈ G.deliveries (clientDispatches as) := by
      rw [← execution_deliveries hσ₀ hrun i]
      exact Pool.mem_all_of_pending _ (Multiset.mem_add.mpr (.inl (mem_queued.mpr hm)))
    exact hq (hnothing (s, m) hdelivery i fun j hj => hN j (hi.trans hj))
  refine Filter.eventually_atTop.mpr ⟨N, fun i hi => ?_⟩
  have hidle : Idle (ρ.state i) := ⟨hqueue i hi, hN.todo hρ hqueue hi⟩
  refine ⟨hidle, ?_⟩
  rw [← execution_deliveries hσ₀ hrun i, Pool.all_of_finished _ hidle.pending]
  rfl

/-- What has been delivered has been popped. -/
theorem Drained.popped_ne_nil {as : List (Action M (G.application false entry) C)}
    (h : Drained as ρ) {d : Fin n × Message} (hd : d ∈ G.deliveries (clientDispatches as)) :
    ∃ i, (ρ.state i).popped d.1 ≠ [] := by
  obtain ⟨i, _, hprocessed⟩ := h.exists
  rw [← hprocessed] at hd
  exact ⟨i, List.ne_nil_of_mem (mem_queued.mp hd)⟩

/-- Whatever the clients have dispatched, if they dispatch nothing more and the threads are
    scheduled fairly, then all of it is processed, unless something is delivered to a stage that is
    not open. -/
def Drains (M : SchedulingPolicy n T) (G : StageGraph n Message) (entry : Fin n → Bool) (C : Nat)
    (opened : Fin n → Prop) : Prop :=
  ∀ (σ₀ : State M (G.application false entry) C) as
    (ρ : (undisturbed M G false entry C).Execution), Initial σ₀ →
      (system M (G.application false entry) C).run σ₀ as = some (ρ.state 0) →
      (ρ.state 0).done = false → ρ.Fair Action.actor →
      (Drained as ρ ↔ ∀ d ∈ G.deliveries (clientDispatches as), opened d.1)

end

section

variable {P : StageChooser n T} {concurrency : Fin n → SizeT}

/-- Nothing is popped at a stage with a limit of 0. -/
theorem popped_open_invariant (A : Application n) :
    (system (P.policy concurrency) A C).Invariant fun σ =>
      SlotInv σ ∧ ∀ s, σ.popped s ≠ [] → concurrency s ≠ 0 where
  init σ h := ⟨slotInv_invariant.init σ h, fun s hs => absurd (h.popped s) hs⟩
  step σ a σ' h hs := by
    refine ⟨slotInv_invariant.step σ a σ' h.1 hs, fun s hpopped => ?_⟩
    cases step_inv hs with
    | pop t e v u m rest hpc hq =>
      by_cases hsu : s = u
      · subst s
        intro hzero
        refine h.1.not_visits hzero t ?_
        rw [hpc]
        rfl
      · rw [State.setPc_popped, State.pop_popped, Function.update_of_ne hsu] at hpopped
        exact h.2 s hpopped
    | _ => exact h.2 s hpopped

variable {G : StageGraph n Message} {entry : Fin n → Bool}
  {ρ : (undisturbed (P.policy concurrency) G false entry C).Execution}

theorem Drained.opened {σ₀ : State (P.policy concurrency) (G.application false entry) C}
    {as : List (Action (P.policy concurrency) (G.application false entry) C)} (h : Drained as ρ)
    (hσ₀ : Initial σ₀) (hrun : (system _ _ C).run σ₀ as = some (ρ.state 0)) :
    ∀ d ∈ G.deliveries (clientDispatches as), concurrency d.1 ≠ 0 := by
  intro d hd
  obtain ⟨i, hi⟩ := h.popped_ne_nil hd
  exact (execution_holds (popped_open_invariant _) hσ₀ hrun i).2 d.1 hi

/-- Where the open stages leave nothing, what is delivered to the others decides. -/
theorem Scheduled.drained_iff (hρ : Scheduled (alone ρ))
    {σ₀ : State (P.policy concurrency) (G.application false entry) C} (hσ₀ : Initial σ₀)
    {as : List (Action (P.policy concurrency) (G.application false entry) C)}
    (hrun : (system _ _ C).run σ₀ as = some (ρ.state 0))
    (hnothing : ∀ s, concurrency s ≠ 0 → LeavesNothing (alone ρ) s) :
    Drained as ρ ↔ ∀ d ∈ G.deliveries (clientDispatches as), concurrency d.1 ≠ 0 :=
  ⟨fun h => h.opened hσ₀ hrun, fun h => hρ.drained hσ₀ hrun fun d hd => hnothing d.1 (h d hd)⟩

theorem drains_of_leavesNothing (h : ∀ ρ : (shared (P.policy concurrency) G entry C).Execution,
      Scheduled ρ → ∀ s, concurrency s ≠ 0 → LeavesNothing ρ s) :
    Drains (P.policy concurrency) G entry C fun s => concurrency s ≠ 0 := by
  intro σ₀ as ρ hσ₀ hrun hrunning hfair
  have hρ : Scheduled (alone ρ) := scheduled_alone hσ₀ hrun hrunning hfair
  exact hρ.drained_iff hσ₀ hrun (h (alone ρ) hρ)

end

/-! ## `ThreadPerStage` -/

section

variable {G : StageGraph n Message} {entry : Fin n → Bool}

/-- How many steps a thread takes that pops nothing, until it polls. -/
def Pc.untilPoll {A : Application n} : Pc (ThreadPerStage n) A → Nat
  | .poll _ => 0
  | pc => pc.ahead fun _ => 4

theorem Pc.untilPoll_le {A : Application n} (pc : Pc (ThreadPerStage n) A) :
    pc.untilPoll ≤ pc.ahead fun _ => 4 := by
  cases pc with
  | poll s => exact Nat.zero_le _
  | _ => exact le_rfl

/-- A thread on its way to a message that nobody pops. -/
theorem Step.untilPoll_lt {A : Application n} {σ σ' : State (ThreadPerStage n) A C} {t : Fin n}
    {e : Unit} {v : A.Env} (hs : Step σ (.thread t e v) σ') (hdone : σ.done = false)
    (hpopped : σ'.popped = σ.popped) (hvisits : ∀ s, (σ.pc t).Visits s → s = t)
    (hq : σ.queue t ≠ []) : (σ'.pc t).untilPoll < (σ.pc t).untilPoll := by
  have outside : (σ.pc t).call = none →
      (σ.pc t).untilPoll = (σ.pc t).ahead (fun _ => 4) →
      (σ'.pc t).untilPoll < (σ.pc t).untilPoll := by
    intro hout heq
    rw [heq]
    exact (σ'.pc t).untilPoll_le.trans_lt (hs.ahead_lt (by decide) hdone hpopped hout)
  cases hs with
  | visit _ _ _ p policy s hpc hp =>
    rw [State.setPc_pc, Function.update_self, hpc]
    exact Nat.succ_pos 3
  | pop _ _ _ s m rest hpc hq' => exact absurd hpopped (popped_ne s m rest)
  | empty _ _ _ s hpc hq' =>
    obtain rfl : s = t := hvisits s (by rw [hpc]; rfl)
    exact absurd hq' hq
  | call _ _ _ p policy p' hpc hp => cases hp
  | leave _ _ _ hpc hd | enter _ _ _ hpc hd | push _ _ _ s m target m' todo hpc
  | account _ _ _ s m target todo hpc | returns _ _ _ s m hpc | batchEnd _ _ _ s info hpc =>
    exact outside (by rw [hpc]; rfl) (by rw [hpc]; rfl)

/-- The thread of a stage comes to its queue. -/
theorem threadPerStage_leavesNothing
    {ρ : (shared (ThreadPerStage n) G entry C).Execution} (hρ : Scheduled ρ) (s : Fin n) :
    LeavesNothing ρ s := by
  intro N hN
  by_contra hq
  refine hρ.never s (P := fun i => N ≤ i) (fun i => ((ρ.state i).pc s).untilPoll)
    (fun i hi ht => ?_) (fun i e v hi _ hs => ⟨hi.trans (Nat.le_succ i), ?_⟩) N le_rfl
  · rw [shared_pc_of_ne ht]
    exact ⟨hi.trans (Nat.le_succ i), le_rfl⟩
  · have hvisits := hρ.holds (threadPerStage_invariant _)
      (fun σ σ' h hobserves => by rwa [hobserves.pc]) i
    exact hs.untilPoll_lt (hρ.not_done i) (hN i hi) (hvisits s) (hN.waits hq hi)

end

/-! ## The walking policies -/

section

variable {P : StageChooser n T} {concurrency : Fin n → SizeT} {A : Application n}
  {σ σ' : State (P.policy concurrency) A C} {a : Action (P.policy concurrency) A C} {t : Fin T}
  {s : Fin n}

/-- The thread has entered `stage` and is about to poll there. -/
def Pc.Arriving (stage : Fin n) : Pc (P.policy concurrency) A → Prop
  | .nextStage (.record s) | .nextStage (.assigned s) | .poll s => s = stage
  | _ => False

/-- How many steps a thread takes that pops nothing, until it chooses a stage. -/
abbrev Pc.untilChoice : Pc (P.policy concurrency) A → Nat :=
  Pc.ahead Call.untilChoice

/-- A step other than the choice of a stage. -/
theorem Step.untilChoice_lt {e : P.Entropy} {v : A.Env} (hs : Step σ (.thread t e v) σ')
    (hdone : σ.done = false) (hpopped : σ'.popped = σ.popped)
    (hpc : ∀ c, σ.pc t ≠ .nextStage (.choose c)) :
    (σ'.pc t).untilChoice < (σ.pc t).untilChoice := by
  have outside : (σ.pc t).call = none → (σ'.pc t).untilChoice < (σ.pc t).untilChoice :=
    hs.ahead_lt (Nat.lt_succ_self 4) hdone hpopped
  cases hs with
  | call _ _ _ p policy p' hp hr =>
    rw [State.setPc_pc, Function.update_self, hp]
    exact Call.untilChoice_lt (fun c hc => hpc c (by rw [hp, hc])) hr
  | visit _ _ _ p policy s hp hr =>
    obtain ⟨rfl, _⟩ := Call.step_eq_inr hr
    rw [State.setPc_pc, Function.update_self, hp]
    exact Nat.lt_succ_self 7
  | leave _ _ _ hp hd | enter _ _ _ hp hd | pop _ _ _ s m rest hp hq | empty _ _ _ s hp hq
  | push _ _ _ s m target m' todo hp | account _ _ _ s m target todo hp | returns _ _ _ s m hp
  | batchEnd _ _ _ s info hp => exact outside (by rw [hp]; rfl)

/-- A thread that is about to poll where a message waits goes on to poll, and nobody can have popped
    nothing. -/
theorem Step.arriving {e : P.Entropy} {v : A.Env} (hs : Step σ (.thread t e v) σ')
    (hpopped : σ'.popped = σ.popped) (hq : σ.queue s ≠ []) (h : (σ.pc t).Arriving s) :
    (σ'.pc t).Arriving s := by
  cases hs with
  | call _ _ _ p policy p' hp hr =>
    rw [State.setPc_pc, Function.update_self]
    rw [hp] at h
    cases p with
    | record u =>
      cases hr
      exact h
    | assigned u => cases hr
    | _ => exact h.elim
  | visit _ _ _ p policy u hp hr =>
    obtain ⟨rfl, _⟩ := Call.step_eq_inr hr
    rw [State.setPc_pc, Function.update_self]
    rw [hp] at h
    exact h
  | pop _ _ _ u m rest hp hq' => exact absurd hpopped (popped_ne u m rest)
  | empty _ _ _ u hp hq' =>
    rw [hp] at h
    obtain rfl : u = s := h
    exact absurd hq' hq
  | leave _ _ _ hp hd | enter _ _ _ hp hd | push _ _ _ u m target m' todo hp
  | account _ _ _ u m target todo hp | returns _ _ _ u m hp | batchEnd _ _ _ u info hp =>
    rw [hp] at h
    exact h.elim

/-- A thread comes to hold a slot by entering the stage. -/
theorem Step.entered (hs : Step σ a σ') (h : SlotInv σ) (hbefore : σ.policy.holding t ≠ some s)
    (hafter : σ'.policy.holding t = some s) : (σ'.pc t).Arriving s := by
  have inside : ∀ {u : Fin T} {e : P.Entropy} {p : P.Pc} {policy r}, σ.pc u = .nextStage p →
      Call.step σ.policy u e p = (policy, r) → policy.holding t = some s →
      u = t ∧ r = .inl (.record s) := by
    intro u e p policy r hp hr hafter
    by_cases hut : u = t
    · subst u
      exact ⟨rfl, Call.entered hr hbefore hafter⟩
    · rw [h.holding_call hp hr (Ne.symm hut)] at hafter
      exact absurd hafter hbefore
  cases hs with
  | call u e v p policy p' hp hr =>
    obtain ⟨rfl, hin⟩ := inside hp hr hafter
    rw [State.setPc_pc, Function.update_self, Sum.inl.inj hin]
    rfl
  | visit u e v p policy s' hp hr => cases (inside hp hr hafter).2
  | _ => exact absurd hafter hbefore

/-- The steps of the other threads leave the entry of a thread alone. -/
theorem Step.threadAssignment_eq (hs : Step σ a σ') (h : SlotInv σ) (ha : a.actor ≠ some t) :
    σ'.policy.ta.threadAssignment t = σ.policy.ta.threadAssignment t := by
  have inside : ∀ {u : Fin T} {e : P.Entropy} {p : P.Pc} {policy r}, u ≠ t →
      σ.pc u = .nextStage p → Call.step σ.policy u e p = (policy, r) →
      policy.ta.threadAssignment t = σ.policy.ta.threadAssignment t := by
    intro u e p policy r hut hp hr
    have hu : Call.Consistent concurrency _ _ p := h.consistent_at hp
    have hframe := (Call.step_slots h.slots (e := e) hu).2.1
    rw [hr] at hframe
    exact hframe.recorded t (Ne.symm hut)
  cases hs with
  | call u e v p policy p' hp hr => exact inside (fun heq => ha (congrArg some heq)) hp hr
  | visit u e v p policy s' hp hr => exact inside (fun heq => ha (congrArg some heq)) hp hr
  | _ => rfl

/-- A stage that all threads have left is empty, and can be entered. -/
theorem SlotInv.empty_of_left (h : SlotInv σ) (hopen : concurrency s ≠ 0)
    (hleft : ∀ u, σ.policy.holding u ≠ some s) :
    σ.policy.ta.threadsPerStage s = 0 ∧ σ.policy.ta.HasRoom s := by
  have hempty : σ.policy.ta.threadsPerStage s = 0 := by
    apply BitVec.eq_of_toNat_eq
    rw [h.slots.count s, tally_eq_zero hleft]
    rfl
  refine ⟨hempty, ?_⟩
  show σ.policy.ta.threadsPerStage s < σ.policy.ta.maximumConcurrency s
  rw [hempty, h.slots.limit, BitVec.lt_def]
  exact Nat.pos_of_ne_zero fun hzero => hopen (BitVec.eq_of_toNat_eq hzero)

/-- A thread that has just entered a stage holds its slot. -/
theorem SlotInv.holding_record (h : SlotInv σ) (hpc : σ.pc t = .nextStage (.record s)) :
    σ.policy.holding t = some s :=
  (h.consistent_at hpc).2

/-- The thread tries `stage` and is about to enter it if nobody comes before. -/
def Pc.Entering (stage : Fin n) : Pc (P.policy concurrency) A → Prop
  | .nextStage p => Call.Entering stage p
  | _ => False

/-- While a stage is empty, a thread that tries it enters it. -/
theorem Step.entering {e : P.Entropy} {v : A.Env} (hs : Step σ (.thread t e v) σ')
    (h' : SlotInv σ') (hempty : σ.policy.ta.threadsPerStage s = 0)
    (hroom : σ.policy.ta.HasRoom s) (hleft : σ'.policy.holding t ≠ some s)
    (h : (σ.pc t).Entering s) : (σ'.pc t).Entering s := by
  cases hs with
  | call _ _ _ p policy p' hp hr =>
    rw [hp] at h
    rw [State.setPc_pc, Function.update_self]
    refine (h.step hempty hroom hr).resolve_right fun hrecord => hleft (h'.holding_record ?_)
    rw [State.setPc_pc, Function.update_self, hrecord]
  | visit _ _ _ p policy u hp hr =>
    obtain ⟨rfl, _⟩ := Call.step_eq_inr hr
    rw [hp] at h
    exact h.elim
  | leave _ _ _ hp hd | enter _ _ _ hp hd | pop _ _ _ u m rest hp hq | empty _ _ _ u hp hq
  | push _ _ _ u m target m' todo hp | account _ _ _ u m target todo hp | returns _ _ _ u m hp
  | batchEnd _ _ _ u info hp =>
    rw [hp] at h
    exact h.elim

/-- The choice of a stage, and where it leads the thread. -/
theorem Step.choice {e : P.Entropy} {v : A.Env} {c : P.Cursor}
    (hs : Step σ (.thread t e v) σ') (hpc : σ.pc t = .nextStage (.choose c)) :
    σ'.policy.own = (P.choose σ.policy.own t c e).2.2 ∧
      σ'.pc t = .nextStage (.load (P.choose σ.policy.own t c e).1
        (P.choose σ.policy.own t c e).2.1) := by
  cases hs with
  | call _ _ _ p policy p' hp hr =>
    cases hpc.symm.trans hp
    cases hr
    exact ⟨rfl, Function.update_self _ _ _⟩
  | visit _ _ _ p policy u hp hr =>
    cases hpc.symm.trans hp
    cases hr
  | leave _ _ _ hp hd | enter _ _ _ hp hd | pop _ _ _ u m rest hp hq | empty _ _ _ u hp hq
  | push _ _ _ u m target m' todo hp | account _ _ _ u m target todo hp | returns _ _ _ u m hp
  | batchEnd _ _ _ u info hp => cases hpc.symm.trans hp

/-- A thread that chooses a stage holds no slot. -/
theorem SlotInv.holding_choose (h : SlotInv σ) {c : P.Cursor}
    (hpc : σ.pc t = .nextStage (.choose c)) : σ.policy.holding t = none :=
  (h.consistent_at hpc).2

end

section

variable {G : StageGraph n Message} {entry : Fin n → Bool} {P : StageChooser n T}
  {concurrency : Fin n → SizeT}
  {ρ : (shared (P.policy concurrency) G entry C).Execution} {N : Nat} {s : Fin n}

theorem Scheduled.slotInv (h : Scheduled ρ) (i : Nat) : SlotInv (ρ.state i) :=
  h.holds slotInv_invariant (fun _ _ hσ hobserves => hσ.observes hobserves) i

theorem Scheduled.threadAssignment_eq (h : Scheduled ρ) {i : Nat} {t : Fin T}
    (ht : actor (ρ.action i) ≠ some t) :
    (ρ.state (i + 1)).policy.ta.threadAssignment t = (ρ.state i).policy.ta.threadAssignment t := by
  rcases shared_step ρ i with ⟨a, hact, _, hs⟩ | ⟨_, hobserves⟩
  · rw [hact] at ht
    exact hs.threadAssignment_eq (h.slotInv i) ht
  · rw [hobserves.assignments.1]

theorem Scheduled.entered (h : Scheduled ρ) {i : Nat} {t : Fin T}
    (hbefore : (ρ.state i).policy.holding t ≠ some s)
    (hafter : (ρ.state (i + 1)).policy.holding t = some s) :
    ((ρ.state (i + 1)).pc t).Arriving s := by
  rcases shared_step ρ i with ⟨a, _, _, hs⟩ | ⟨_, hobserves⟩
  · exact hs.entered (h.slotInv i) hbefore hafter
  · rw [hobserves.assignments.2] at hafter
    exact absurd hafter hbefore

/-- Nobody enters a stage at which a message waits for ever. -/
theorem Settled.not_arriving (h : Settled ρ N) (hρ : Scheduled ρ) (hq : (ρ.state N).queue s ≠ [])
    {i : Nat} (hi : N ≤ i) (t : Fin T) : ¬ ((ρ.state i).pc t).Arriving s := by
  intro harriving
  refine hρ.never t (P := fun i => N ≤ i ∧ ((ρ.state i).pc t).Arriving s)
    (fun i => ((ρ.state i).pc t).untilChoice) (fun i hi ht => ?_) (fun i e v hi _ hs => ?_) i
    ⟨hi, harriving⟩
  · rw [shared_pc_of_ne ht]
    exact ⟨⟨hi.1.trans (Nat.le_succ i), hi.2⟩, le_rfl⟩
  · have hpopped := h i hi.1
    refine ⟨⟨hi.1.trans (Nat.le_succ i), hs.arriving hpopped (h.waits hq hi.1) hi.2⟩, ?_⟩
    refine hs.untilChoice_lt (hρ.not_done i) hpopped fun c hc => ?_
    have hnot := hi.2
    rw [hc] at hnot
    exact hnot.elim

/-- All threads leave the stage. -/
theorem Settled.eventually_left (h : Settled ρ N) (hρ : Scheduled ρ)
    (hq : (ρ.state N).queue s ≠ []) :
    ∀ᶠ i in Filter.atTop, ∀ t, (ρ.state i).policy.holding t ≠ some s := by
  rw [Filter.eventually_all]
  intro t
  refine hρ.eventually_not t (N := N) (fun i => ((ρ.state i).pc t).untilChoice)
    (fun i hi hbefore hafter => ?_) (fun i hi hholds ht => ?_) (fun i e v hi hholds hs => ?_)
  · exact h.not_arriving hρ hq (hi.trans (Nat.le_succ i)) t (hρ.entered hbefore hafter)
  · rw [shared_pc_of_ne ht]
  · refine hs.untilChoice_lt (hρ.not_done i) (h i hi) fun c hc => ?_
    have hnone := (hρ.slotInv i).holding_choose hc
    rw [hholds] at hnone
    cases hnone

/-- After that nobody tries the stage. -/
theorem Settled.not_entering (h : Settled ρ N) (hρ : Scheduled ρ) (hopen : concurrency s ≠ 0)
    (hleft : ∀ i, N ≤ i → ∀ t, (ρ.state i).policy.holding t ≠ some s) {i : Nat} (hi : N ≤ i)
    (t : Fin T) : ¬ ((ρ.state i).pc t).Entering s := by
  intro hentering
  refine hρ.never t (P := fun i => N ≤ i ∧ ((ρ.state i).pc t).Entering s)
    (fun i => ((ρ.state i).pc t).untilChoice) (fun i hi ht => ?_) (fun i e v hi _ hs => ?_) i
    ⟨hi, hentering⟩
  · rw [shared_pc_of_ne ht]
    exact ⟨⟨hi.1.trans (Nat.le_succ i), hi.2⟩, le_rfl⟩
  · have hi' : N ≤ i + 1 := hi.1.trans (Nat.le_succ i)
    obtain ⟨hempty, hroom⟩ := (hρ.slotInv i).empty_of_left hopen (hleft i hi.1)
    refine ⟨⟨hi', hs.entering (hρ.slotInv (i + 1)) hempty hroom
      (hleft (i + 1) hi' t) hi.2⟩, ?_⟩
    refine hs.untilChoice_lt (hρ.not_done i) (h i hi.1) fun c hc => ?_
    have hnot := hi.2
    rw [hc] at hnot
    exact hnot.elim

/-- At moment `i` thread `t`, inside `nextStage`, chooses `stage` as the one to try. -/
def Chooses (ρ : (shared (P.policy concurrency) G entry C).Execution) (t : Fin T)
    (stage : StageEnum n) (i : Nat) : Prop :=
  ∃ e v c, ρ.action i = .inl (.thread t e v) ∧ (ρ.state i).pc t = .nextStage (.choose c) ∧
    (P.choose (ρ.state i).policy.own t c e).1 = stage

/-- A progress argument about the choices of one thread: `ahead` gets less with each of them that is
    not of `s`, and the other steps add nothing. -/
theorem Settled.frequently_chooses (h : Settled ρ N) (hρ : Scheduled ρ) (t : Fin T)
    (ahead : Nat → Nat)
    (hother : ∀ i, N ≤ i → (∀ stage, ¬ Chooses ρ t stage i) → ahead (i + 1) ≤ ahead i)
    (hchoice : ∀ i stage, N ≤ i → Chooses ρ t stage i → stage ≠ some s →
      ahead (i + 1) < ahead i) :
    ∃ᶠ i in Filter.atTop, Chooses ρ t (some s) i := by
  intro hnever
  obtain ⟨N', hN'⟩ := Filter.eventually_atTop.mp hnever
  -- a choice pays for the twelve steps up to the next one
  refine hρ.never t (P := fun i => max N N' ≤ i)
    (fun i => 12 * ahead i + ((ρ.state i).pc t).untilChoice)
    (fun i hi ht => ⟨hi.trans (Nat.le_succ i), ?_⟩)
    (fun i e v hi hact hs => ⟨hi.trans (Nat.le_succ i), ?_⟩) (max N N') le_rfl
  · have hle := hother i ((Nat.le_max_left N N').trans hi) fun stage hchooses => by
      obtain ⟨e, v, c, hact, _⟩ := hchooses
      exact ht (by rw [hact]; rfl)
    rw [shared_pc_of_ne ht]
    omega
  · have hN : N ≤ i := (Nat.le_max_left N N').trans hi
    by_cases hp : ∃ c, (ρ.state i).pc t = .nextStage (.choose c)
    · obtain ⟨c, hpc⟩ := hp
      have hlt := hchoice i _ hN ⟨e, v, c, hact, hpc, rfl⟩ fun hs =>
        hN' i ((Nat.le_max_right N N').trans hi) ⟨e, v, c, hact, hpc, hs⟩
      rw [(hs.choice hpc).2, hpc]
      show 12 * ahead (i + 1) + 11 < 12 * ahead i + 0
      omega
    · rw [not_exists] at hp
      have hle := hother i hN fun stage ⟨_, _, c, _, hpc, _⟩ => hp c hpc
      have hlt := hs.untilChoice_lt (hρ.not_done i) (h i hN) hp
      omega

/-- Where everybody has left the stage nobody chooses it any more. -/
theorem Settled.not_chooses (h : Settled ρ N) (hρ : Scheduled ρ) (hopen : concurrency s ≠ 0)
    (hleft : ∀ i, N ≤ i → ∀ t, (ρ.state i).policy.holding t ≠ some s) {i : Nat} (hi : N ≤ i)
    (t : Fin T) : ¬ Chooses ρ t (some s) i := by
  rintro ⟨e, v, c, hact, hpc, hchoice⟩
  refine h.not_entering hρ hopen hleft (hi.trans (Nat.le_succ i)) t ?_
  rw [((shared_own hact).2.choice hpc).2]
  exact hchoice

/-- What a policy owes to an open stage: that some thread tries it again and again. -/
theorem leavesNothing_of_chooses (hρ : Scheduled ρ) (hopen : concurrency s ≠ 0) (t : Fin T)
    (hchooses : ∀ N, Settled ρ N → ∃ᶠ i in Filter.atTop, Chooses ρ t (some s) i) :
    LeavesNothing ρ s := by
  intro N hN
  by_contra hq
  obtain ⟨N', hleft⟩ := Filter.eventually_atTop.mp (hN.eventually_left hρ hq)
  obtain ⟨i, hi, hchoice⟩ := Filter.frequently_atTop.mp (hchooses N hN) (max N N')
  have hlate : Settled ρ (max N N') := fun i hi => hN i ((Nat.le_max_left N N').trans hi)
  exact hlate.not_chooses hρ hopen (fun i hi => hleft i ((Nat.le_max_right N N').trans hi)) hi t
    hchoice

end

section

variable {Own : Type} {next : StageEnum n → StageEnum n} {start : Own → StageEnum n → StageEnum n}
  {batchEnd : Own → Bool → Own} {init : (Fin n → SizeT) → Own → Prop}
  {rank : StageEnum n → Fin n → Nat} {concurrency : Fin n → SizeT}

/-- In a call of `nextStage` the walk is at the stage that is being tried. -/
def Pc.AtCursor {A : Application n} :
    Pc ((walk (T := T) Own next start batchEnd init).policy concurrency) A → Prop
  | .nextStage p => Call.AtCursor p
  | _ => True

theorem atCursor_invariant (A : Application n) :
    (system ((walk (T := T) Own next start batchEnd init).policy concurrency) A C).Invariant
      fun σ => ∀ t, (σ.pc t).AtCursor where
  init σ h t := by
    rw [h.pc t]
    trivial
  step σ a σ' h hs := by
    cases step_inv hs with
    | call t e v p policy p' hpc hr =>
      have hp : Call.AtCursor p := by
        have ht := h t
        rwa [hpc] at ht
      exact forall_pc_of_update rfl h (hp.step (e := e) hr)
    | clientPush c target m hc he | clientDone c target hc | stop => exact h
    | leave t e v hpc hd | enter t e v hpc hd | visit t e v p policy s hpc hr
    | pop t e v s m rest hpc hq | empty t e v s hpc hq | push t e v s m target m' todo hpc
    | account t e v s m target todo hpc | returns t e v s m hpc | batchEnd t e v s info hpc
    | throw t s m todo hA hpc => exact forall_pc_of_update rfl h trivial

/-- Where a thread is in its walk; outside of `nextStage` that is its entry in the table of
    assignments. -/
def Pc.cursor {A : Application n} (recorded : StageEnum n) :
    Pc ((walk (T := T) Own next start batchEnd init).policy concurrency) A → StageEnum n
  | .nextStage p => Call.cursor recorded p
  | _ => recorded

/-- A step of a thread other than the choice of a stage leaves it where it is in its walk. -/
theorem Step.cursor_eq {A : Application n}
    {σ σ' : State ((walk (T := T) Own next start batchEnd init).policy concurrency) A C}
    {t : Fin T} {e : Unit} {v : A.Env} (hs : Step σ (.thread t e v) σ') (h : SlotInv σ)
    (hcursor : (σ.pc t).AtCursor) (hstart : ∀ original, start σ.policy.own original = original)
    (hp : ∀ c, σ.pc t ≠ .nextStage (.choose c)) :
    (σ'.pc t).cursor (σ'.policy.ta.threadAssignment t) =
      (σ.pc t).cursor (σ.policy.ta.threadAssignment t) := by
  cases hs with
  | call _ e _ p policy p' hpc hr =>
    rw [hpc] at hcursor
    rw [State.setPc_pc, Function.update_self, hpc]
    exact Call.cursor_eq (e := e) hstart hcursor (fun c heq => hp c (heq ▸ hpc)) hr
  | visit _ e _ p policy u hpc hr =>
    obtain ⟨rfl, rfl⟩ := Call.step_eq_inr (e := e) hr
    rw [State.setPc_pc, Function.update_self, hpc]
    exact (h.consistent_at hpc).1
  | leave _ _ _ hpc hd | enter _ _ _ hpc hd | pop _ _ _ u m rest hpc hq | empty _ _ _ u hpc hq
  | push _ _ _ u m target m' todo hpc | account _ _ _ u m target todo hpc | returns _ _ _ u m hpc
  | batchEnd _ _ _ u info hpc =>
    rw [State.setPc_pc, Function.update_self, hpc]
    rfl

variable {G : StageGraph n Message} {entry : Fin n → Bool}
  {ρ : (shared ((walk (T := T) Own next start batchEnd init).policy concurrency) G entry
    C).Execution} {N : Nat}

/-- So it stays there until it chooses. -/
theorem Scheduled.cursor_eq (hρ : Scheduled ρ) {i : Nat} {t : Fin T}
    (hstart : ∀ original, start (ρ.state i).policy.own original = original)
    (hnot : ∀ stage, ¬ Chooses ρ t stage i) :
    ((ρ.state (i + 1)).pc t).cursor ((ρ.state (i + 1)).policy.ta.threadAssignment t) =
      ((ρ.state i).pc t).cursor ((ρ.state i).policy.ta.threadAssignment t) := by
  by_cases ht : actor (ρ.action i) = some t
  · obtain ⟨e, v, hact, hs⟩ := shared_thread ht
    have hcursor := hρ.holds (atCursor_invariant _) (fun σ σ' h hobserves => by
      rwa [hobserves.pc]) i t
    exact hs.cursor_eq (hρ.slotInv i) hcursor hstart fun c hpc => hnot _ ⟨e, v, c, hact, hpc, rfl⟩
  · rw [shared_pc_of_ne ht, hρ.threadAssignment_eq ht]

/-- A thread that walks over the stages chooses each of them again and again. -/
theorem Settled.walk_chooses (h : Settled ρ N) (hρ : Scheduled ρ) (hrank : Ranks next rank)
    (hstart : ∀ i original, start (ρ.state i).policy.own original = original) (t : Fin T)
    (s : Fin n) : ∃ᶠ i in Filter.atTop, Chooses ρ t (some s) i := by
  refine h.frequently_chooses hρ t
    (fun i => rank (((ρ.state i).pc t).cursor ((ρ.state i).policy.ta.threadAssignment t)) s)
    (fun i _ hnot => ?_) fun i stage _ hchooses hne => ?_
  · rw [hρ.cursor_eq (hstart i) hnot]
  · obtain ⟨e, v, c, hact, hpc, rfl⟩ := hchooses
    rw [((shared_own hact).2.choice hpc).2, hpc]
    exact (hrank.rank_next c s).resolve_left hne

end

/-- The batch has ended with a poll that found nothing. -/
def Pc.NoMessage {M : SchedulingPolicy n T} {A : Application n} : Pc M A → Prop
  | .batchEnd _ info => info.hadMessage = false
  | _ => True

/-- Every batch ends with a poll that finds nothing, so the flag of `SRPT` is never set. -/
theorem srpt_invariant (A : Application n) (concurrency : Fin n → SizeT) :
    (system ((SRPT.chooser n T).policy concurrency) A C).Invariant fun σ =>
      σ.policy.own = false ∧ ∀ t, (σ.pc t).NoMessage where
  init σ h := by
    refine ⟨h.policy.2.2, fun t => ?_⟩
    rw [h.pc t]
    trivial
  step σ a σ' h hs := by
    obtain ⟨hown, hinfo⟩ := h
    cases step_inv hs with
    | batchEnd t e v s info hpc =>
      have hlast : info.hadMessage = false := by
        have ht := hinfo t
        rwa [hpc] at ht
      exact ⟨hlast, forall_pc_of_update rfl hinfo trivial⟩
    | call t e v p policy p' hpc hr =>
      exact ⟨(Call.step_own (e := e) hr).trans hown, forall_pc_of_update rfl hinfo trivial⟩
    | visit t e v p policy s hpc hr =>
      exact ⟨(Call.step_own (e := e) hr).trans hown, forall_pc_of_update rfl hinfo trivial⟩
    | empty t e v s hpc hq => exact ⟨hown, forall_pc_of_update rfl hinfo rfl⟩
    | clientPush c target m hc he | clientDone c target hc | stop => exact ⟨hown, hinfo⟩
    | leave t e v hpc hd | enter t e v hpc hd | pop t e v s m rest hpc hq
    | push t e v s m target m' todo hpc | account t e v s m target todo hpc
    | returns t e v s m hpc | throw t s m todo hA hpc =>
      exact ⟨hown, forall_pc_of_update rfl hinfo trivial⟩

/-- `stop()` has not been called, and nobody has left `tryProcess`. -/
def Running {M : SchedulingPolicy n T} {A : Application n} (σ : State M A C) : Prop :=
  σ.done = false ∧ ∀ t, (σ.pc t).isExited = false

theorem Running.step {M : SchedulingPolicy n T} {G : StageGraph n Message} {entry : Fin n → Bool}
    {σ σ' : State M (G.application false entry) C} {a : Action M (G.application false entry) C}
    (h : Running σ) (ha : NotDispatching a = true) (hs : Step σ a σ') : Running σ' := by
  cases hs with
  | leave t e v hp hd => cases h.1.symm.trans hd
  | throw t s m todo hA hp => cases hA
  | stop => cases ha
  | clientPush c target m hc he | clientDone c target hc => exact h
  | _ => exact ⟨h.1, forall_pc_of_update (Q := fun pc => pc.isExited = false) rfl h.2 rfl⟩

/-- Before `stop()` the threads can be scheduled one after the other for ever. -/
theorem exists_fair {M : SchedulingPolicy n T} {G : StageGraph n Message} {entry : Fin n → Bool}
    (hthreads : 0 < T) (e : M.Entropy) {σ : State M (G.application false entry) C}
    (hσ : Running σ) :
    ∃ ρ : (undisturbed M G false entry C).Execution, ρ.state 0 = σ ∧ ρ.Fair Action.actor := by
  let turn (i : Nat) : Action M (G.application false entry) C :=
    .thread ⟨i % T, Nat.mod_lt i hthreads⟩ e ()
  have hkeep : ∀ σ a σ', Running σ → (undisturbed M G false entry C).step σ a = some σ' →
      Running σ' := by
    intro σ a σ' h hs
    obtain ⟨ha, hs⟩ := Lts.restrict_step_eq_some.mp hs
    exact h.step ha (step_inv hs)
  have henabled : ∀ i σ, Running σ →
      ((undisturbed M G false entry C).step σ (turn i)).isSome = true := by
    intro i σ hσ
    rw [Option.isSome_iff_ne_none]
    intro hnone
    have hexited := hσ.2 ⟨i % T, Nat.mod_lt i hthreads⟩
    rw [threadStep_eq_none hnone] at hexited
    cases hexited
  obtain ⟨ρ, hstart, hact⟩ := Lts.Execution.exists_of_enabled hkeep turn henabled hσ
  refine ⟨ρ, hstart, fun u => Filter.frequently_atTop.mpr fun i => ?_⟩
  obtain ⟨j, hj, hturn⟩ := Lts.Execution.exists_mod_eq u i
  refine ⟨j, hj, ?_⟩
  rw [hact]
  exact congrArg some (Fin.ext hturn)

/-- Every thread of `RoundRobin` and `SRPT` walks over all stages. -/
theorem Settled.walking_chooses (hn : n < 2 ^ 64) {p : AssignmentPolicy}
    (hp : p = .roundRobin ∨ p = .srpt) {G : StageGraph n Message} {entry : Fin n → Bool}
    {concurrency : Fin n → SizeT}
    {ρ : (shared ((p.chooser n T).policy concurrency) G entry C).Execution} {N : Nat}
    (h : Settled ρ N) (hρ : Scheduled ρ) (t : Fin T) (s : Fin n) :
    ∃ᶠ i in Filter.atTop, Chooses ρ t (some s) i := by
  rcases hp with rfl | rfl
  · exact h.walk_chooses hρ (RoundRobin.incrementStage_countsUp hn).ranks (fun _ _ => rfl) t s
  · refine h.walk_chooses hρ (SRPT.decrementStage_countsDown hn).ranks (fun i original => ?_) t s
    have hflag := hρ.holds (srpt_invariant _ concurrency) (fun σ σ' h hobserves =>
      ⟨hobserves.own (V := (· = false)) (fun _ _ => id) h.1, by
        rw [hobserves.pc]; exact h.2⟩) i
    rw [hflag.1]
    rfl

theorem walking_leavesNothing (hn : n < 2 ^ 64) {p : AssignmentPolicy}
    (hp : p = .roundRobin ∨ p = .srpt) {G : StageGraph n Message} {entry : Fin n → Bool}
    {concurrency : Fin n → SizeT} (hthreads : 0 < T)
    {ρ : (shared ((p.chooser n T).policy concurrency) G entry C).Execution} (hρ : Scheduled ρ)
    {s : Fin n} (hopen : concurrency s ≠ 0) : LeavesNothing ρ s :=
  leavesNothing_of_chooses hρ hopen ⟨0, hthreads⟩ fun _ hN => hN.walking_chooses hn hp hρ _ s

/-- Nothing that is dispatched is left behind: over every acyclic stage graph and for any number of
    threads that are scheduled fairly, whatever the last dispatch from outside finds the scheduler
    doing, from some moment on all deliveries have been processed, unless one of them is to a stage
    that the mask closes.  There may be more threads than places. -/
theorem dispatched_drained_iff (hn : n < 2 ^ 64) (G : StageGraph n Message) (entry : Fin n → Bool)
    (concurrency : Fin n → SizeT) (hthreads : 0 < T) :
    Drains (ThreadPerStage n) G entry C (fun _ => True) ∧
      Drains ((RoundRobin.chooser n T).policy concurrency) G entry C (fun s => concurrency s ≠ 0) ∧
      Drains ((SRPT.chooser n T).policy concurrency) G entry C fun s => concurrency s ≠ 0 := by
  refine ⟨fun σ₀ as ρ hσ₀ hrun hrunning hfair => ?_,
    drains_of_leavesNothing fun ρ hρ s => walking_leavesNothing hn (.inl rfl) hthreads hρ,
    drains_of_leavesNothing fun ρ hρ s => walking_leavesNothing hn (.inr rfl) hthreads hρ⟩
  have hρ : Scheduled (alone ρ) := scheduled_alone hσ₀ hrun hrunning hfair
  exact iff_of_true (hρ.drained hσ₀ hrun fun d _ => threadPerStage_leavesNothing hρ d.1)
    fun _ _ => trivial

/-- Two threads under `RoundRobin`, for a message that goes through two stages. -/
theorem dispatched_drained_iff_two :
    ∃ ρ : (undisturbed ((RoundRobin.chooser 2 2).policy fun _ => 1) forwarding false
        (fun _ => true) 1).Execution, ρ.Fair Action.actor ∧
      ∀ᶠ i in Filter.atTop, Idle (ρ.state i) ∧
        (ρ.state i).processed = forwarding.deliveries [(0, 7)] := by
  let as : List (Action ((RoundRobin.chooser 2 2).policy fun _ => 1)
    (forwarding.application false fun _ => true) 1) := [.push 0 0 (7 : Nat)]
  let σ₀ : State ((RoundRobin.chooser 2 2).policy fun _ => 1)
    (forwarding.application false fun _ => true) 1 := State.fresh (.fresh (fun _ => 1) ())
  obtain ⟨σ, hrun, hdone, hpc⟩ : ∃ σ, (system _ _ 1).run σ₀ as = some σ ∧ σ.done = false ∧
      ∀ t, (σ.pc t).isExited = false := ⟨_, rfl, rfl, fun _ => rfl⟩
  obtain ⟨ρ, hstart, hfair⟩ := exists_fair (by decide) () ⟨hdone, hpc⟩
  refine ⟨ρ, hfair, ?_⟩
  exact ((dispatched_drained_iff (by decide) forwarding (fun _ => true) (fun _ => 1)
    (by decide)).2.1 σ₀ as ρ (State.fresh_initial ⟨rfl, fun _ => rfl, trivial⟩)
    (hstart ▸ hrun) (hstart ▸ hdone) hfair).mpr fun _ _ => (by decide : (1 : SizeT) ≠ 0)

end SchedulerBase

end Wield
