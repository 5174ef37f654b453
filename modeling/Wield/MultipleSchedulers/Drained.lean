import Wield.MultipleSchedulers
import Wield.SchedulerBase.Liveness

/-!
# Several schedulers leave nothing behind

Each of the schedulers sees the steps of the others as steps of somebody at its stages.  So what a
scheduler by itself leaves nothing at, it leaves nothing at among the others, and the masks only
have to cover the stages together.
-/

namespace Wield.MultipleSchedulers

open Theory Theory.Spawning StageChooser
open SchedulerBase (NotDispatching Observes)

variable {n K C : Nat} {T : Fin K → Nat} {Message : Type} {M : ∀ i, SchedulingPolicy n (T i)}

/-! ## The views of an execution -/

section

variable {A : Application n}

/-- The processing thread that takes the step. -/
def actor (a : Action M A C) : Option (Σ i, Fin (T i)) :=
  a.2.actor.map (Sigma.mk a.1)

/-- A step as scheduler `i` sees it. -/
def seen (i : Fin K) (a : Action M A C) (σ' : State M A C) :
    SchedulerBase.Action (M i) A C ⊕ SchedulerBase.State (M i) A C :=
  if h : a.1 = i then .inl (h ▸ a.2) else .inr (σ'.view i)

theorem seen_self (i : Fin K) (a : SchedulerBase.Action (M i) A C) (σ' : State M A C) :
    seen i ⟨i, a⟩ σ' = .inl a :=
  dif_pos rfl

theorem seen_of_ne {i j : Fin K} (h : i ≠ j) (a : SchedulerBase.Action (M j) A C)
    (σ' : State M A C) : seen i ⟨j, a⟩ σ' = .inr (σ'.view i) :=
  dif_neg h.symm

theorem view_step {σ σ' : State M A C} {a : Action M A C} (hs : step σ a = some σ') (i : Fin K) :
    ((SchedulerBase.system (M i) A C).among Observes).step (σ.view i) (seen i a σ') =
      some (σ'.view i) := by
  obtain ⟨j, a⟩ := a
  obtain ⟨σⱼ, hstep, rfl⟩ := Option.map_eq_some_iff.mp hs
  by_cases hij : i = j
  · subst i
    rw [seen_self, σ.put_view_self]
    exact hstep
  · rw [seen_of_ne hij]
    exact Lts.among_step_inr.mpr ⟨σ.put_observes hij (SchedulerBase.step_inv hstep) _, rfl⟩

theorem reachable_view {σ : State M A C} (h : (system M A C).Reachable σ) (i : Fin K) :
    ((SchedulerBase.system (M i) A C).among Observes).Reachable (σ.view i) := by
  induction h with
  | init h => exact .init (h.view i)
  | step a _ hs ih => exact .step _ ih (view_step hs i)

end

section

variable {G : StageGraph n Message} {entry : Fin n → Bool}

/-- The schedulers once nothing is dispatched from outside any more. -/
abbrev undisturbed (M : ∀ i, SchedulingPolicy n (T i)) (G : StageGraph n Message)
    (entry : Fin n → Bool) (C : Nat) :
    Lts (State M (G.application false entry) C) (Action M (G.application false entry) C) :=
  (system M (G.application false entry) C).restrict fun a => NotDispatching a.2

/-- An execution as scheduler `i` sees it. -/
def viewed (ρ : (undisturbed M G entry C).Execution) (i : Fin K) :
    (SchedulerBase.shared (M i) G entry C).Execution where
  state k := (ρ.state k).view i
  action k := seen i (ρ.action k) (ρ.state (k + 1))
  step k := by
    obtain ⟨ha, hs⟩ := Lts.restrict_step_eq_some.mp (ρ.step k)
    refine Lts.restrict_step_eq_some.mpr ⟨?_, view_step hs i⟩
    generalize ρ.action k = a at ha
    obtain ⟨j, a⟩ := a
    by_cases hij : i = j
    · subst i
      rw [seen_self]
      exact ha
    · rw [seen_of_ne hij]
      rfl

variable {ρ : (undisturbed M G entry C).Execution}

theorem scheduled_viewed {σ₀ : State M (G.application false entry) C} (hσ₀ : Initial σ₀)
    {as : List (Action M (G.application false entry) C)}
    (hrun : (system M (G.application false entry) C).run σ₀ as = some (ρ.state 0))
    (hrunning : ∀ i, ((ρ.state 0).view i).done = false) (hfair : ρ.Fair actor) (i : Fin K) :
    SchedulerBase.Scheduled (viewed ρ i) where
  reachable := reachable_view ((Lts.Reachable.init hσ₀).run hrun) i
  running := hrunning i
  fair t := by
    refine (hfair ⟨i, t⟩).mono fun k hk => ?_
    show SchedulerBase.actor (seen i (ρ.action k) (ρ.state (k + 1))) = some t
    generalize ρ.action k = a at hk
    obtain ⟨j, a⟩ := a
    obtain ⟨u, hu, heq⟩ := Option.map_eq_some_iff.mp hk
    cases heq
    rw [seen_self]
    exact hu

theorem execution_step (ρ : (undisturbed M G entry C).Execution) (k : Nat) :
    step (ρ.state k) (ρ.action k) = some (ρ.state (k + 1)) :=
  (Lts.restrict_step_eq_some.mp (ρ.step k)).2

/-- Nothing is added to what has been or will be processed. -/
theorem execution_all (ρ : (undisturbed M G entry C).Execution) (k : Nat) :
    (ρ.state k).pool.all G.spawning = (ρ.state 0).pool.all G.spawning := by
  refine ρ.always (I := fun σ => σ.pool.all G.spawning = (ρ.state 0).pool.all G.spawning)
    (fun σ a σ' hall hs => ?_) rfl k
  obtain ⟨ha, hs⟩ := Lts.restrict_step_eq_some.mp hs
  have hbalance := step_all hs
  have hpush : a.2.clientPush = none := by
    obtain ⟨i, a⟩ := a
    cases a with
    | push c target m => cases ha
    | thread t e v | throw t | dispatched c | stop => rfl
  rw [dropped_of_not_mayThrow hs, hpush] at hbalance
  exact (add_right_cancel hbalance).trans hall

/-- A step of any scheduler pops nothing or one message. -/
theorem step_popped {σ σ' : State M (G.application false entry) C}
    {a : Action M (G.application false entry) C} (h : step σ a = some σ') :
    σ'.popped = σ.popped ∨ σ'.pool.done.card = σ.pool.done.card + 1 := by
  obtain ⟨i, a⟩ := a
  obtain ⟨σᵢ, hs, rfl⟩ := step_inv h
  exact hs.popped

theorem exists_settled (ρ : (undisturbed M G entry C).Execution) :
    ∃ N, ∀ i, SchedulerBase.Settled (viewed ρ i) N := by
  have hmono : ∀ k, (ρ.state k).pool.done.card ≤ (ρ.state (k + 1)).pool.done.card := by
    intro k
    rcases step_popped (execution_step ρ k) with hsame | hmore
    · exact le_of_eq (congrArg (fun popped => (queued popped).card) hsame.symm)
    · omega
  have hbound : ∀ k, (ρ.state k).pool.done.card ≤ ((ρ.state 0).pool.all G.spawning).card := by
    intro k
    rw [← execution_all ρ k]
    exact Multiset.card_le_card (Multiset.le_add_right _ _)
  obtain ⟨N, hN⟩ := Lts.Execution.exists_settled hmono hbound
  refine ⟨N, fun i k hk => ?_⟩
  have hcard := hN k hk
  exact (step_popped (execution_step ρ k)).resolve_right (by omega)

theorem execution_deliveries {σ₀ : State M (G.application false entry) C} (hσ₀ : Initial σ₀)
    {as : List (Action M (G.application false entry) C)}
    (hrun : (system M (G.application false entry) C).run σ₀ as = some (ρ.state 0)) (k : Nat) :
    (ρ.state k).pool.all G.spawning = G.deliveries (clientDispatches as) := by
  have hall := all_add_lost hσ₀ hrun
  rw [lost_of_not_mayThrow rfl, add_zero] at hall
  rw [execution_all ρ k, hall]

/-- From some moment on nothing is left to do, and the deliveries that follow from the clients'
    dispatches have been processed. -/
def Drained (as : List (Action M (G.application false entry) C))
    (ρ : (undisturbed M G entry C).Execution) : Prop :=
  ∀ᶠ k in Filter.atTop, Idle (ρ.state k) ∧
    queued (ρ.state k).popped = G.deliveries (clientDispatches as)

/-- It is enough that each stage to which messages are delivered has a scheduler that leaves nothing
    there. -/
theorem drained_of_leavesNothing {σ₀ : State M (G.application false entry) C} (hσ₀ : Initial σ₀)
    {as : List (Action M (G.application false entry) C)}
    (hrun : (system M (G.application false entry) C).run σ₀ as = some (ρ.state 0))
    (hρ : ∀ i, SchedulerBase.Scheduled (viewed ρ i))
    (hnothing : ∀ d ∈ G.deliveries (clientDispatches as),
      ∃ i, SchedulerBase.LeavesNothing (viewed ρ i) d.1) : Drained as ρ := by
  obtain ⟨N, hN⟩ := exists_settled ρ
  have hqueue : ∀ k, N ≤ k → ∀ s, (ρ.state k).queue s = [] := by
    intro k hk s
    by_contra hq
    obtain ⟨m, hm⟩ := List.exists_mem_of_ne_nil _ hq
    have hdelivery : (s, m) ∈ G.deliveries (clientDispatches as) := by
      rw [← execution_deliveries hσ₀ hrun k]
      exact Pool.mem_all_of_pending _ (Multiset.mem_add.mpr (.inl (mem_queued.mpr hm)))
    obtain ⟨i, hi⟩ := hnothing (s, m) hdelivery
    exact hq (hi k fun j hj => hN i j (hk.trans hj))
  refine Filter.eventually_atTop.mpr ⟨N, fun k hk => ?_⟩
  have hidle : Idle (ρ.state k) := ⟨hqueue k hk, fun i t => (hN i).todo (hρ i) hqueue hk t⟩
  have hpool : (ρ.state k).pool.all G.spawning = (ρ.state k).pool.done :=
    Pool.all_of_finished _ (hidle.together false).pending
  refine ⟨hidle, ?_⟩
  rw [← execution_deliveries hσ₀ hrun k, hpool]
  rfl

/-- Before any `stop()` the threads can be scheduled one after the other for ever. -/
theorem exists_fair (hthreads : 0 < ∑ i, T i) (e : ∀ i, (M i).Entropy)
    {σ : State M (G.application false entry) C} (hσ : ∀ i, SchedulerBase.Running (σ.view i)) :
    ∃ ρ : (undisturbed M G entry C).Execution, ρ.state 0 = σ ∧ ρ.Fair actor := by
  let u (k : Nat) : Σ i, Fin (T i) := finSigmaFinEquiv.symm ⟨k % ∑ i, T i, Nat.mod_lt k hthreads⟩
  let turn (k : Nat) : Action M (G.application false entry) C := ⟨(u k).1, .thread (u k).2 (e _) ()⟩
  have hkeep : ∀ σ a σ', (∀ i, SchedulerBase.Running (σ.view i)) →
      (undisturbed M G entry C).step σ a = some σ' → ∀ i, SchedulerBase.Running (σ'.view i) := by
    intro σ a σ' h hs i
    obtain ⟨ha, hs⟩ := Lts.restrict_step_eq_some.mp hs
    obtain ⟨j, a⟩ := a
    obtain ⟨σⱼ, hstep, rfl⟩ := step_inv hs
    by_cases hij : i = j
    · subst i
      rw [σ.put_view_self]
      exact (h j).step ha hstep
    · have hobserves := σ.put_observes hij hstep (booked (σ.view j) a)
      refine ⟨hobserves.done.trans (h i).1, ?_⟩
      rw [hobserves.pc]
      exact (h i).2
  have henabled : ∀ k σ, (∀ i, SchedulerBase.Running (σ.view i)) →
      ((undisturbed M G entry C).step σ (turn k)).isSome = true := by
    intro k σ h
    show (Option.map _ (SchedulerBase.threadStep (σ.view (u k).1) (u k).2 (e _) ())).isSome = true
    rw [Option.isSome_map, Option.isSome_iff_ne_none]
    intro hnone
    have hexited := (h (u k).1).2 (u k).2
    rw [SchedulerBase.threadStep_eq_none hnone] at hexited
    cases hexited
  obtain ⟨ρ, hstart, hact⟩ := Lts.Execution.exists_of_enabled hkeep turn henabled hσ
  refine ⟨ρ, hstart, fun p => Filter.frequently_atTop.mpr fun k => ?_⟩
  obtain ⟨j, hj, hturn⟩ := Lts.Execution.exists_mod_eq (finSigmaFinEquiv p) k
  have hu : u j = p := by
    rw [← Equiv.symm_apply_apply finSigmaFinEquiv p]
    exact congrArg finSigmaFinEquiv.symm (Fin.ext hturn)
  refine ⟨j, hj, ?_⟩
  rw [hact]
  exact congrArg some hu

end

/-! ## Masks that cover the stages -/

section

variable {concurrency : Fin K → Fin n → SizeT}

/-- What has been popped, a scheduler has popped whose mask has the stage. -/
theorem popped_covered_invariant (A : Application n) (P : ∀ i, StageChooser n (T i)) :
    (system (fun i => (P i).policy (concurrency i)) A C).Invariant fun σ =>
      (∀ i, SchedulerBase.SlotInv (σ.view i)) ∧
        ∀ s, σ.popped s ≠ [] → ∃ i, concurrency i s ≠ 0 where
  init σ h := ⟨(slotInv_invariant A P).init σ h, fun s hs => absurd (h.popped s) hs⟩
  step σ a σ' h hs := by
    refine ⟨(slotInv_invariant A P).step σ a σ' h.1 hs, fun s hpopped => ?_⟩
    obtain ⟨i, a⟩ := a
    obtain ⟨σᵢ, hstep, rfl⟩ := step_inv (M := fun i => (P i).policy (concurrency i)) hs
    cases hstep with
    | pop t e v u m rest hpc hq =>
      by_cases hsu : s = u
      · subst s
        refine ⟨i, fun hzero => (h.1 i).not_visits hzero t ?_⟩
        rw [hpc]
        rfl
      · refine h.2 s fun hempty => hpopped ?_
        show Function.update (σ.view i).popped u _ s = []
        rw [Function.update_of_ne hsu]
        exact hempty
    | _ => exact h.2 s hpopped

/-- Any number of schedulers under `RoundRobin` and `SRPT`, with threads of their own that are
    scheduled fairly, process everything that is dispatched, exactly if each stage to which
    something is delivered is in the mask of one of them.  The masks may overlap. -/
theorem schedulers_drained_iff (hn : n < 2 ^ 64) (G : StageGraph n Message) (entry : Fin n → Bool)
    (p : Fin K → AssignmentPolicy) (hp : ∀ i, p i = .roundRobin ∨ p i = .srpt)
    (concurrency : Fin K → Fin n → SizeT) (hthreads : ∀ i, 0 < T i)
    {σ₀ : State (fun i => ((p i).chooser n (T i)).policy (concurrency i))
      (G.application false entry) C} (hσ₀ : Initial σ₀) (as)
    (ρ : (undisturbed (fun i => ((p i).chooser n (T i)).policy (concurrency i)) G entry
      C).Execution) (hrun : (system _ _ C).run σ₀ as = some (ρ.state 0))
    (hrunning : ∀ i, ((ρ.state 0).view i).done = false) (hfair : ρ.Fair actor) :
    Drained as ρ ↔ ∀ d ∈ G.deliveries (clientDispatches as), ∃ i, concurrency i d.1 ≠ 0 := by
  have hρ := scheduled_viewed hσ₀ hrun hrunning hfair
  constructor
  · intro hdrained d hd
    obtain ⟨k, _, hprocessed⟩ := hdrained.exists
    rw [← hprocessed] at hd
    have hreachable : ∀ k, (system _ _ C).Reachable (ρ.state k) := fun k =>
      ρ.always (fun σ a σ' h hs => .step a h (Lts.restrict_step_eq_some.mp hs).2)
        ((Lts.Reachable.init hσ₀).run hrun) k
    refine ((popped_covered_invariant _ fun i => (p i).chooser n (T i)).holds (hreachable k)).2 d.1
      (List.ne_nil_of_mem (mem_queued.mp hd))
  · intro hcovered
    refine drained_of_leavesNothing hσ₀ hrun hρ fun d hd => ?_
    obtain ⟨i, hopen⟩ := hcovered d hd
    exact ⟨i, SchedulerBase.walking_leavesNothing hn (hp i) (hthreads i) (hρ i) hopen⟩

/-- The masks of the first and the second scheduler of a pipeline of two stages. -/
def halves (i s : Fin 2) : SizeT :=
  if i.val = s.val then 1 else 0

theorem schedulers_drained_iff_two :
    ∃ ρ : (undisturbed (T := fun _ => 1)
        (fun i : Fin 2 => (AssignmentPolicy.roundRobin.chooser 2 1).policy (halves i))
        forwarding (fun _ => true) 1).Execution,
      ρ.Fair actor ∧ Drained [⟨0, .push 0 0 (7 : Nat)⟩, ⟨0, .dispatched 0⟩] ρ := by
  let as : List (Action (T := fun _ => 1)
      (fun i : Fin 2 => (AssignmentPolicy.roundRobin.chooser 2 1).policy (halves i))
      (forwarding.application false fun _ => true) 1) :=
    [⟨0, .push 0 0 (7 : Nat)⟩, ⟨0, .dispatched 0⟩]
  let σ₀ : State (T := fun _ => 1)
      (fun i : Fin 2 => (AssignmentPolicy.roundRobin.chooser 2 1).policy (halves i))
      (forwarding.application false fun _ => true) 1 :=
    State.fresh fun i => .fresh (halves i) ()
  have hσ₀ : Initial σ₀ := State.fresh_initial fun i => ⟨rfl, fun _ => rfl, trivial⟩
  obtain ⟨σ, hrun, hdone, hpc⟩ : ∃ σ, (system _ _ 1).run σ₀ as = some σ ∧
      (∀ i, (σ.view i).done = false) ∧ ∀ i t, ((σ.view i).pc t).isExited = false :=
    ⟨_, rfl, by decide, by decide⟩
  obtain ⟨ρ, hstart, hfair⟩ := exists_fair (by decide) (fun _ => ()) fun i => ⟨hdone i, hpc i⟩
  subst hstart
  have hcovered : ∀ s, ∃ i, halves i s ≠ 0 := by decide
  exact ⟨ρ, hfair, (schedulers_drained_iff (by decide) forwarding (fun _ => true)
    (fun _ => .roundRobin) (fun _ => .inl rfl) halves (fun _ => Nat.one_pos) hσ₀ as ρ hrun hdone
    hfair).mpr fun d _ => hcovered d.1⟩

end

end Wield.MultipleSchedulers
