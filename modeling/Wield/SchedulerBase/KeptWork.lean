import Wield.SchedulerBase.Liveness
import Wield.SchedulerBase.LostWork

/-!
# Work that is kept gets processed

`Color` and `ColorMinus` do not walk over the stages; a thread goes where a name in the work queue
or a depth estimate sends it.  As long as every stage with messages is advertised or in somebody's
hands, that is enough: once the threads have nothing in their hands any more, a stage with a message
is advertised for ever, and what is ahead of it gets less with each choice.
-/

namespace Wield.SchedulerBase

open Theory StageChooser

variable {n T C : Nat} {Message : Type} {P : StageChooser n T} {concurrency : Fin n → SizeT}

section

variable {A : Application n} {σ σ' : State (P.policy concurrency) A C}
  {a : Action (P.policy concurrency) A C} {t : Fin T} {s : Fin n}

/-- The thread runs a functor. -/
def Pc.InFunctor : Pc (P.policy concurrency) A → Prop
  | .running _ _ _ | .pushed _ _ _ _ => True
  | .loop | .nextStage _ | .poll _ | .batchEnd _ _ | .exited => False

/-- Without a pop no functor begins. -/
theorem Step.not_inFunctor {e : P.Entropy} {v : A.Env} (hs : Step σ (.thread t e v) σ')
    (hpopped : σ'.popped = σ.popped) (h : ¬ (σ.pc t).InFunctor) : ¬ (σ'.pc t).InFunctor := by
  cases hs with
  | pop _ _ _ s m rest hpc hq => exact absurd hpopped (popped_ne s m rest)
  | push _ _ _ s m target m' todo hpc | account _ _ _ s m target todo hpc =>
    rw [hpc] at h
    exact absurd trivial h
  | leave _ _ _ hpc hd | enter _ _ _ hpc hd | call _ _ _ p policy p' hpc hr
  | visit _ _ _ p policy s hpc hr | empty _ _ _ s hpc hq | returns _ _ _ s m hpc
  | batchEnd _ _ _ s info hpc =>
    rw [State.setPc_pc, Function.update_self]
    exact id

/-- The thread expects visitors at `stage`, and is going to be refused when there are none. -/
def Pc.Stale (stage : Fin n) : Pc (P.policy concurrency) A → Prop
  | .nextStage (.exchange next seen _) => next = stage ∧ seen ≠ 0
  | _ => False

/-- A thread that loads the counter of an empty stage expects no visitors. -/
theorem Step.not_stale (hs : Step σ a σ') (hempty : σ'.policy.ta.threadsPerStage s = 0)
    (h : ¬ (σ.pc t).Stale s) : ¬ (σ'.pc t).Stale s := by
  by_cases ha : a.actor = some t
  · cases hs with
    | clientPush c target m hc he | clientDone c target hc | stop => cases ha
    | call _ _ _ p policy p' hpc hr =>
      cases ha
      rw [State.setPc_pc, Function.update_self]
      cases p' with
      | exchange next seen c =>
        rintro ⟨rfl, hseen⟩
        obtain ⟨rfl, hload⟩ := Call.step_eq_exchange hr
        exact hseen (hload.symm.trans hempty)
      | _ => exact id
    | _ =>
      cases ha
      rw [State.setPc_pc, Function.update_self]
      exact id
  · rw [hs.pc_of_ne ha]
    exact h

/-- The stage that the thread has chosen and not settled. -/
def Pc.chosen : Pc (P.policy concurrency) A → StageEnum n
  | .nextStage p => Call.chosen p
  | .loop | .poll _ | .running _ _ _ | .pushed _ _ _ _ | .batchEnd _ _ | .exited => none

/-- The thread has chosen no stage, and is not in a batch. -/
def Pc.EmptyHanded : Pc (P.policy concurrency) A → Prop
  | .nextStage p => Call.chosen p = none
  | .loop | .batchEnd _ _ | .exited => True
  | .poll _ | .running _ _ _ | .pushed _ _ _ _ => False

/-- A policy whose choices come nearer to an advertised stage: `cost` says how much is ahead of
    it, where a chosen stage that is not yet settled counts for less.  A choice pays for the twelve
    steps up to the next one. -/
structure Approaches (advertised : P.State → Fin n → Prop) (s : Fin n) where
  cost : P.State → StageEnum n → Nat
  choose : ∀ own t c e, advertised own s → (P.choose own t c e).1 ≠ some s →
    cost (P.choose own t c e).2.2 (P.choose own t c e).1 + 12 ≤ cost own none
  choose_other : ∀ own t c e chosen, advertised own s → (P.choose own t c e).1 ≠ some s →
    cost (P.choose own t c e).2.2 chosen ≤ cost own chosen
  settle : ∀ own next, cost (P.settle own next) none ≤ cost own next
  settle_other : ∀ own next chosen, cost (P.settle own next) chosen ≤ cost own chosen
  batchEnd : ∀ own hadMessage chosen, cost (P.batchEnd own hadMessage) chosen = cost own chosen

variable {advertised : P.State → Fin n → Prop} (S : Approaches advertised s)

/-- A choice other than of `s`. -/
def Avoids (s : Fin n) (σ : State (P.policy concurrency) A C) :
    Action (P.policy concurrency) A C → Prop
  | .thread t e _ => ∀ c, σ.pc t = .nextStage (.choose c) →
    (P.choose σ.policy.own t c e).1 ≠ some s
  | _ => True

/-- While nobody dispatches and nobody chooses `s`, no step adds to what is ahead of it. -/
theorem Step.cost_other (hs : Step σ a σ') (hadv : advertised σ.policy.own s)
    (hpending : ∀ target, ¬ DispatchPending σ target) (havoids : Avoids s σ a)
    (chosen : StageEnum n) : S.cost σ'.policy.own chosen ≤ S.cost σ.policy.own chosen := by
  have inside : ∀ {t e v p policy r}, a = .thread t e v → σ.pc t = .nextStage p →
      Call.step σ.policy t e p = (policy, r) →
      S.cost policy.own chosen ≤ S.cost σ.policy.own chosen := by
    intro t e v p policy r ha hpc hr
    subst ha
    rcases Call.own_cases hr with hown | ⟨c, rfl, hown⟩ | ⟨next, hown⟩
    · rw [hown]
    · rw [hown]
      exact S.choose_other _ t c e chosen hadv (havoids c hpc)
    · rw [hown]
      exact S.settle_other _ next chosen
  cases hs with
  | call t e v p policy p' hpc hr => exact inside rfl hpc hr
  | visit t e v p policy s' hpc hr => exact inside rfl hpc hr
  | batchEnd t e v s' info hpc => exact (S.batchEnd _ _ _).le
  | account t e v s' m target todo hpc =>
    refine absurd (.inr ⟨t, ?_⟩) (hpending target)
    rw [hpc]
    rfl
  | clientDone c target hc => exact absurd (.inl ⟨c, hc⟩) (hpending target)
  | _ => exact le_rfl

/-- A step of a thread itself that is not the choice of a stage. -/
theorem Step.cost_le {e : P.Entropy} {v : A.Env} (hs : Step σ (.thread t e v) σ')
    (hpending : ∀ target, ¬ DispatchPending σ target)
    (hp : ∀ c, σ.pc t ≠ .nextStage (.choose c)) :
    S.cost σ'.policy.own (σ'.pc t).chosen ≤ S.cost σ.policy.own (σ.pc t).chosen := by
  cases hs with
  | call _ _ _ p policy p' hpc hr =>
    rw [State.setPc_pc, Function.update_self, hpc]
    show S.cost policy.own (Call.chosen p') ≤ S.cost σ.policy.own (Call.chosen p)
    rcases Call.chosen_cases (fun c heq => hp c (heq ▸ hpc)) hr with ⟨hown, hchosen⟩ |
      ⟨hown, hchosen⟩
    · rw [hown, hchosen]
    · rw [hown, hchosen]
      exact S.settle _ _
  | visit _ _ _ p policy u hpc hr =>
    obtain ⟨rfl, rfl⟩ := Call.step_eq_inr hr
    rw [State.setPc_pc, Function.update_self, hpc]
    exact S.settle _ _
  | batchEnd _ _ _ u info hpc =>
    rw [State.setPc_pc, Function.update_self, hpc]
    exact (S.batchEnd _ _ _).le
  | account _ _ _ u m target todo hpc =>
    refine absurd (.inr ⟨t, ?_⟩) (hpending target)
    rw [hpc]
    rfl
  | leave _ _ _ hpc hd | enter _ _ _ hpc hd | pop _ _ _ u m rest hpc hq | empty _ _ _ u hpc hq
  | push _ _ _ u m target m' todo hpc | returns _ _ _ u m hpc =>
    rw [State.setPc_pc, Function.update_self, hpc]
    exact le_rfl

/-- A step of a thread itself brings it nearer. -/
theorem Step.cost_own {e : P.Entropy} {v : A.Env} (hs : Step σ (.thread t e v) σ')
    (hdone : σ.done = false) (hpopped : σ'.popped = σ.popped) (hadv : advertised σ.policy.own s)
    (hpending : ∀ target, ¬ DispatchPending σ target) (havoids : Avoids s σ (.thread t e v)) :
    S.cost σ'.policy.own (σ'.pc t).chosen + (σ'.pc t).untilChoice <
      S.cost σ.policy.own (σ.pc t).chosen + (σ.pc t).untilChoice := by
  by_cases hp : ∃ c, σ.pc t = .nextStage (.choose c)
  · obtain ⟨c, hpc⟩ := hp
    obtain ⟨hown, hpc'⟩ := hs.choice hpc
    have hpaid := S.choose _ t c e hadv (havoids c hpc)
    rw [hown, hpc', hpc]
    show S.cost (P.choose σ.policy.own t c e).2.2 (P.choose σ.policy.own t c e).1 + 11 <
      S.cost σ.policy.own none + 0
    omega
  · rw [not_exists] at hp
    exact Nat.add_lt_add_of_le_of_lt (hs.cost_le S hpending hp) (hs.untilChoice_lt hdone hpopped hp)

/-- A thread on its way to `s` enters it, is refused or has entered. -/
theorem Pc.Picked.cases {pc : Pc (P.policy concurrency) A} (h : pc.Picked s) :
    pc.Entering s ∨ pc.Stale s ∨ pc.Arriving s := by
  cases pc with
  | nextStage p =>
    cases p with
    | load next c => exact .inl h
    | exchange next seen c =>
      by_cases hseen : seen = 0
      · exact .inl ⟨h, hseen⟩
      · exact .inr (.inl ⟨h, hseen⟩)
    | record next | assigned next => exact .inr (.inr h)
    | _ => exact h.elim
  | _ => exact h.elim

theorem Pc.Polling.cases {pc : Pc (P.policy concurrency) A} (h : pc.Polling s) :
    pc.Arriving s ∨ pc.InFunctor := by
  cases pc with
  | poll s' => exact .inl h
  | running s' m todo | pushed s' m target todo => exact .inr trivial
  | _ => exact h.elim

theorem Pc.Dispatching.inFunctor {pc : Pc (P.policy concurrency) A} (h : pc.Dispatching s) :
    pc.InFunctor := by
  cases pc with
  | pushed s' m target todo => trivial
  | _ => exact h.elim

end

section

variable {G : StageGraph n Message} {entry : Fin n → Bool}
  {ρ : (undisturbed (P.policy concurrency) G false entry C).Execution} {N : Nat} {s : Fin n}

/-- Nobody is for ever at a place that is left on the way to a choice and not come back to. -/
theorem Settled.eventually_not (h : Settled (alone ρ) N) (hρ : Scheduled (alone ρ))
    {X : Pc (P.policy concurrency) (G.application false entry) → Prop}
    (hchoose : ∀ c, ¬ X (.nextStage (.choose c)))
    (hstays : ∀ i t e v, N ≤ i → Step (ρ.state i) (.thread t e v) (ρ.state (i + 1)) →
      ¬ X ((ρ.state i).pc t) → ¬ X ((ρ.state (i + 1)).pc t)) :
    ∀ᶠ i in Filter.atTop, ∀ t, ¬ X ((ρ.state i).pc t) := by
  rw [Filter.eventually_all]
  intro t
  refine hρ.eventually_not t (N := N) (fun i => ((ρ.state i).pc t).untilChoice)
    (fun i hi hx => ?_) (fun i hi _ ht => ?_) (fun i e v hi hx hs => ?_)
  · by_cases ht : (ρ.action i).actor = some t
    · obtain ⟨e, v, _, hs⟩ := shared_thread (ρ := alone ρ) ht
      exact hstays i t e v hi hs hx
    · rw [(execution_step ρ i).pc_of_ne ht]
      exact hx
  · rw [shared_pc_of_ne ht]
  · refine hs.untilChoice_lt (hρ.not_done i) (h i hi) fun c hc => hchoose c ?_
    rw [← hc]
    exact hx

/-- A client that is in no dispatch begins none. -/
theorem execution_client (hclient : ∀ c, (ρ.state 0).client c = none) (i : Nat) (c : Fin C) :
    (ρ.state i).client c = none := by
  refine ρ.always (I := fun σ => ∀ c, σ.client c = none) (fun σ a σ' h hs => ?_) hclient i c
  obtain ⟨ha, hs⟩ := Lts.restrict_step_eq_some.mp hs
  cases step_inv hs with
  | clientPush c target m hc he => cases ha
  | clientDone c target hc => cases (h c).symm.trans hc
  | _ => exact h

variable {advertised : P.State → Fin n → Prop}

/-- Where work is kept, the stages that are advertised are tried, and those that wait are
    advertised. -/
theorem leavesNothing_of_kept (hρ : Scheduled (alone ρ)) (hthreads : 0 < T)
    (hopen : concurrency s ≠ 0) (hclient : ∀ c, (ρ.state 0).client c = none)
    (S : Approaches advertised s)
    (hkept : ∀ᶠ i in Filter.atTop, NoWorkLost advertised (ρ.state i)) :
    LeavesNothing (alone ρ) s := by
  intro N hN
  by_contra hq
  -- from some moment on nobody has the stage in its hands
  have hleft := hN.eventually_left hρ hq
  obtain ⟨L, hL⟩ := Filter.eventually_atTop.mp hleft
  have hlate : Settled (alone ρ) (max N L) := fun i hi => hN i ((Nat.le_max_left N L).trans hi)
  have hempty : ∀ i, max N L ≤ i → (ρ.state i).policy.ta.threadsPerStage s = 0 := fun i hi =>
    ((hρ.slotInv i).empty_of_left hopen
      (hL i ((Nat.le_max_right N L).trans hi))).1
  have hfunctor := hlate.eventually_not hρ (X := Pc.InFunctor) (fun c => id)
    fun i t e v hi hs hnot => hs.not_inFunctor (hlate i hi) hnot
  have hstale := hlate.eventually_not hρ (X := Pc.Stale s) (fun c => id)
    fun i t e v hi hs => hs.not_stale (hempty (i + 1) (hi.trans (Nat.le_succ i)))
  obtain ⟨K, hK⟩ := Filter.eventually_atTop.mp (hfunctor.and (hstale.and hkept))
  have hbound : ∀ {i}, max (max N L) K ≤ i → N ≤ i ∧ L ≤ i ∧ K ≤ i := by
    intro i hi
    omega
  have hentering : ∀ i, max (max N L) K ≤ i → ∀ t, ¬ ((ρ.state i).pc t).Entering s := by
    intro i hi t
    refine hlate.not_entering hρ hopen (fun i hi => hL i ((Nat.le_max_right N L).trans hi)) ?_ t
    exact (Nat.le_max_left _ K).trans hi
  have hpending : ∀ i, max (max N L) K ≤ i → ∀ target, ¬ DispatchPending (ρ.state i) target := by
    rintro i hi target (⟨c, hc⟩ | ⟨t, ht⟩)
    · cases (execution_client hclient i c).symm.trans hc
    · exact (hK i (hbound hi).2.2).1 t ht.inFunctor
  -- so it stays advertised
  have hadv : ∀ i, max (max N L) K ≤ i → advertised (ρ.state i).policy.own s := by
    intro i hi
    obtain ⟨hiN, hiL, hiK⟩ := hbound hi
    have harriving := hN.not_arriving hρ hq hiN
    rcases (hK i hiK).2.2 s hopen (hN.waits hq hiN) (hpending i hi s) with hadv | ⟨t, hpicked⟩ |
      ⟨t, hpolling⟩
    · exact hadv
    · rcases hpicked.cases with hnow | hrefused | hentered
      · exact absurd hnow (hentering i hi t)
      · exact absurd hrefused ((hK i hiK).2.1 t)
      · exact absurd hentered (harriving t)
    · rcases hpolling.cases with hentered | hin
      · exact absurd hentered (harriving t)
      · exact absurd hin ((hK i hiK).1 t)
  have havoids : ∀ i, max (max N L) K ≤ i → Avoids s (ρ.state i) (ρ.action i) := by
    intro i hi
    cases hact : ρ.action i with
    | thread t e v =>
      intro c hpc hchoice
      refine hlate.not_chooses hρ hopen (fun i hi => hL i ((Nat.le_max_right N L).trans hi))
        ((Nat.le_max_left _ K).trans hi) t ⟨e, v, c, congrArg _ hact, hpc, hchoice⟩
    | _ => trivial
  -- and the first thread comes to it
  refine hρ.never ⟨0, hthreads⟩ (P := fun i => max (max N L) K ≤ i)
    (fun i => S.cost (ρ.state i).policy.own ((ρ.state i).pc ⟨0, hthreads⟩).chosen +
      ((ρ.state i).pc ⟨0, hthreads⟩).untilChoice)
    (fun i hi ht => ⟨hi.trans (Nat.le_succ i), ?_⟩)
    (fun i e v hi hact hs => ⟨hi.trans (Nat.le_succ i), ?_⟩) _ le_rfl
  · rw [shared_pc_of_ne ht]
    exact Nat.add_le_add_right
      ((execution_step ρ i).cost_other S (hadv i hi) (hpending i hi) (havoids i hi) _) _
  · refine hs.cost_own S (hρ.not_done i) (hN i (hbound hi).1) (hadv i hi) (hpending i hi) ?_
    rw [← Sum.inl.inj hact]
    exact havoids i hi

/-- What a policy that comes to the advertised stages owes to them is to keep the work. -/
theorem drained_iff_kept (hthreads : 0 < T) (S : ∀ s, Approaches advertised s)
    {σ₀ : State (P.policy concurrency) (G.application false entry) C} (hσ₀ : Initial σ₀) (as)
    (ρ : (undisturbed (P.policy concurrency) G false entry C).Execution)
    (hrun : (system _ _ C).run σ₀ as = some (ρ.state 0)) (hrunning : (ρ.state 0).done = false)
    (hclient : ∀ c, (ρ.state 0).client c = none) (hfair : ρ.Fair Action.actor) :
    Drained as ρ ↔ (∀ d ∈ G.deliveries (clientDispatches as), concurrency d.1 ≠ 0) ∧
      ∀ᶠ i in Filter.atTop, NoWorkLost advertised (ρ.state i) := by
  have hρ : Scheduled (alone ρ) := scheduled_alone hσ₀ hrun hrunning hfair
  constructor
  · intro hdrained
    exact ⟨hdrained.opened hσ₀ hrun, hdrained.mono fun i hi s _ hq => absurd (hi.1.1 s) hq⟩
  · rintro ⟨hopen, hkept⟩
    exact (hρ.drained_iff hσ₀ hrun fun s hs =>
      leavesNothing_of_kept hρ hthreads hs hclient (S s) hkept).mpr hopen

end

/-! ## A single thread -/

section

variable {P : StageChooser n 1} {A : Application n} {σ : State (P.policy concurrency) A C}
  {t : Fin 1} {s : Fin n}

/-- A thread that is alone and holds nothing finds the stages empty. -/
theorem SlotInv.empty_of_alone (h : SlotInv σ) (hholding : σ.policy.holding t = none) :
    σ.policy.ta.threadsPerStage s = 0 := by
  apply BitVec.eq_of_toNat_eq
  rw [h.slots.count s, tally_eq_zero fun u hu => ?_]
  · rfl
  · rw [Subsingleton.elim u t, hholding] at hu
    cases hu

/-- So nothing has changed between its load and its exchange. -/
theorem alone_invariant (A : Application n) :
    (system (P.policy concurrency) A C).Invariant fun σ =>
      SlotInv σ ∧ ∀ t s, ¬ (σ.pc t).Stale s where
  init σ h := by
    refine ⟨slotInv_invariant.init σ h, fun t s => ?_⟩
    rw [h.pc t]
    exact id
  step σ a σ' h hs := by
    have hslots := slotInv_invariant.step σ a σ' h.1 hs
    refine ⟨hslots, fun t s hstale => ?_⟩
    have hholding : σ'.policy.holding t = none := by
      cases hpc : σ'.pc t with
      | nextStage p =>
        cases p with
        | exchange next seen c => exact (hslots.consistent_at hpc).2.1
        | _ =>
          rw [hpc] at hstale
          exact hstale.elim
      | _ =>
        rw [hpc] at hstale
        exact hstale.elim
    exact (step_inv hs).not_stale (hslots.empty_of_alone hholding) (h.2 t s) hstale

/-- It is not refused where it may enter at all. -/
theorem SlotInv.not_refuses (h : SlotInv σ) (hstale : ¬ (σ.pc t).Stale s)
    (hopen : concurrency s ≠ 0) : ¬ Refuses σ t s := by
  intro hrefuses
  unfold Refuses at hrefuses
  split at hrefuses
  · rename_i next c hpc
    have hholding : σ.policy.holding t = none := (h.consistent_at hpc).2
    refine hrefuses.2 (h.empty_of_left hopen fun u hu => ?_).2
    rw [Subsingleton.elim u t, hholding] at hu
    cases hu
  · rename_i next seen c hpc
    have hholding : σ.policy.holding t = none := (h.consistent_at hpc).2.1
    rw [hpc] at hstale
    refine hstale ⟨hrefuses.1, fun hseen => hrefuses.2 ?_⟩
    rw [h.empty_of_alone hholding, hseen]
  · exact hrefuses

end

/-! ## `Color` and `ColorMinus` -/

namespace Color

/-- Every choice takes a name off the work queue. -/
def approaches (s : Fin n) : Approaches (P := Color.chooser n T) Advertised s where
  cost workQueue _ := 12 * workQueue.idxOf s
  choose workQueue t c e hadv hne := by
    cases workQueue with
    | nil => cases hadv
    | cons name workQueue =>
      have hname : name ≠ s := fun heq => hne (congrArg some heq)
      show 12 * workQueue.idxOf s + 12 ≤ 12 * (name :: workQueue).idxOf s
      rw [List.idxOf_cons_ne workQueue hname]
      omega
  choose_other workQueue t c e chosen hadv hne := by
    cases workQueue with
    | nil => cases hadv
    | cons name workQueue =>
      have hname : name ≠ s := fun heq => hne (congrArg some heq)
      show 12 * workQueue.idxOf s ≤ 12 * (name :: workQueue).idxOf s
      rw [List.idxOf_cons_ne workQueue hname]
      omega
  settle _ _ := le_rfl
  settle_other _ _ _ := le_rfl
  batchEnd _ _ _ := rfl

/-- A single thread finds every stage that may be entered empty, so it drops no name. -/
theorem alone_keeps (A : Application n) (hA : A.mayThrow = false) :
    (system ((Color.chooser n 1).policy concurrency) A C).Invariant fun σ =>
      (SlotInv σ ∧ ∀ t s, ¬ (σ.pc t).Stale s) ∧ WorkKept σ where
  init σ h := ⟨(alone_invariant A).init σ h, .initial h⟩
  step σ a σ' h hs := by
    obtain ⟨halone, hkept⟩ := h
    refine ⟨(alone_invariant A).step σ a σ' halone hs, ?_⟩
    have hs := step_inv hs
    refine (noWorkLost_step advertises hkept hs).mpr fun hloses => ?_
    have hdrops := (losesWork_iff hkept a).mp hloses
    cases a with
    | thread t e v =>
      obtain ⟨s, hrefuses, hstrands⟩ := hdrops
      exact halone.1.not_refuses (halone.2 t s) hstrands.limit hrefuses
    | throw t =>
      cases hs with
      | throw _ s m todo hthrow hpc => cases hA.symm.trans hthrow
    | push c target m | dispatched c | stop => exact hdrops

/-- Nobody has a stage name, a stage or a dispatch in its hands, and the work queue is empty. -/
structure Spent {A : Application n} (σ : State ((Color.chooser n T).policy concurrency) A C) :
    Prop where
  own : σ.policy.own = []
  client : ∀ c, σ.client c = none
  pc : ∀ t, (σ.pc t).EmptyHanded

/-- Then the threads look for work for ever, and what waits is never processed. -/
theorem Spent.step {G : StageGraph n Message} {entry : Fin n → Bool}
    {σ σ' : State ((Color.chooser n T).policy concurrency) (G.application false entry) C}
    {a : Action ((Color.chooser n T).policy concurrency) (G.application false entry) C}
    (h : Spent σ) (ha : NotDispatching a = true) (hs : Step σ a σ') :
    Spent σ' ∧ σ'.queue = σ.queue := by
  have handed : ∀ {t pc}, σ.pc t = pc → pc.EmptyHanded := fun {t pc} hpc => hpc ▸ h.pc t
  have move : ∀ {t pc}, σ'.pc = Function.update σ.pc t pc → pc.EmptyHanded →
      σ'.policy.own = [] → σ'.client = σ.client → σ'.queue = σ.queue →
      Spent σ' ∧ σ'.queue = σ.queue := by
    intro t pc hpc hempty hown hclient hqueue
    refine ⟨⟨hown, by rw [hclient]; exact h.client, ?_⟩, hqueue⟩
    exact forall_pc_of_update (Q := Pc.EmptyHanded) hpc h.pc hempty
  cases hs with
  | enter t e v hpc hd => exact move rfl (rfl : Call.chosen .enter = none) h.own rfl rfl
  | leave t e v hpc hd | batchEnd t e v s info hpc => exact move rfl trivial h.own rfl rfl
  | call t e v p policy p' hpc hr =>
    have hnone : Call.chosen p = none := handed hpc
    by_cases hp : ∃ c, p = .choose c
    · obtain ⟨c, rfl⟩ := hp
      cases hr
      -- the pop from the empty queue finds no name
      refine move rfl ?_ ?_ rfl rfl
      · show (Color.dequeNextStage σ.policy.own).1 = none
        rw [h.own]
        rfl
      · show (Color.dequeNextStage σ.policy.own).2 = []
        rw [h.own]
        rfl
    · rcases Call.chosen_cases (e := e) (not_exists.mp hp) hr with ⟨hown, hchosen⟩ | ⟨hown, hchosen⟩
      · exact move rfl (hchosen.trans hnone) (hown.trans h.own) rfl rfl
      · exact move rfl hchosen (hown.trans h.own) rfl rfl
  | visit t e v p policy s hpc hr =>
    obtain ⟨rfl, _⟩ := Call.step_eq_inr (e := e) hr
    cases handed hpc
  | pop t e v s m rest hpc hq | empty t e v s hpc hq | push t e v s m target m' todo hpc
  | account t e v s m target todo hpc | returns t e v s m hpc | throw t s m todo hA hpc =>
    exact (handed hpc).elim
  | clientPush c target m hc he | stop => cases ha
  | clientDone c target hc => cases (h.client c).symm.trans hc

/-- A message that waits when everything is spent is stranded. -/
theorem Spent.not_drained {G : StageGraph n Message} {entry : Fin n → Bool}
    {ρ : (undisturbed ((Color.chooser n T).policy concurrency) G false entry C).Execution}
    (h : Spent (ρ.state 0)) {s : Fin n} (hq : (ρ.state 0).queue s ≠ []) (as) : ¬ Drained as ρ := by
  intro hdrained
  obtain ⟨i, hidle, _⟩ := hdrained.exists
  have hstays : Spent (ρ.state i) ∧ (ρ.state i).queue s ≠ [] := by
    refine ρ.always (I := fun σ => Spent σ ∧ σ.queue s ≠ []) (fun σ a σ' hσ hs => ?_) ⟨h, hq⟩ i
    obtain ⟨ha, hs⟩ := Lts.restrict_step_eq_some.mp hs
    obtain ⟨hspent, hqueue⟩ := hσ.1.step ha (step_inv hs)
    exact ⟨hspent, by rw [hqueue]; exact hσ.2⟩
  exact hstays.2 (hidle.1 s)

end Color

namespace ColorMinus

/-- The stages that are advertised. -/
def pending (stats : ColorMinus.Stats n) : Finset (Fin n) :=
  Finset.univ.filter (Advertised stats)

theorem pending_updatePrevious (stats : ColorMinus.Stats n) (s : Fin n) :
    pending (stats.updatePrevious s) = (pending stats).erase s := by
  ext r
  simp only [pending, Finset.mem_filter, Finset.mem_univ, true_and, Finset.mem_erase]
  by_cases hrs : r = s
  · subst r
    simp only [Advertised, MessageCount.estimatedDepth_updatePrevious_self, BitVec.lt_irrefl, ne_eq,
      not_true, false_and]
  · simp only [Advertised, MessageCount.estimatedDepth_updatePrevious_of_ne hrs, ne_eq, hrs,
      not_false_eq_true, true_and]

/-- Half of what a pending stage costs is paid by its choice, the other half when its estimate is
    wiped. -/
def cost (stats : ColorMinus.Stats n) (chosen : StageEnum n) : Nat :=
  24 * (pending stats).card + if ∃ s ∈ pending stats, chosen = some s then 0 else 12

theorem cost_of_mem {stats : ColorMinus.Stats n} {s : Fin n} (h : s ∈ pending stats) :
    cost stats (some s) = 24 * (pending stats).card := by
  rw [cost, if_pos ⟨s, h, rfl⟩, Nat.add_zero]

theorem cost_none (stats : ColorMinus.Stats n) :
    cost stats none = 24 * (pending stats).card + 12 := by
  rw [cost, if_neg (by simp)]

theorem le_cost (stats : ColorMinus.Stats n) (chosen : StageEnum n) :
    24 * (pending stats).card ≤ cost stats chosen :=
  Nat.le_add_right _ _

theorem cost_updatePrevious_of_mem {stats : ColorMinus.Stats n} {s : Fin n}
    (h : s ∈ pending stats) (chosen : StageEnum n) :
    cost (stats.updatePrevious s) chosen ≤ 24 * (pending stats).card := by
  have hcard := Finset.card_erase_add_one h
  rw [cost, pending_updatePrevious]
  split <;> omega

theorem cost_updatePrevious_of_notMem {stats : ColorMinus.Stats n} {s : Fin n}
    (h : s ∉ pending stats) (chosen : StageEnum n) :
    cost (stats.updatePrevious s) chosen = cost stats chosen := by
  rw [cost, cost, pending_updatePrevious, Finset.erase_eq_of_notMem h]

/-- As long as a stage is pending, the choice is a pending stage. -/
theorem mem_pending_of_dequeNextStage {stats : ColorMinus.Stats n} {s : Fin n}
    (h : Advertised stats s) :
    ∃ r ∈ pending stats, ColorMinus.dequeNextStage stats = some r := by
  obtain ⟨r, hr, hmost⟩ := stats.highwaterStage_spec (Nat.zero_lt_of_lt s.isLt)
  refine ⟨r, Finset.mem_filter.mpr ⟨Finset.mem_univ r, ?_⟩, hr⟩
  exact BitVec.lt_def.mpr (Nat.lt_of_lt_of_le (BitVec.lt_def.mp h) (BitVec.le_def.mp (hmost s).1))

/-- Every choice wipes a positive estimate. -/
def approaches (s : Fin n) : Approaches (P := ColorMinus.chooser n T) Advertised s where
  cost := cost
  choose stats t c e hadv _ := by
    obtain ⟨r, hmem, hr⟩ := mem_pending_of_dequeNextStage hadv
    show cost stats (ColorMinus.dequeNextStage stats) + 12 ≤ cost stats none
    rw [hr, cost_of_mem hmem, cost_none]
  choose_other _ _ _ _ _ _ _ := le_rfl
  settle stats next := by
    cases next with
    | none => exact le_rfl
    | some u =>
      show cost (stats.updatePrevious u) none ≤ cost stats (some u)
      by_cases hmem : u ∈ pending stats
      · rw [cost_of_mem hmem]
        exact cost_updatePrevious_of_mem hmem none
      · rw [cost_updatePrevious_of_notMem hmem, cost_none, cost, if_neg]
        rintro ⟨_, hpending, heq⟩
        cases heq
        exact hmem hpending
  settle_other stats next chosen := by
    cases next with
    | none => exact le_rfl
    | some u =>
      show cost (stats.updatePrevious u) chosen ≤ cost stats chosen
      by_cases hmem : u ∈ pending stats
      · exact (cost_updatePrevious_of_mem hmem chosen).trans (le_cost stats chosen)
      · exact (cost_updatePrevious_of_notMem hmem chosen).le
  batchEnd _ _ _ := rfl

end ColorMinus

/-- Under `Color` everything that has been dispatched is processed if and only if nothing is
    delivered to a stage that the mask closes and no message is stranded from some moment on.  Here
    `tryAssign(NumberOfEntries)`, which `nextStage` calls on an empty work queue, is taken to
    fail. -/
theorem color_drained_iff (G : StageGraph n Message) (entry : Fin n → Bool)
    (concurrency : Fin n → SizeT) (hthreads : 0 < T)
    {σ₀ : State ((Color.chooser n T).policy concurrency) (G.application false entry) C}
    (hσ₀ : Initial σ₀) (as) (ρ : (undisturbed _ G false entry C).Execution)
    (hrun : (system _ _ C).run σ₀ as = some (ρ.state 0)) (hrunning : (ρ.state 0).done = false)
    (hclient : ∀ c, (ρ.state 0).client c = none) (hfair : ρ.Fair Action.actor) :
    Drained as ρ ↔ (∀ d ∈ G.deliveries (clientDispatches as), concurrency d.1 ≠ 0) ∧
      ∀ᶠ i in Filter.atTop, Color.WorkKept (ρ.state i) :=
  drained_iff_kept hthreads Color.approaches hσ₀ as ρ hrun hrunning hclient hfair

/-- One stage, at which the messages end. -/
def single : StageGraph 1 Nat where
  Later _ _ := False
  acyclic _ h := by
    obtain ⟨_, _, hlater⟩ := Relation.TransGen.tail'_iff.mp h
    exact hlater
  functor _ _ := []
  later _ _ _ h := absurd h List.not_mem_nil

/-- After a run that has dropped the name of a stage with a message: neither side holds. -/
theorem color_drained_iff_late :
    ∃ as, ∃ ρ : (undisturbed ((Color.chooser 1 2).policy fun _ => 1) single false
        (fun _ => true) 1).Execution, ρ.Fair Action.actor ∧ ¬ Drained as ρ ∧
      ¬ ∀ᶠ i in Filter.atTop, Color.WorkKept (ρ.state i) := by
  let σ₀ : State ((Color.chooser 1 2).policy fun _ => 1)
    (single.application false fun _ => true) 1 := State.fresh (.fresh (fun _ => 1) [])
  have hσ₀ : Initial σ₀ := State.fresh_initial ⟨rfl, fun _ => rfl, rfl⟩
  let as : List (Action ((Color.chooser 1 2).policy fun _ => 1)
      (single.application false fun _ => true) 1) :=
    .push 0 0 (7 : Nat) :: .dispatched 0 :: List.replicate 11 (.thread 0 () ()) ++
      .push 0 0 (8 : Nat) :: .dispatched 0 :: List.replicate 6 (.thread 1 () ())
  obtain ⟨σ, hrun, hdone, hpc, hspent, hq⟩ : ∃ σ, (system _ _ 1).run σ₀ as = some σ ∧
      σ.done = false ∧ (∀ t, (σ.pc t).isExited = false) ∧ Color.Spent σ ∧ σ.queue 0 ≠ [] :=
    ⟨_, rfl, rfl, by decide, ⟨rfl, by decide, Fin.forall_fin_two.mpr ⟨trivial, rfl⟩⟩, by decide⟩
  obtain ⟨ρ, hstart, hfair⟩ := exists_fair (by decide) () ⟨hdone, hpc⟩
  subst hstart
  have hstranded : ¬ Drained as ρ := hspent.not_drained hq as
  refine ⟨as, ρ, hfair, hstranded, fun hkept => hstranded ?_⟩
  exact (color_drained_iff single (fun _ => true) (fun _ => 1) (by decide) hσ₀ as ρ hrun hdone
    hspent.client hfair).mpr ⟨fun _ _ => (by decide : (1 : SizeT) ≠ 0), hkept⟩

/-- Under `ColorMinus` everything that has been dispatched is processed if and only if nothing is
    delivered to a stage that the mask closes and no message is stranded from some moment on. -/
theorem colorMinus_drained_iff (G : StageGraph n Message) (entry : Fin n → Bool)
    (concurrency : Fin n → SizeT) (hthreads : 0 < T)
    {σ₀ : State ((ColorMinus.chooser n T).policy concurrency) (G.application false entry) C}
    (hσ₀ : Initial σ₀) (as) (ρ : (undisturbed _ G false entry C).Execution)
    (hrun : (system _ _ C).run σ₀ as = some (ρ.state 0)) (hrunning : (ρ.state 0).done = false)
    (hclient : ∀ c, (ρ.state 0).client c = none) (hfair : ρ.Fair Action.actor) :
    Drained as ρ ↔ (∀ d ∈ G.deliveries (clientDispatches as), concurrency d.1 ≠ 0) ∧
      ∀ᶠ i in Filter.atTop, ColorMinus.WorkKept (ρ.state i) :=
  drained_iff_kept hthreads ColorMinus.approaches hσ₀ as ρ hrun hrunning hclient hfair

/-- After a run that has wiped the estimate of a stage with a message: it is the only stage, so that
    the threads choose it all the same, and both sides hold. -/
theorem colorMinus_drained_iff_late :
    ∃ as, ∃ ρ : (undisturbed ((ColorMinus.chooser 1 2).policy fun _ => 1) single false
        (fun _ => true) 1).Execution, ρ.Fair Action.actor ∧ ¬ ColorMinus.WorkKept (ρ.state 0) ∧
      Drained as ρ ∧ ∀ᶠ i in Filter.atTop, ColorMinus.WorkKept (ρ.state i) := by
  let σ₀ : State ((ColorMinus.chooser 1 2).policy fun _ => 1)
      (single.application false fun _ => true) 1 :=
    State.fresh (.fresh (fun _ => 1) MessageCount.reset)
  have hσ₀ : Initial σ₀ := State.fresh_initial ⟨rfl, fun _ => rfl, rfl⟩
  let as : List (Action ((ColorMinus.chooser 1 2).policy fun _ => 1)
      (single.application false fun _ => true) 1) :=
    .push 0 0 (7 : Nat) :: .dispatched 0 :: List.replicate 11 (.thread 0 () ()) ++
      .push 0 0 (8 : Nat) :: .dispatched 0 :: List.replicate 6 (.thread 1 () ())
  have hlate : ((system _ _ 1).run σ₀ as).any (fun σ => decide (σ.done = false ∧
      (∀ t, (σ.pc t).isExited = false) ∧ (∀ c, σ.client c = none) ∧ ¬ ColorMinus.WorkKept σ)) =
        true := by decide
  obtain ⟨σ, hrun, hσ⟩ := (Option.any_eq_true _ _).mp hlate
  obtain ⟨hdone, hpc, hclient, hlost⟩ := of_decide_eq_true hσ
  obtain ⟨ρ, hstart, hfair⟩ := exists_fair (by decide) () ⟨hdone, hpc⟩
  subst hstart
  have hρ : Scheduled (alone ρ) := scheduled_alone hσ₀ hrun hdone hfair
  have hdrained : Drained as ρ := by
    refine hρ.drained hσ₀ hrun fun d _ => leavesNothing_of_chooses hρ (by decide) 0 fun N hN => ?_
    -- every choice is that of the only stage
    refine hN.frequently_chooses hρ 0 (fun _ => 0) (fun _ _ _ => le_rfl) fun i stage _ hi hne => ?_
    obtain ⟨e, v, c, _, _, rfl⟩ := hi
    obtain ⟨r, hr, _⟩ := MessageCount.highwaterStage_spec (ρ.state i).policy.own Nat.one_pos
    exact absurd (hr.trans (congrArg some (Subsingleton.elim r d.1))) hne
  exact ⟨as, ρ, hfair, hlost, hdrained, ((colorMinus_drained_iff single (fun _ => true) (fun _ => 1)
    (by decide) hσ₀ as ρ hrun hdone hclient hfair).mp hdrained).2⟩

/-- A single thread strands nothing under `Color`, so that it processes everything but what is
    delivered to a stage that the mask closes, again with `tryAssign(NumberOfEntries)` taken to
    fail. -/
theorem color_alone_drained_iff (G : StageGraph n Message) (entry : Fin n → Bool)
    (concurrency : Fin n → SizeT)
    {σ₀ : State ((Color.chooser n 1).policy concurrency) (G.application false entry) C}
    (hσ₀ : Initial σ₀) (as) (ρ : (undisturbed _ G false entry C).Execution)
    (hrun : (system _ _ C).run σ₀ as = some (ρ.state 0)) (hrunning : (ρ.state 0).done = false)
    (hclient : ∀ c, (ρ.state 0).client c = none) (hfair : ρ.Fair Action.actor) :
    Drained as ρ ↔ ∀ d ∈ G.deliveries (clientDispatches as), concurrency d.1 ≠ 0 := by
  rw [drained_iff_kept Nat.one_pos Color.approaches hσ₀ as ρ hrun hrunning hclient hfair]
  refine and_iff_left (Filter.Eventually.of_forall fun i => ?_)
  exact (execution_holds (Color.alone_keeps _ rfl) hσ₀ hrun i).2

/-- One thread, for a message that goes through two stages. -/
theorem color_alone_drained_iff_one :
    ∃ ρ : (undisturbed ((Color.chooser 2 1).policy fun _ => 1) forwarding false
        (fun _ => true) 1).Execution, ρ.Fair Action.actor ∧
      Drained [.push 0 0 (7 : Nat), .dispatched 0] ρ := by
  let σ₀ : State ((Color.chooser 2 1).policy fun _ => 1)
    (forwarding.application false fun _ => true) 1 := State.fresh (.fresh (fun _ => 1) [])
  have hσ₀ : Initial σ₀ := State.fresh_initial ⟨rfl, fun _ => rfl, rfl⟩
  obtain ⟨σ, hrun, hdone, hpc, hclient⟩ : ∃ σ,
      (system _ _ 1).run σ₀ [.push 0 0 (7 : Nat), .dispatched 0] = some σ ∧ σ.done = false ∧
        (∀ t, (σ.pc t).isExited = false) ∧ ∀ c, σ.client c = none :=
    ⟨_, rfl, rfl, fun _ => rfl, by decide⟩
  obtain ⟨ρ, hstart, hfair⟩ := exists_fair (by decide) () ⟨hdone, hpc⟩
  subst hstart
  exact ⟨ρ, hfair, (color_alone_drained_iff forwarding (fun _ => true) (fun _ => 1) hσ₀ _ ρ hrun
    hdone hclient hfair).mpr fun _ _ => (by decide : (1 : SizeT) ≠ 0)⟩

end Wield.SchedulerBase
