import Wield.SchedulerBase.Slots
import Wield.Schedulers.Retry

/-!
# Whether a stopped thread leaves `tryProcess`

`done()` is only tested between two calls of `process`.  Once it is set and functors dispatch
nothing more, the batch ends; what is left is the retry loop of `nextStage`.  `stops_iff` says for
one processing thread that the rest of `tryProcess` is finite exactly if that loop comes to a stage
that can be entered.
-/

namespace Wield.SchedulerBase

open Theory StageChooser

variable {n T C : Nat}

section Quiet

variable {M : SchedulingPolicy n T} {A : Application n} {σ σ' : State M A C} {t : Fin T}

/-- A step of thread `t`; a functor that starts dispatches nothing. -/
def QuietStep (t : Fin T) (σ σ' : State M A C) : Prop :=
  ∃ e v, threadStep σ t e v = some σ' ∧
    ∀ s m rest, σ.pc t = .poll s → σ.queue s = m :: rest → A.functor s m v = []

/-- The rest of `tryProcess` in thread `t` is finite. -/
abbrev Stops (t : Fin T) (σ : State M A C) : Prop :=
  Terminates (QuietStep t) σ

/-- A thread that can go no further has left `tryProcess`. -/
theorem threadStep_eq_none {e : M.Entropy} {v : A.Env} (h : threadStep σ t e v = none) :
    σ.pc t = .exited := by
  unfold threadStep at h
  split at h
  case h_8 hpc => exact hpc
  case h_2 => split at h <;> cases h
  case h_3 => split at h <;> cases h
  all_goals cases h

/-- The thread is not inside `nextStage`. -/
def Pc.Outside : Pc M A → Prop
  | .nextStage _ => False
  | _ => True

/-- A bound on the steps until a stopped thread has left. -/
def Pc.rest (queue : Fin n → List A.Message) : Pc M A → Nat
  | .exited | .nextStage _ => 0
  | .loop => 1
  | .batchEnd _ _ => 2
  | .poll s => 4 * (queue s).length + 3
  | .running s _ todo => 4 * (queue s).length + 6 * todo.length + 4
  | .pushed s _ _ todo => 4 * (queue s).length + 6 * todo.length + 5

/-- The current batch ends, and then the thread leaves. -/
theorem stops_of_outside (hdone : σ.done = true) (hpc : (σ.pc t).Outside) : Stops t σ := by
  refine terminates_of_measure (I := fun σ => σ.done = true ∧ (σ.pc t).Outside)
    (fun σ => (σ.pc t).rest σ.queue) ?_ ⟨hdone, hpc⟩
  -- each step lowers the bound: a pop by the message, a push by the dispatch that is made
  rintro σ σ' ⟨hdone, hpc⟩ ⟨e, v, hs, hquiet⟩
  right
  have next : ∀ {pc : Pc M A}, σ'.pc = Function.update σ.pc t pc → σ'.done = σ.done →
      pc.Outside → pc.rest σ'.queue < (σ.pc t).rest σ.queue →
        (σ'.done = true ∧ (σ'.pc t).Outside) ∧
          (σ'.pc t).rest σ'.queue < (σ.pc t).rest σ.queue := by
    intro pc hpc' hdone' hout hlt
    rw [hpc', Function.update_self, hdone']
    exact ⟨⟨hdone, hout⟩, hlt⟩
  cases step_inv (a := .thread t e v) hs with
  | leave _ _ _ hloop hd =>
    apply next rfl rfl trivial
    rw [hloop]
    exact Nat.one_pos
  -- `done()` has been set, so `process` is not called again
  | enter _ _ _ hloop hd => rw [hdone] at hd; cases hd
  -- the thread is outside of `nextStage`
  | call _ _ _ p _ _ hin => rw [hin] at hpc; exact hpc.elim
  | visit _ _ _ p _ _ hin => rw [hin] at hpc; exact hpc.elim
  | pop _ _ _ s m todo hpoll hq =>
    have hnone := hquiet s m todo hpoll hq
    apply next rfl rfl trivial
    rw [hpoll]
    simp only [Pc.rest, State.setPc_queue, State.pop_queue, Function.update_self, hq, hnone,
      List.length_cons, List.length_nil]
    omega
  | empty _ _ _ s hpoll hq =>
    apply next rfl rfl trivial
    rw [hpoll]
    simp only [Pc.rest]
    omega
  | push _ _ _ s m target m' todo hrun =>
    apply next rfl rfl trivial
    rw [hrun]
    simp only [Pc.rest, State.setPc_queue, State.forward_queue, State.push_queue,
      List.length_cons]
    by_cases hs : s = target
    · subst s
      rw [Function.update_self, List.length_append, List.length_singleton]
      omega
    · rw [Function.update_of_ne hs]
      omega
  | account _ _ _ s m target todo hpushed =>
    apply next rfl rfl trivial
    rw [hpushed]
    simp only [Pc.rest, State.setPc_queue, State.setPolicy_queue]
    omega
  | returns _ _ _ s m hrun =>
    apply next rfl rfl trivial
    rw [hrun]
    simp only [Pc.rest, State.setPc_queue, List.length_nil]
    omega
  | batchEnd _ _ _ s info hend =>
    apply next rfl rfl trivial
    rw [hend]
    exact Nat.one_lt_two

/-- What a step inside `nextStage` leaves. -/
def State.resume (σ : State M A C) (t : Fin T) : M.State × (M.Pc ⊕ Fin n) → State M A C
  | (policy, .inl pc) => (σ.setPolicy policy).setPc t (.nextStage pc)
  | (policy, .inr s) => (σ.setPolicy policy).setPc t (.poll s)

theorem threadStep_nextStage {p : M.Pc} (hpc : σ.pc t = .nextStage p) (e : M.Entropy) (v : A.Env) :
    threadStep σ t e v = some (σ.resume t (M.step σ.policy t e p)) := by
  simp only [threadStep, hpc]
  split <;> rename_i h <;> rw [h] <;> rfl

theorem quietStep_resume {p : M.Pc} (hpc : σ.pc t = .nextStage p) (e : M.Entropy) :
    QuietStep t σ (σ.resume t (M.step σ.policy t e p)) := by
  let v := A.env
  refine ⟨e, v, threadStep_nextStage hpc e v, fun s m rest hpoll => ?_⟩
  rw [hpc] at hpoll
  cases hpoll

theorem stops_nextStage_iff {p : M.Pc} (hpc : σ.pc t = .nextStage p) :
    Stops t σ ↔ ∀ e, Stops t (σ.resume t (M.step σ.policy t e p)) := by
  rw [Stops, terminates_iff]
  constructor
  · exact fun h e => h _ (quietStep_resume hpc e)
  · rintro h σ' ⟨e, v, hs, _⟩
    rw [threadStep_nextStage hpc] at hs
    cases hs
    exact h e

end Quiet

/-! ## One processing thread -/

section Solo

variable {P : StageChooser n T} {concurrency : Fin n → SizeT} {A : Application n}
  {σ σ' : State (P.policy concurrency) A C} {t : Fin T}

/-- The action is not one of another processing thread. -/
def Solo (M : SchedulingPolicy n T) (A : Application n) (C : Nat) (t : Fin T) :
    Action M A C → Bool
  | .thread u _ _ => u = t
  | .throw u => u = t
  | _ => true

/-- The scheduler with clients and one processing thread. -/
abbrev solo (M : SchedulingPolicy n T) (A : Application n) (C : Nat) (t : Fin T) :
    Lts (State M A C) (Action M A C) :=
  (system M A C).restrict (Solo M A C t)

/-- No other thread holds a slot, so that a counter does not change between load and exchange. -/
structure SoloInv (t : Fin T) (σ : State (P.policy concurrency) A C) : Prop where
  slots : SlotInv σ
  others : ∀ u, u ≠ t → σ.policy.holding u = none
  loaded : ∀ s seen c, σ.pc t = .nextStage (.exchange s seen c) →
    σ.policy.ta.threadsPerStage s = seen

/-- A step that does not put the thread before an exchange. -/
theorem SoloInv.of_step (h : SoloInv t σ) (hslots : SlotInv σ')
    (hothers : ∀ u, u ≠ t → σ'.policy.holding u = σ.policy.holding u)
    (hpc : ∀ s seen c, σ'.pc t ≠ .nextStage (.exchange s seen c)) : SoloInv t σ' :=
  ⟨hslots, fun u hu => (hothers u hu).trans (h.others u hu),
    fun s seen c heq => absurd heq (hpc s seen c)⟩

theorem SoloInv.call (h : SoloInv t σ) (e : P.Entropy) {p : P.Pc} (hpc : σ.pc t = .nextStage p)
    {policy : P.Shared} {r : P.Pc ⊕ Fin n} (hr : Call.step σ.policy t e p = (policy, r))
    {pc : Pc (P.policy concurrency) A}
    (hnext : pc = match r with | .inl p' => .nextStage p' | .inr s => .poll s)
    (hslots : SlotInv ((σ.setPolicy policy).setPc t pc)) :
    SoloInv t ((σ.setPolicy policy).setPc t pc) := by
  refine ⟨hslots, fun u hu => (h.slots.holding_call hpc hr hu).trans (h.others u hu),
    fun s seen c heq => ?_⟩
  rw [State.setPc_pc, Function.update_self, hnext] at heq
  cases r with
  | inl p' =>
    cases heq
    obtain ⟨rfl, hseen⟩ := Call.step_eq_exchange hr
    exact hseen
  | inr s' => cases heq

theorem soloInv_invariant : (solo (P.policy concurrency) A C t).Invariant (SoloInv t) where
  init σ h := by
    refine ⟨slotInv_invariant.init σ h, fun u _ => h.policy.2.1 u, fun s seen c heq => ?_⟩
    rw [h.pc t] at heq
    cases heq
  step σ a σ' h hs := by
    obtain ⟨hsolo, hs⟩ := Lts.restrict_step_eq_some.mp hs
    have hslots := slotInv_invariant.step σ a σ' h.slots hs
    cases step_inv hs with
    | call u e v p policy p' hpc hp =>
      obtain rfl := of_decide_eq_true hsolo
      exact h.call e hpc hp rfl hslots
    | visit u e v p policy s hpc hp =>
      obtain rfl := of_decide_eq_true hsolo
      exact h.call e hpc hp rfl hslots
    | clientPush c target m hc he => exact ⟨hslots, h.others, h.loaded⟩
    | clientDone c target hc => exact ⟨hslots, h.others, h.loaded⟩
    | stop => exact ⟨hslots, h.others, h.loaded⟩
    | _ =>
      -- a step of the thread itself, to a place that is not before an exchange
      obtain rfl := of_decide_eq_true hsolo
      exact h.of_step hslots (fun _ _ => rfl) (by simp)

/-- Without a slot of its own the thread can enter every stage with a limit above 0. -/
theorem SoloInv.hasRoom_iff (h : SoloInv t σ) (ht : σ.policy.holding t = none) (s : Fin n) :
    σ.policy.ta.HasRoom s ↔ concurrency s ≠ 0 := by
  have hnone : σ.policy.holding = fun _ => none := by
    funext u
    by_cases hu : u = t
    · exact hu ▸ ht
    · exact h.others u hu
  have hcount := h.slots.slots.count s
  rw [hnone, tally_none] at hcount
  -- the counter is 0, so room means that the limit is not
  rw [ThreadAssignments.HasRoom, BitVec.lt_def, hcount, h.slots.slots.limit, Nat.pos_iff_ne_zero]
  exact not_congr ⟨fun h0 => BitVec.eq_of_toNat_eq h0, fun h0 => by rw [h0]; rfl⟩

/-- What is known about a policy's retry loop: `valid` holds of its own data in every state, and
    then the loop ends exactly if `found` does. -/
structure RetryRule (P : StageChooser n T) (concurrency : Fin n → SizeT)
    (valid found : P.State → Prop) : Prop where
  init : ∀ own, P.init concurrency own → valid own
  choose : ∀ own t c e, valid own → valid (P.choose own t c e).2.2
  settle : ∀ own next, valid own → valid (P.settle own next)
  batchEnd : ∀ own b, valid own → valid (P.batchEnd own b)
  dispatched : ∀ own s, valid own → valid (P.dispatched own s)
  retry : ∀ t c own, valid own →
    (Terminates (P.Retry t fun s => concurrency s ≠ 0) (c, own) ↔ found own)

section RetryRule

variable {valid found : P.State → Prop}

/-- A policy of which nothing needs to be known. -/
theorem RetryRule.of_retry
    (h : ∀ t c own, Terminates (P.Retry t fun s => concurrency s ≠ 0) (c, own) ↔ found own) :
    RetryRule P concurrency (fun _ => True) found :=
  ⟨fun _ _ => trivial, fun _ _ _ _ _ => trivial, fun _ _ _ => trivial, fun _ _ _ => trivial,
    fun _ _ _ => trivial, fun t c own _ => h t c own⟩

theorem RetryRule.keeps (h : RetryRule P concurrency valid found) : P.Keeps valid :=
  ⟨h.choose, h.settle, h.batchEnd, h.dispatched⟩

theorem RetryRule.invariant (h : RetryRule P concurrency valid found) :
    (system (P.policy concurrency) A C).Invariant fun σ => valid σ.policy.own where
  init σ hσ := h.init _ hσ.policy.2.2
  step σ a σ' hv hs := by
    cases step_inv hs with
    | call t e v p policy p' hpc hp =>
      have hcall := h.keeps.call hv t e p
      rw [show Call.step σ.policy t e p = _ from hp] at hcall
      exact hcall
    | visit t e v p policy s hpc hp =>
      have hcall := h.keeps.call hv t e p
      rw [show Call.step σ.policy t e p = _ from hp] at hcall
      exact hcall
    | account t e v s m target todo hpc => exact h.dispatched _ target hv
    | batchEnd t e v s info hpc => exact h.batchEnd _ _ hv
    | clientDone c target hc => exact h.dispatched _ target hv
    | _ => exact hv

/-- All that is known about a state in which the thread has been told to stop. -/
structure Stopped (valid : P.State → Prop) (t : Fin T) (σ : State (P.policy concurrency) A C) :
    Prop where
  alone : SoloInv t σ
  own : valid σ.policy.own
  done : σ.done = true

theorem Stopped.resume (hrule : RetryRule P concurrency valid found) (h : Stopped valid t σ)
    {p : P.Pc} (hpc : σ.pc t = .nextStage p) (e : P.Entropy) :
    Stopped valid t (σ.resume t (Call.step σ.policy t e p)) := by
  let v := A.env
  have hs : (solo (P.policy concurrency) A C t).step σ (.thread t e v) =
      some (σ.resume t (Call.step σ.policy t e p)) :=
    Lts.restrict_step_eq_some.mpr ⟨decide_eq_true rfl, threadStep_nextStage hpc e v⟩
  refine ⟨soloInv_invariant.step _ _ _ h.alone hs,
    (hrule.invariant.restrict _).step _ _ _ h.own hs, ?_⟩
  rw [← h.done]
  rcases Call.step σ.policy t e p with ⟨policy, p' | s⟩ <;> rfl

theorem Stopped.holding_load (h : Stopped valid t σ) {next : StageEnum n} {c : P.Cursor}
    (hpc : σ.pc t = .nextStage (.load next c)) : σ.policy.holding t = none := by
  have ht := h.alone.slots.consistent_at hpc
  exact ht.2

theorem resume_pc {policy : P.Shared} {p : P.Pc} :
    (σ.resume t (policy, .inl p)).pc t = .nextStage p :=
  Function.update_self _ _ _

theorem stops_resume_inr {policy : P.Shared} {s : Fin n} (hdone : σ.done = true) :
    Stops t (σ.resume t (policy, .inr s)) := by
  refine stops_of_outside hdone ?_
  rw [State.resume, State.setPc_pc, Function.update_self]
  trivial

variable [Nonempty P.Entropy]

/-- A step inside `nextStage` that does not depend on the random source. -/
theorem stops_iff_of_step {p : P.Pc} (hpc : σ.pc t = .nextStage p) {r : P.Shared × (P.Pc ⊕ Fin n)}
    (hr : ∀ e, Call.step σ.policy t e p = r) : Stops t σ ↔ Stops t (σ.resume t r) := by
  rw [stops_nextStage_iff hpc]
  constructor
  · intro h
    obtain ⟨e⟩ := ‹Nonempty P.Entropy›
    rw [← hr e]
    exact h e
  · intro h e
    rw [show (P.policy concurrency).step σ.policy t e p = r from hr e]
    exact h

theorem stops_assigned (h : Stopped valid t σ) {s : Fin n}
    (hpc : σ.pc t = .nextStage (.assigned s)) : Stops t σ :=
  (stops_iff_of_step hpc fun _ => rfl).mpr (stops_resume_inr h.done)

theorem stops_record (hrule : RetryRule P concurrency valid found) (h : Stopped valid t σ)
    {s : Fin n} (hpc : σ.pc t = .nextStage (.record s)) : Stops t σ := by
  obtain ⟨e⟩ := ‹Nonempty P.Entropy›
  exact (stops_iff_of_step hpc fun _ => rfl).mpr (stops_assigned (h.resume hrule hpc e) resume_pc)

/-- Nobody can have changed the counter since the load. -/
theorem stops_exchange (hrule : RetryRule P concurrency valid found) (h : Stopped valid t σ)
    {s : Fin n} {seen : SizeT} {c : P.Cursor} (hpc : σ.pc t = .nextStage (.exchange s seen c)) :
    Stops t σ := by
  obtain ⟨e⟩ := ‹Nonempty P.Entropy›
  have hloaded := h.alone.loaded s seen c hpc
  obtain ⟨shared, hstep⟩ : ∃ shared, ∀ e,
      Call.step σ.policy t e (.exchange s seen c) = (shared, .inl (.record s)) := by
    simp only [Call.step, ThreadAssignments.compareExchange, if_pos hloaded]
    exact ⟨_, fun _ => rfl⟩
  have hnext := h.resume hrule hpc e
  rw [hstep] at hnext
  exact (stops_iff_of_step hpc hstep).mpr (stops_record hrule hnext resume_pc)

theorem stops_load_open (hrule : RetryRule P concurrency valid found) (h : Stopped valid t σ)
    {next : StageEnum n} {c : P.Cursor} (hpc : σ.pc t = .nextStage (.load next c))
    (hopen : At (fun s => concurrency s ≠ 0) next) : Stops t σ := by
  obtain ⟨e⟩ := ‹Nonempty P.Entropy›
  cases next with
  | none => exact hopen.elim
  | some s =>
    have hroom := (h.alone.hasRoom_iff (h.holding_load hpc) s).mpr hopen
    have hstep : ∀ e, Call.step σ.policy t e (.load (some s) c) =
        (σ.policy, .inl (.exchange s (σ.policy.ta.threadsPerStage s) c)) := fun _ => if_pos hroom
    have hnext := h.resume hrule hpc e
    rw [hstep] at hnext
    exact (stops_iff_of_step hpc hstep).mpr (stops_exchange hrule hnext resume_pc)

/-- A refused stage takes the thread back to the top of the loop. -/
theorem load_refused (hrule : RetryRule P concurrency valid found) (h : Stopped valid t σ)
    {next : StageEnum n} {c : P.Cursor} (hpc : σ.pc t = .nextStage (.load next c))
    (hrefused : ¬ At (fun s => concurrency s ≠ 0) next) :
    ∃ σ' : State (P.policy concurrency) A C, Stopped valid t σ' ∧
      σ'.pc t = .nextStage (.choose c) ∧ σ'.policy.own = P.settle σ.policy.own next ∧
      (Stops t σ ↔ Stops t σ') ∧ Relation.TransGen (QuietStep t) σ σ' := by
  obtain ⟨e⟩ := ‹Nonempty P.Entropy›
  have hstep : ∀ e, Call.step σ.policy t e (.load next c) =
      (σ.policy, .inl (.refused next c)) := by
    intro e
    cases next with
    | none => rfl
    | some s =>
      exact if_neg ((h.alone.hasRoom_iff (h.holding_load hpc) s).not.mpr hrefused)
  have hnext := h.resume hrule hpc e
  have hquiet := quietStep_resume hpc e
  rw [show (P.policy concurrency).step σ.policy t e (.load next c) = _ from hstep e] at hquiet
  rw [hstep] at hnext
  refine ⟨_, hnext.resume hrule resume_pc e, resume_pc, rfl,
    (stops_iff_of_step hpc hstep).trans (stops_iff_of_step resume_pc fun _ => rfl),
    .head hquiet (.single (quietStep_resume resume_pc e))⟩

/-- At the top of the loop of `nextStage`. -/
theorem stops_choose_iff (hrule : RetryRule P concurrency valid found) (h : Stopped valid t σ)
    {c : P.Cursor} (hpc : σ.pc t = .nextStage (.choose c)) :
    Stops t σ ↔ found σ.policy.own := by
  rw [← hrule.retry t c _ h.own]
  constructor
  · intro hstops
    -- every refused round is three steps of the thread
    refine hstops.of_simulation (R := fun σ x => Stopped valid t σ ∧
      σ.pc t = .nextStage (.choose x.1) ∧ σ.policy.own = x.2) ?_ ⟨h, hpc, rfl⟩
    rintro σ ⟨c, own⟩ y ⟨h, hpc, rfl⟩ ⟨e, hrefused, rfl⟩
    obtain ⟨σ', h', hpc', hown', _, htrans⟩ :=
      load_refused hrule (h.resume hrule hpc e) resume_pc hrefused
    exact ⟨σ', .head (quietStep_resume hpc e) htrans, h', hpc', hown'⟩
  · intro hterm
    -- the other way the induction is on the rounds that are still refused
    generalize hx : (c, σ.policy.own) = x at hterm
    induction hterm generalizing σ c with
    | intro x _ ih =>
      subst x
      refine (stops_nextStage_iff hpc).mpr fun e => ?_
      have hnext := h.resume hrule hpc e
      by_cases hopen : At (fun s => concurrency s ≠ 0) (P.choose σ.policy.own t c e).1
      · exact stops_load_open hrule hnext resume_pc hopen
      · obtain ⟨σ', h', hpc', hown', hiff, _⟩ := load_refused hrule hnext resume_pc hopen
        refine hiff.mpr (ih _ ⟨e, hopen, rfl⟩ h' hpc' ?_)
        rw [hown']
        rfl

/-- Whether a call of `nextStage` in progress returns, by its place. -/
def Call.WillReturn (concurrency : Fin n → SizeT) (found : P.State → Prop) (own : P.State) :
    P.Pc → Prop
  | .enter | .decrement _ | .clear _ | .start _ | .choose _ => found own
  | .load next _ => At (fun s => concurrency s ≠ 0) next ∨ found (P.settle own next)
  | .refused next _ => found (P.settle own next)
  | .exchange _ _ _ | .record _ | .assigned _ => True

/-- Whether a thread that has been told to stop leaves `tryProcess`. -/
def Pc.WillLeave (found : P.State → Prop) (own : P.State) : Pc (P.policy concurrency) A → Prop
  | .nextStage p => Call.WillReturn concurrency found own p
  | _ => True

theorem stops_start_iff (hrule : RetryRule P concurrency valid found) (h : Stopped valid t σ)
    {original : StageEnum n} (hpc : σ.pc t = .nextStage (.start original)) :
    Stops t σ ↔ found σ.policy.own := by
  obtain ⟨e⟩ := ‹Nonempty P.Entropy›
  exact (stops_iff_of_step hpc fun _ => rfl).trans
    (stops_choose_iff hrule (h.resume hrule hpc e) resume_pc)

theorem stops_decrement_iff (hrule : RetryRule P concurrency valid found) (h : Stopped valid t σ)
    {s : Fin n} (hpc : σ.pc t = .nextStage (.decrement s)) : Stops t σ ↔ found σ.policy.own := by
  obtain ⟨e⟩ := ‹Nonempty P.Entropy›
  have hclear := h.resume hrule hpc e
  exact (stops_iff_of_step hpc fun _ => rfl).trans ((stops_iff_of_step resume_pc fun _ => rfl).trans
    (stops_start_iff hrule (hclear.resume hrule resume_pc e) resume_pc))

/-- With one processing thread that has been told to stop, the rest of `tryProcess` is finite
    exactly if a call of `nextStage` in progress comes to a stage that can be entered. -/
theorem stops_iff (hrule : RetryRule P concurrency valid found) (h : Stopped valid t σ) :
    Stops t σ ↔ (σ.pc t).WillLeave found σ.policy.own := by
  obtain ⟨e⟩ := ‹Nonempty P.Entropy›
  cases hpc : σ.pc t with
  | nextStage p =>
    cases p with
    | enter =>
      cases hrec : σ.policy.ta.threadAssignment t with
      | none =>
        have hstep : ∀ e, Call.step σ.policy t e .enter = (σ.policy, .inl (.start none)) := by
          intro e
          simp only [Call.step, hrec]
        have hnext := h.resume hrule hpc e
        rw [hstep] at hnext
        exact (stops_iff_of_step hpc hstep).trans (stops_start_iff hrule hnext resume_pc)
      | some s =>
        have hstep : ∀ e, Call.step σ.policy t e .enter = (σ.policy, .inl (.decrement s)) := by
          intro e
          simp only [Call.step, hrec]
        have hnext := h.resume hrule hpc e
        rw [hstep] at hnext
        exact (stops_iff_of_step hpc hstep).trans (stops_decrement_iff hrule hnext resume_pc)
    | decrement s => exact stops_decrement_iff hrule h hpc
    | clear s =>
      exact (stops_iff_of_step hpc fun _ => rfl).trans
        (stops_start_iff hrule (h.resume hrule hpc e) resume_pc)
    | start original => exact stops_start_iff hrule h hpc
    | choose c => exact stops_choose_iff hrule h hpc
    | load next c =>
      by_cases hopen : At (fun s => concurrency s ≠ 0) next
      · exact iff_of_true (stops_load_open hrule h hpc hopen) (.inl hopen)
      · obtain ⟨σ', h', hpc', hown', hiff, _⟩ := load_refused hrule h hpc hopen
        rw [hiff, stops_choose_iff hrule h' hpc', hown']
        exact (or_iff_right hopen).symm
    | exchange s seen c => exact iff_of_true (stops_exchange hrule h hpc) trivial
    | record s => exact iff_of_true (stops_record hrule h hpc) trivial
    | refused next c =>
      exact (stops_iff_of_step hpc fun _ => rfl).trans
        (stops_choose_iff hrule (h.resume hrule hpc e) resume_pc)
    | assigned s => exact iff_of_true (stops_assigned h hpc) trivial
  | _ => exact iff_of_true (stops_of_outside h.done (by rw [hpc]; trivial)) trivial

end RetryRule

end Solo

end Wield.SchedulerBase
