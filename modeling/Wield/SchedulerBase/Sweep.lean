import Wield.SchedulerBase.Deliveries
import Wield.Schedulers.Serialised
import Wield.Schedulers.RoundRobin
import Wield.Theory.Returns

/-!
# A sweep of `RoundRobin` over a forward pipeline

One thread alone, starting at the first stage, and functors that dispatch to later stages only.  A
batch empties its stage and leaves the earlier ones empty, and each call of `process` goes on to the
next stage, so that as many calls as there are stages leave nothing behind.  A log of the functor
runs accounts for every message: what the runs have taken from a queue and what is still there is
what was there before, followed by what the runs have dispatched to it.
-/

namespace Wield.SchedulerBase

open Theory StageChooser

variable {n T C : Nat}

/-- The thread is at the test of `done()`, where a call of `process` begins and ends. -/
def Pc.atLoop {M : SchedulingPolicy n T} {A : Application n} : Pc M A → Bool
  | .loop => true
  | _ => false

/-- Calls of `process` by thread `t`, with nobody else moving. -/
def processCalls {M : SchedulingPolicy n T} {A : Application n} (t : Fin T) (fuel calls : Nat)
    (inputs : Nat → M.Entropy × A.Env) (σ : State M A C) : Option (State M A C) :=
  runCalls (fun σ input => threadStep σ t input.1 input.2) (fun σ => (σ.pc t).atLoop) fuel calls
    inputs σ

/-- The current call of `process` by thread `t` returns, whatever it reads, and then `Q` holds. -/
abbrev ProcessReturns {M : SchedulingPolicy n T} {A : Application n} (t : Fin T)
    (Q : State M A C → Prop) (σ : State M A C) : Prop :=
  Returns (fun σ (input : M.Entropy × A.Env) => threadStep σ t input.1 input.2)
    (fun σ => (σ.pc t).atLoop) Q σ

/-- All dispatches lead to later stages. -/
def DispatchesForward (A : Application n) : Prop :=
  ∀ s m env d, d ∈ A.functor s m env → s < d.1

/-! ## The log of a sweep -/

/-- A run of a functor: the stage, the message, and what the functor reads besides. -/
structure FunctorRun (A : Application n) where
  stage : Fin n
  message : A.Message
  env : A.Env

section Log

variable {A : Application n} {s : Fin n}

/-- The messages that the functor of a stage has processed, in order. -/
def processedAt (s : Fin n) (log : List (FunctorRun A)) : List A.Message :=
  toStage s (log.map fun run => (run.stage, run.message))

/-- The dispatches of all runs to a stage, in order. -/
def dispatchedTo (s : Fin n) (log : List (FunctorRun A)) : List A.Message :=
  toStage s (log.flatMap fun run => A.functor run.stage run.message run.env)

theorem processedAt_append (s : Fin n) (log log' : List (FunctorRun A)) :
    processedAt s (log ++ log') = processedAt s log ++ processedAt s log' := by
  rw [processedAt, List.map_append, toStage_append]
  rfl

theorem dispatchedTo_append (s : Fin n) (log log' : List (FunctorRun A)) :
    dispatchedTo s (log ++ log') = dispatchedTo s log ++ dispatchedTo s log' := by
  rw [dispatchedTo, List.flatMap_append, toStage_append]
  rfl

theorem processedAt_self (m : A.Message) (v : A.Env) : processedAt s [⟨s, m, v⟩] = [m] :=
  toStage_cons_self s m []

theorem processedAt_of_ne {r : Fin n} (h : s ≠ r) (m : A.Message) (v : A.Env) :
    processedAt r [⟨s, m, v⟩] = [] :=
  toStage_cons_of_ne h m []

theorem dispatchedTo_singleton (r : Fin n) (m : A.Message) (v : A.Env) :
    dispatchedTo r [⟨s, m, v⟩] = toStage r (A.functor s m v) := by
  rw [dispatchedTo, List.flatMap_singleton]

end Log

section Batch

variable {P : StageChooser n T} {concurrency : Fin n → SizeT} {A : Application n} {t : Fin T}
  {s : Fin n} {σ₀ σ : State (P.policy concurrency) A C}
  {log log' : List (FunctorRun A)} {todo : List (Fin n × A.Message)}
  {Q : State (P.policy concurrency) A C → Prop}

/-- Since `σ₀` the functors have run as in `log`, each for the first message in the queue of its
    stage, and all their dispatches but those in `todo` have come to the end of a queue. -/
structure Accounts (σ₀ σ : State (P.policy concurrency) A C) (log : List (FunctorRun A))
    (todo : List (Fin n × A.Message)) : Prop where
  popped : ∀ s, σ.popped s = σ₀.popped s ++ processedAt s log
  arrived : ∀ s, σ.arrived s ++ toStage s todo = σ₀.arrived s ++ dispatchedTo s log
  queue : ∀ s, processedAt s log ++ σ.queue s ++ toStage s todo =
    σ₀.queue s ++ dispatchedTo s log

theorem Accounts.refl (σ : State (P.policy concurrency) A C) : Accounts σ σ [] [] where
  popped _ := (List.append_nil _).symm
  arrived _ := rfl
  queue _ := rfl

theorem Accounts.trans {σ₁ σ₂ : State (P.policy concurrency) A C} (h : Accounts σ₀ σ₁ log [])
    (h' : Accounts σ₁ σ₂ log' []) : Accounts σ₀ σ₂ (log ++ log') [] where
  popped s := by
    rw [h'.popped, h.popped, processedAt_append, List.append_assoc]
  arrived s := by
    have harrived : σ₁.arrived s = σ₀.arrived s ++ dispatchedTo s log :=
      (List.append_nil _).symm.trans (h.arrived s)
    rw [h'.arrived, harrived, dispatchedTo_append, List.append_assoc]
  queue s := by
    have hqueue : processedAt s log ++ σ₁.queue s = σ₀.queue s ++ dispatchedTo s log :=
      (List.append_nil _).symm.trans (h.queue s)
    rw [processedAt_append, dispatchedTo_append, ← List.append_assoc, ← hqueue, List.append_assoc,
      List.append_assoc, List.append_assoc, ← h'.queue s, List.append_assoc]

/-- A functor begins to run, with all its dispatches to make. -/
theorem Accounts.pop (h : Accounts σ₀ σ log []) {m : A.Message} {rest : List A.Message}
    (hq : σ.queue s = m :: rest) (v : A.Env) :
    Accounts σ₀ (σ.pop s m rest) (log ++ [⟨s, m, v⟩]) (A.functor s m v) where
  popped r := by
    rw [State.pop_popped, processedAt_append, ← List.append_assoc, ← h.popped]
    by_cases hr : s = r
    · subst r
      rw [Function.update_self, processedAt_self]
    · rw [Function.update_of_ne (Ne.symm hr), processedAt_of_ne hr, List.append_nil]
  arrived r := by
    have harrived : σ.arrived r = σ₀.arrived r ++ dispatchedTo r log :=
      (List.append_nil _).symm.trans (h.arrived r)
    rw [State.pop_arrived, harrived, dispatchedTo_append, dispatchedTo_singleton,
      List.append_assoc]
  queue r := by
    have hqueue : processedAt r log ++ σ.queue r = σ₀.queue r ++ dispatchedTo r log :=
      (List.append_nil _).symm.trans (h.queue r)
    rw [State.pop_queue, dispatchedTo_append, dispatchedTo_singleton, ← List.append_assoc,
      ← hqueue, processedAt_append]
    by_cases hr : s = r
    · subst r
      rw [Function.update_self, processedAt_self, hq, List.append_assoc _ [m]]
      rfl
    · rw [Function.update_of_ne (Ne.symm hr), processedAt_of_ne hr, List.append_nil]

/-- A dispatch comes to the end of the queue of its target. -/
theorem Accounts.push {target : Fin n} {m : A.Message}
    (h : Accounts σ₀ σ log ((target, m) :: todo)) (s : Fin n) :
    Accounts σ₀ ((σ.push target m).forward s m) log todo where
  popped := h.popped
  arrived r := by
    rw [← h.arrived r, State.forward_arrived, State.push_arrived]
    by_cases hr : target = r
    · subst r
      rw [Function.update_self, toStage_cons_self, List.append_assoc]
      rfl
    · rw [Function.update_of_ne (Ne.symm hr), toStage_cons_of_ne hr]
  queue r := by
    rw [← h.queue r, State.forward_queue, State.push_queue]
    by_cases hr : target = r
    · subst r
      rw [Function.update_self, toStage_cons_self, ← List.append_assoc, List.append_assoc _ [m]]
      rfl
    · rw [Function.update_of_ne (Ne.symm hr), toStage_cons_of_ne hr]

/-- What holds throughout a batch at `s`. -/
structure InBatch (σ₀ : State (P.policy concurrency) A C) (s : Fin n) (log : List (FunctorRun A))
    (todo : List (Fin n × A.Message)) (σ : State (P.policy concurrency) A C) : Prop where
  ta : σ.policy.ta = σ₀.policy.ta
  done : σ.done = σ₀.done
  drained : ∀ r, r < s → σ.queue r = []
  stage : ∀ run ∈ log, run.stage = s
  accounts : Accounts σ₀ σ log todo

theorem InBatch.setPc (h : InBatch σ₀ s log todo σ) (pc : Pc (P.policy concurrency) A) :
    InBatch σ₀ s log todo (σ.setPc t pc) :=
  ⟨h.ta, h.done, h.drained, h.stage, ⟨h.accounts.popped, h.accounts.arrived, h.accounts.queue⟩⟩

theorem InBatch.setPolicy (h : InBatch σ₀ s log todo σ) (policy : P.Shared)
    (hta : policy.ta = σ.policy.ta) : InBatch σ₀ s log todo (σ.setPolicy policy) :=
  ⟨hta.trans h.ta, h.done, h.drained, h.stage,
    ⟨h.accounts.popped, h.accounts.arrived, h.accounts.queue⟩⟩

theorem InBatch.pop (h : InBatch σ₀ s log [] σ) {m : A.Message} {rest : List A.Message}
    (hq : σ.queue s = m :: rest) (v : A.Env) :
    InBatch σ₀ s (log ++ [⟨s, m, v⟩]) (A.functor s m v) (σ.pop s m rest) := by
  refine ⟨h.ta, h.done, fun r hr => ?_, fun run hrun => ?_, h.accounts.pop hq v⟩
  · rw [State.pop_queue, Function.update_of_ne (Fin.ne_of_lt hr)]
    exact h.drained r hr
  · rcases List.mem_append.mp hrun with hbefore | hnow
    · exact h.stage run hbefore
    · rw [List.mem_singleton.mp hnow]

theorem InBatch.push {target : Fin n} {m : A.Message}
    (h : InBatch σ₀ s log ((target, m) :: todo) σ) (htarget : s < target) :
    InBatch σ₀ s log todo ((σ.push target m).forward s m) := by
  refine ⟨h.ta, h.done, fun r hr => ?_, h.stage, h.accounts.push s⟩
  rw [State.forward_queue, State.push_queue,
    Function.update_of_ne (Fin.ne_of_lt (hr.trans htarget))]
  exact h.drained r hr

/-- A step to a place inside the call. -/
theorem ProcessReturns.step (τ : State (P.policy concurrency) A C)
    (pc : P.Entropy × A.Env → Pc (P.policy concurrency) A)
    (hstep : ∀ input, threadStep σ t input.1 input.2 = some (τ.setPc t (pc input)))
    (hpc : ∀ input, (pc input).atLoop = false)
    (h : ∀ input, ProcessReturns t Q (τ.setPc t (pc input))) : ProcessReturns t Q σ := by
  refine .next (fun input => τ.setPc t (pc input)) hstep (fun input => ?_) h
  rw [State.setPc_pc, Function.update_self]
  exact hpc input

/-- The functor makes its dispatches and returns; none of them goes to its own stage. -/
theorem processReturns_running {m : A.Message} {rest : List A.Message}
    (htodo : ∀ d ∈ todo, s < d.1)
    (hpoll : ∀ σ, InBatch σ₀ s log [] σ → σ.queue s = rest → σ.pc t = .poll s →
      ProcessReturns t Q σ)
    (h : InBatch σ₀ s log todo σ) (hq : σ.queue s = rest) (hpc : σ.pc t = .running s m todo) :
    ProcessReturns t Q σ := by
  induction todo generalizing σ with
  | nil =>
    refine .step σ (fun _ => .poll s) (fun _ => ?_) (fun _ => rfl) fun _ => ?_
    · simp only [threadStep, hpc, afterProcess_true]
    · exact hpoll _ (h.setPc _) hq (Function.update_self _ _ _)
  | cons d todo ih =>
    obtain ⟨target, m'⟩ := d
    have htarget : s < target := htodo _ List.mem_cons_self
    -- the push, and then the bookkeeping of the dispatcher
    let σ₁ := ((σ.push target m').forward s m').setPc t (.pushed s m target todo)
    let σ₂ := σ₁.setPolicy ((P.policy concurrency).dispatched σ₁.policy target)
    have hpc₁ : σ₁.pc t = .pushed s m target todo := Function.update_self _ _ _
    have h₁ : InBatch σ₀ s log todo σ₁ := (h.push htarget).setPc _
    have hq₁ : σ₁.queue s = rest := by
      rw [State.setPc_queue, State.forward_queue, State.push_queue,
        Function.update_of_ne (Fin.ne_of_lt htarget), hq]
    have h₂ : InBatch σ₀ s log todo σ₂ :=
      h₁.setPolicy ((P.policy concurrency).dispatched σ₁.policy target) rfl
    refine .step ((σ.push target m').forward s m') (fun _ => .pushed s m target todo)
      (fun _ => ?_) (fun _ => rfl) fun _ => ?_
    · simp only [threadStep, hpc]
    refine .step σ₂ (fun _ => .running s m todo) (fun _ => ?_) (fun _ => rfl) fun _ => ?_
    · simp only [threadStep, hpc₁, σ₂, σ₁]
    · exact ih (fun d hd => htodo d (List.mem_cons_of_mem _ hd)) (h₂.setPc _) hq₁
        (Function.update_self _ _ _)

/-- The batch at a stage ends and leaves it empty. -/
theorem processReturns_poll (hA : DispatchesForward A)
    (hQ : ∀ σ log, InBatch σ₀ s log [] σ → σ.queue s = [] → σ.pc t = .loop → Q σ)
    (h : InBatch σ₀ s log [] σ) (hpc : σ.pc t = .poll s) : ProcessReturns t Q σ := by
  -- the induction is on the messages at `s`, of which no new ones come
  induction hq : σ.queue s generalizing σ log with
  | nil =>
    let σ₁ := σ.setPc t (.batchEnd s ⟨false⟩)
    let σ₂ := (σ₁.setPolicy ((P.policy concurrency).batchEnd σ₁.policy false)).setPc t .loop
    have hpc₁ : σ₁.pc t = .batchEnd s ⟨false⟩ := Function.update_self _ _ _
    have h₂ : InBatch σ₀ s log [] σ₂ :=
      ((h.setPc _).setPolicy ((P.policy concurrency).batchEnd σ₁.policy false) rfl).setPc _
    refine .step σ (fun _ => .batchEnd s ⟨false⟩) (fun _ => ?_) (fun _ => rfl) fun _ => ?_
    · simp only [threadStep, hpc, hq, afterProcess_false]
    -- the end of the batch is the end of the call
    refine .last (fun _ => σ₂) (fun _ => ?_) (fun _ => ?_) fun _ => ?_
    · simp only [threadStep, hpc₁, σ₂, σ₁]
    · simp only [σ₂, State.setPc_pc, Function.update_self, Pc.atLoop]
    · exact hQ σ₂ log h₂ hq (Function.update_self _ _ _)
  | cons m rest ih =>
    refine .step (σ.pop s m rest) (fun input => .running s m (A.functor s m input.2))
      (fun _ => ?_) (fun _ => rfl) fun input => ?_
    · simp only [threadStep, hpc, hq]
    · refine processReturns_running (hA s m input.2) (fun σ h hq hpc => ih h hpc hq)
        ((h.pop hq input.2).setPc _) ?_ (Function.update_self _ _ _)
      rw [State.setPc_queue, State.pop_queue, Function.update_self]

/-- `nextStage` draws nothing and returns. -/
theorem processReturns_nextStage [Subsingleton P.Entropy] {shared shared' : P.Shared} {pc : P.Pc}
    (h : Call.Runs t shared pc shared' s) (hshared : σ.policy = shared)
    (hpc : σ.pc t = .nextStage pc)
    (hQ : ProcessReturns t Q ((σ.setPolicy shared').setPc t (.poll s))) :
    ProcessReturns t Q σ := by
  induction h generalizing σ with
  | @last _ shared' pc s e hstep =>
    refine .step (σ.setPolicy shared') (fun _ => .poll s) (fun input => ?_) (fun _ => rfl)
      fun _ => hQ
    rw [Subsingleton.elim e input.1] at hstep
    simp only [threadStep, hpc, hshared, hstep]
  | @next _ shared₁ shared' pc pc' s e hstep _ ih =>
    refine .step (σ.setPolicy shared₁) (fun _ => .nextStage pc') (fun input => ?_)
      (fun _ => rfl) fun _ => ?_
    · rw [Subsingleton.elim e input.1] at hstep
      simp only [threadStep, hpc, hshared, hstep]
    · apply ih rfl (Function.update_self _ _ _)
      simpa only [State.setPc, State.setPolicy, Function.update_idem] using hQ

end Batch

/-! ## The sweep -/

section Sweep

variable {concurrency : Fin n → SizeT} {A : Application n} {t : Fin T}
  {σ₀ σ : State ((RoundRobin.chooser n T).policy concurrency) A C}

/-- Thread `t` is the only one with an assignment, and at the test of `done()`. -/
structure OnlyThread (t : Fin T)
    (σ : State ((RoundRobin.chooser n T).policy concurrency) A C) : Prop where
  pc : σ.pc t = .loop
  done : σ.done = false
  counted : σ.policy.ta.Counted
  limit : σ.policy.ta.maximumConcurrency = concurrency
  others : ∀ u, u ≠ t → σ.policy.ta.threadAssignment u = none

/-- The functors have run as in `log`, one stage after the other, and only at the first `k`. -/
structure LoggedUpTo (σ₀ : State ((RoundRobin.chooser n T).policy concurrency) A C) (k : Nat)
    (σ : State ((RoundRobin.chooser n T).policy concurrency) A C) (log : List (FunctorRun A)) :
    Prop where
  accounts : Accounts σ₀ σ log []
  upward : log.Pairwise fun run run' => run.stage ≤ run'.stage
  before : ∀ run ∈ log, run.stage < k

/-- After `k` calls of the sweep: the thread goes on to stage `k`, and the stages before it are
    empty. -/
structure Swept (t : Fin T) (σ₀ : State ((RoundRobin.chooser n T).policy concurrency) A C)
    (k : Nat) (σ : State ((RoundRobin.chooser n T).policy concurrency) A C) : Prop where
  only : OnlyThread t σ
  next : ∀ s : Fin n, s = k → upFrom (σ.policy.ta.threadAssignment t) s = 0
  drained : ∀ s : Fin n, s < k → σ.queue s = []
  logged : ∃ log, LoggedUpTo σ₀ k σ log

/-- The batch at stage `k` continues the log. -/
theorem LoggedUpTo.batch {σ₁ σ₂ : State ((RoundRobin.chooser n T).policy concurrency) A C}
    {log log' : List (FunctorRun A)} {s : Fin n} (h : LoggedUpTo σ₀ s σ₁ log)
    (h' : InBatch σ₁ s log' [] σ₂) : LoggedUpTo σ₀ (s + 1) σ₂ (log ++ log') where
  accounts := h.accounts.trans h'.accounts
  upward := by
    refine List.pairwise_append.mpr ⟨h.upward, ?_, fun run hrun run' hrun' => ?_⟩
    · refine List.pairwise_of_forall_mem_list fun run hrun run' hrun' => ?_
      rw [h'.stage run hrun, h'.stage run' hrun']
    · rw [h'.stage run' hrun']
      exact Fin.le_def.mpr (h.before run hrun).le
  before run hrun := by
    rcases List.mem_append.mp hrun with hbefore | hnow
    · exact (h.before run hbefore).trans (Nat.lt_succ_self s)
    · rw [h'.stage run hnow]
      exact Nat.lt_succ_self s

/-- Once its own slot is given up, every stage is open to the thread. -/
theorem OnlyThread.hasRoom (h : OnlyThread t σ) (hopen : ∀ s, 1 ≤ concurrency s) (s : Fin n) :
    (σ.policy.ta.removeCurrentAssignment t).2.HasRoom s := by
  have hnone : (σ.policy.ta.removeCurrentAssignment t).2.threadAssignment = fun _ => none := by
    funext u
    by_cases hu : u = t
    · subst u
      exact ThreadAssignments.removeCurrentAssignment_self _ t
    · rw [ThreadAssignments.removeCurrentAssignment_of_ne _ hu]
      exact h.others u hu
  have hcount := (h.counted.removeCurrentAssignment t).1.count s
  rw [hnone, tally_none] at hcount
  have hs := hopen s
  rw [ThreadAssignments.HasRoom, ThreadAssignments.removeCurrentAssignment_maximumConcurrency,
    h.limit]
  bv_omega

/-- One call of `process` in the sweep. -/
theorem Swept.process (hn : n < 2 ^ 64) (hopen : ∀ s, 1 ≤ concurrency s)
    (hA : DispatchesForward A) {k : Nat} (hk : k < n) (h : Swept t σ₀ k σ) :
    ProcessReturns t (Swept t σ₀ (k + 1)) σ := by
  let s : Fin n := ⟨k, hk⟩
  have hrank := (RoundRobin.incrementStage_countsUp hn).ranks
  -- `nextStage` returns stage `k`, the first one it tries
  have hs : MinimalFor (σ.policy.ta.removeCurrentAssignment t).2.HasRoom
      (upFrom (σ.policy.ta.threadAssignment t)) s := by
    refine ⟨h.only.hasRoom hopen s, fun r _ _ => ?_⟩
    rw [h.next s rfl]
    exact Nat.zero_le _
  have hcall : (RoundRobin.chooser n T).nextStage n (fun _ => ()) t σ.policy.own σ.policy.ta =
      some (s, _, _) := nextStage_walk hrank σ.policy.own hs _
  have hmoves := nextStage_moves hcall
  have hcounted := nextStage_counted h.only.counted hcall
  obtain ⟨shared, hruns, -, hta⟩ := nextStage_runs hcall
  rw [← hta] at hmoves hcounted
  -- into `nextStage`, through it, and the batch at stage `k`
  let σ₁ := σ.setPc t (.nextStage .enter)
  have hpc₁ : σ₁.pc t = .nextStage .enter := Function.update_self _ _ _
  refine .step σ (fun _ => .nextStage .enter) (fun _ => ?_) (fun _ => rfl) fun _ => ?_
  · simp only [threadStep, h.only.pc, h.only.done, Bool.false_eq_true, if_false]
  refine processReturns_nextStage (σ := σ₁) hruns rfl hpc₁ ?_
  let σ₂ := (σ₁.setPolicy shared).setPc t (.poll s)
  have hbatch : InBatch σ₂ s [] [] σ₂ :=
    ⟨rfl, rfl, fun r hr => h.drained r hr, List.forall_mem_nil _, .refl σ₂⟩
  refine processReturns_poll hA (fun σ' log' hσ' hempty hpc' => ?_) hbatch
    (Function.update_self _ _ _)
  obtain ⟨log, hlog⟩ := h.logged
  have hassigned : σ'.policy.ta.threadAssignment t = some s := by
    rw [hσ'.ta]
    exact hcounted.2
  refine ⟨⟨hpc', hσ'.done.trans h.only.done, ?_, ?_, fun u hu => ?_⟩, fun r hr => ?_,
    fun r hr => ?_, ⟨log ++ log', LoggedUpTo.batch (s := s) ?_ hσ'⟩⟩
  · rw [hσ'.ta]
    exact hcounted.1
  · rw [hσ'.ta]
    exact hmoves.maximumConcurrency.trans h.only.limit
  · rw [hσ'.ta]
    exact (hmoves.others u hu).trans (h.only.others u hu)
  · have hlt : s < r := by
      rw [Fin.lt_def]
      dsimp only [s]
      omega
    rw [hassigned, upFrom, if_pos hlt]
    dsimp only [s]
    omega
  · rcases Nat.lt_succ_iff_lt_or_eq.mp hr with hlt | heq
    · exact hσ'.drained r hlt
    · rwa [show r = s from Fin.ext heq]
  · exact ⟨⟨hlog.accounts.popped, hlog.accounts.arrived, hlog.accounts.queue⟩, hlog.upward,
      hlog.before⟩

/-- As many calls of `process` as there are stages leave all queues empty, and each stage has
    processed, once and in this order, what was in its queue and then what the functors that have
    run, one stage after the other, have dispatched to it. -/
theorem sweep_drains (hn : n < 2 ^ 64) (hopen : ∀ s, 1 ≤ concurrency s)
    (hA : DispatchesForward A) (hσ : OnlyThread t σ)
    (hstart : ∀ s, σ.policy.ta.threadAssignment t = some s → s.val + 1 = n)
    (inputs : Nat → Unit × A.Env) :
    ∃ fuel σ' log, processCalls t fuel n inputs σ = some σ' ∧ (∀ s, σ'.queue s = []) ∧
      log.Pairwise (fun run run' => run.stage ≤ run'.stage) ∧
      ∀ s, σ'.popped s = σ.popped s ++ processedAt s log ∧
        σ'.arrived s = σ.arrived s ++ dispatchedTo s log ∧
        processedAt s log = σ.queue s ++ dispatchedTo s log := by
  have hzero : Swept t σ 0 σ := by
    refine ⟨hσ, fun s hs => ?_, fun s hs => absurd hs (Nat.not_lt_zero _),
      [], .refl σ, .nil, List.forall_mem_nil _⟩
    cases hassigned : σ.policy.ta.threadAssignment t with
    | none => exact hs
    | some p =>
      have hp := hstart p hassigned
      have hnot : ¬ p < s := by
        rw [Fin.lt_def]
        omega
      rw [upFrom, if_neg hnot]
      omega
  have hprocess : ∀ k σ', 0 ≤ k → k < 0 + n → Swept t σ k σ' →
      ProcessReturns t (Swept t σ (k + 1)) σ' := by
    intro k σ' _ hk h
    exact h.process hn hopen hA (by omega)
  obtain ⟨fuel, σ', hcalls, hswept⟩ := exists_runCalls hprocess hzero inputs
  rw [Nat.zero_add] at hswept
  obtain ⟨log, hlog⟩ := hswept.logged
  have hempty : ∀ s, σ'.queue s = [] := fun s => hswept.drained s s.isLt
  refine ⟨fuel, σ', log, hcalls, hempty, hlog.upward, fun s => ⟨hlog.accounts.popped s, ?_, ?_⟩⟩
  · exact (List.append_nil _).symm.trans (hlog.accounts.arrived s)
  · have hqueue := hlog.accounts.queue s
    rw [hempty s, List.append_nil] at hqueue
    exact (List.append_nil _).symm.trans hqueue

end Sweep

/-- Every stage dispatches what it processes to all later stages. -/
def broadcast (n : Nat) : Application n where
  Message := Nat
  Env := Unit
  env := ()
  functor s m _ := ((List.finRange n).filter fun r => s < r).map fun r => (r, m)
  mayThrow := false
  entry _ := true

theorem broadcast_dispatchesForward (n : Nat) : DispatchesForward (broadcast n) := by
  intro s m env d hd
  obtain ⟨r, hr, rfl⟩ := List.mem_map.mp hd
  exact of_decide_eq_true (List.mem_filter.mp hr).2

/-- Before `start()`, with messages in the queues. -/
def filled (concurrency : Fin n → SizeT) {A : Application n} (queue : Fin n → List A.Message) :
    State ((RoundRobin.chooser n T).policy concurrency) A C :=
  { State.fresh (Shared.fresh concurrency ()) with queue := queue }

theorem filled_onlyThread (concurrency : Fin n → SizeT) {A : Application n}
    (queue : Fin n → List A.Message) (t : Fin T) :
    OnlyThread t (filled (C := C) concurrency queue) :=
  ⟨rfl, rfl, .init concurrency, rfl, fun _ _ => rfl⟩

/-- Three stages with a message in each queue. -/
theorem sweep_drains_broadcast :
    ∃ fuel σ' log, processCalls 0 fuel 3 (fun _ => ((), ()))
        (filled (T := 1) (C := 0) (A := broadcast 3) (fun _ => 1) fun s => [s.val]) = some σ' ∧
      (∀ s, σ'.queue s = []) ∧ log.Pairwise (fun run run' => run.stage ≤ run'.stage) ∧
      ∀ s, σ'.popped s = processedAt s log ∧ σ'.arrived s = dispatchedTo s log ∧
        processedAt s log = s.val :: dispatchedTo s log :=
  sweep_drains (by decide) (fun _ => by decide) (broadcast_dispatchesForward 3)
    (filled_onlyThread (fun _ => 1) _ 0) (fun _ h => nomatch h) fun _ => ((), ())

/-- The first stage sends its message on to the two others, the second one sends both on. -/
example : (processCalls 0 30 3 (fun _ => ((), ()))
    (filled (T := 1) (C := 0) (A := broadcast 3) (fun _ => 1) fun s => [s.val])).map
      (fun σ => [σ.popped 0, σ.popped 1, σ.popped 2]) =
        some ([[0], [1, 0], [2, 0, 1, 0]] : List (List Nat)) := by
  rfl

end Wield.SchedulerBase
