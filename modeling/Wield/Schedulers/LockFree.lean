import Wield.Schedulers.Calls
import Wield.Schedulers.RoundRobin
import Wield.Schedulers.SRPT
import Wield.Theory.Ranked
import Wield.Utils.ThreadAssignments.Size

/-!
# `nextStage` is lock-free under the walking policies

With no more threads than places there is always a stage with room for a thread inside `nextStage`,
and as long as no counter changes each of its accesses brings it nearer to one.  A counter changes
at most twice in a call.  So the accesses that any number of interleaved calls take are bounded by
the number of calls that return.
-/

namespace Wield.StageChooser

open Theory ThreadAssignments

variable {n T : Nat}

/-! ## What is left of a call -/

/-- How often the call will still change a counter. -/
def Call.changes {P : StageChooser n T} : P.Pc → Nat
  | .enter | .decrement _ => 2
  | .clear _ | .start _ | .choose _ | .load _ _ | .exchange _ _ _ | .refused _ _ => 1
  | .record _ | .assigned _ => 0

/-- How many accesses a call takes at most while no counter changes. -/
abbrev accessBound (n : Nat) : Nat := 3 * n + 9

/-- More than a call of one of `T` threads can cost. -/
abbrev callBound (n T : Nat) : Nat := 2 * (T * accessBound n) + accessBound n + 1

section Walk

variable {State : Type} {next : StageEnum n → StageEnum n}
  {start : State → StageEnum n → StageEnum n} {batchEnd : State → Bool → State}
  {init : (Fin n → SizeT) → State → Prop}

/-- How many accesses are left of a call while no counter changes: three for each stage that the
    walk passes. -/
noncomputable def Call.accesses (rank : StageEnum n → Fin n → Nat) (ta : ThreadAssignments n T) :
    (walk (T := T) State next start batchEnd init).Pc → Nat
  | .assigned _ => 1
  | .record _ => 2
  | .exchange s seen c =>
    if ta.threadsPerStage s = seen then 3 else 3 * distance rank ta.HasRoom c + 7
  | .load none c => 3 * distance rank ta.HasRoom c + 7
  | .load (some s) c => if ta.HasRoom s then 4 else 3 * distance rank ta.HasRoom c + 7
  | .refused _ c => 3 * distance rank ta.HasRoom c + 6
  | .choose c => 3 * distance rank ta.HasRoom c + 5
  | .start _ => 3 * n + 6
  | .clear _ => 3 * n + 7
  | .decrement _ => 3 * n + 8
  | .enter => 3 * n + 9

variable {rank : StageEnum n → Fin n → Nat} {concurrency : Fin n → SizeT}

theorem Call.accesses_le (hrank : Ranks next rank) (ta : ThreadAssignments n T)
    (p : (walk (T := T) State next start batchEnd init).Pc) :
    Call.accesses rank ta p ≤ accessBound n := by
  have hdist := fun c => hrank.distance_le ta.HasRoom c
  cases p with
  | load next c =>
    have hc := hdist c
    cases next with
    | none =>
      simp only [accesses, accessBound]
      omega
    | some s =>
      simp only [accesses, accessBound]
      split <;> omega
  | exchange s seen c =>
    have hc := hdist c
    simp only [accesses, accessBound]
    split <;> omega
  | refused next c =>
    have hc := hdist c
    simp only [accesses, accessBound]
    omega
  | choose c =>
    have hc := hdist c
    simp only [accesses, accessBound]
    omega
  | _ =>
    simp only [accesses, accessBound]
    omega

theorem Call.accesses_pos (rank : StageEnum n → Fin n → Nat) (ta : ThreadAssignments n T)
    (p : (walk (T := T) State next start batchEnd init).Pc) : 0 < Call.accesses rank ta p := by
  cases p with
  | load next c =>
    cases next with
    | none => exact Nat.succ_pos _
    | some s =>
      simp only [accesses]
      split <;> omega
  | exchange s seen c =>
    simp only [accesses]
    split <;> omega
  | _ =>
    simp only [accesses]
    omega

/-- Only the counters and the limits matter. -/
theorem Call.accesses_congr {ta ta' : ThreadAssignments n T}
    (hcount : ta'.threadsPerStage = ta.threadsPerStage)
    (hlimit : ta'.maximumConcurrency = ta.maximumConcurrency)
    (p : (walk (T := T) State next start batchEnd init).Pc) :
    Call.accesses rank ta' p = Call.accesses rank ta p := by
  have hroom : ta'.HasRoom = ta.HasRoom := by
    funext s
    rw [HasRoom, HasRoom, hcount, hlimit]
  cases p with
  | load next c =>
    cases next with
    | none => simp only [accesses, hroom]
    | some s => simp only [accesses, hroom]
  | _ => simp only [accesses, hroom, hcount]

/-- What an access does to the measures: a counter is changed, or what is left gets shorter. -/
structure Call.Advances (rank : StageEnum n → Fin n → Nat) (ta ta' : ThreadAssignments n T)
    (p : (walk (T := T) State next start batchEnd init).Pc)
    (r : (walk (T := T) State next start batchEnd init).Pc ⊕ Fin n) : Prop where
  changes : r.getLeft?.elim 0 Call.changes ≤ Call.changes p
  progress : r.getLeft?.elim 0 Call.changes < Call.changes p ∨
    ta'.threadsPerStage = ta.threadsPerStage ∧ ta'.maximumConcurrency = ta.maximumConcurrency ∧
      r.getLeft?.elim 0 (Call.accesses rank ta') < Call.accesses rank ta p

theorem Call.step_advances (hrank : Ranks next rank) (hplaces : T ≤ ∑ s, (concurrency s).toNat)
    {σ σ' : (walk (T := T) State next start batchEnd init).Shared} (h : Slots concurrency σ)
    {t : Fin T} {e : Unit} {p : (walk (T := T) State next start batchEnd init).Pc}
    (hp : Call.Consistent concurrency (σ.ta.threadAssignment t) (σ.holding t) p)
    {r : (walk (T := T) State next start batchEnd init).Pc ⊕ Fin n}
    (hr : Call.step σ t e p = (σ', r)) : Call.Advances rank σ.ta σ'.ta p r := by
  -- a thread without a slot leaves room somewhere
  have room : σ.holding t = none → ∃ s, σ.ta.HasRoom s := by
    intro hnone
    apply h.counted.exists_hasRoom hnone
    rw [h.limit]
    exact hplaces
  cases p with
  | enter =>
    simp only [Call.step] at hr
    split at hr
    · cases hr
      exact ⟨le_rfl, .inr ⟨rfl, rfl, Nat.lt_succ_self _⟩⟩
    · cases hr
      exact ⟨Nat.le_succ _, .inl (Nat.lt_succ_self _)⟩
  | decrement s =>
    cases hr
    exact ⟨Nat.le_succ _, .inl (Nat.lt_succ_self _)⟩
  | clear s =>
    cases hr
    exact ⟨le_rfl, .inr ⟨rfl, rfl, Nat.lt_succ_self _⟩⟩
  | start original =>
    cases hr
    have hdist := hrank.distance_le σ.ta.HasRoom (start σ.own original)
    refine ⟨le_rfl, .inr ⟨rfl, rfl, ?_⟩⟩
    simp only [Sum.getLeft?_inl, Option.elim_some, accesses]
    omega
  | choose c =>
    cases hr
    refine ⟨le_rfl, .inr ⟨rfl, rfl, ?_⟩⟩
    have hnext := hrank.distance_next (room hp.2) c
    simp only [Sum.getLeft?_inl, Option.elim_some]
    cases hc : next c with
    | none =>
      rw [hc] at hnext
      have hlt := hnext.resolve_left id
      simp only [accesses]
      omega
    | some s =>
      rw [hc] at hnext
      by_cases hs : σ.ta.HasRoom s
      · simp only [accesses, if_pos hs]
        omega
      · have hlt := hnext.resolve_left hs
        simp only [accesses, if_neg hs]
        omega
  | load next c =>
    cases next with
    | none =>
      cases hr
      exact ⟨le_rfl, .inr ⟨rfl, rfl, Nat.lt_succ_self _⟩⟩
    | some s =>
      simp only [Call.step] at hr
      split at hr
      · rename_i hs
        cases hr
        refine ⟨le_rfl, .inr ⟨rfl, rfl, ?_⟩⟩
        have hs : σ.ta.HasRoom s := hs
        simp only [Sum.getLeft?_inl, Option.elim_some, accesses, if_pos hs, if_true]
        omega
      · rename_i hs
        cases hr
        refine ⟨le_rfl, .inr ⟨rfl, rfl, ?_⟩⟩
        have hs : ¬ σ.ta.HasRoom s := hs
        simp only [Sum.getLeft?_inl, Option.elim_some, accesses, if_neg hs]
        omega
  | exchange s seen c =>
    simp only [Call.step] at hr
    split at hr
    · cases hr
      exact ⟨Nat.zero_le _, .inl Nat.one_pos⟩
    -- another thread has changed the counter since the load
    · rename_i hfail
      cases hr
      refine ⟨le_rfl, .inr ⟨rfl, rfl, ?_⟩⟩
      have hseen : ¬ σ.ta.threadsPerStage s = seen := by
        intro heq
        rw [compareExchange, if_pos heq] at hfail
        cases hfail
      simp only [Sum.getLeft?_inl, Option.elim_some, accesses, if_neg hseen]
      omega
  | record s =>
    cases hr
    exact ⟨le_rfl, .inr ⟨rfl, rfl, Nat.lt_succ_self _⟩⟩
  | refused next c =>
    cases hr
    exact ⟨le_rfl, .inr ⟨rfl, rfl, Nat.lt_succ_self _⟩⟩
  | assigned s =>
    cases hr
    exact ⟨le_rfl, .inr ⟨rfl, rfl, Nat.lt_succ_self _⟩⟩

/-- A bound on the accesses of all calls in progress, where each counter change may send every
    thread on a new search. -/
noncomputable def callsCost (rank : StageEnum n → Fin n → Nat) (ta : ThreadAssignments n T)
    (call : Fin T → Option (walk (T := T) State next start batchEnd init).Pc) : Nat :=
  (∑ t, (call t).elim 0 Call.changes) * (T * accessBound n) +
    ∑ t, (call t).elim 0 (Call.accesses rank ta)

/-- Every access of every call lowers the bound. -/
theorem Call.Advances.callsCost_lt (hrank : Ranks next rank) {ta ta' : ThreadAssignments n T}
    {p : (walk (T := T) State next start batchEnd init).Pc}
    {r : (walk (T := T) State next start batchEnd init).Pc ⊕ Fin n}
    (h : Call.Advances rank ta ta' p r)
    (call : Fin T → Option (walk (T := T) State next start batchEnd init).Pc) {t : Fin T}
    (ht : call t = some p) :
    callsCost rank ta' (Function.update call t r.getLeft?) < callsCost rank ta call := by
  have hchanges := sum_update_add (fun _ q => q.elim 0 Call.changes) call t r.getLeft?
  rw [ht] at hchanges
  simp only [Option.elim_some] at hchanges
  have hadvance := h.changes
  unfold callsCost
  rcases h.progress with hlt | ⟨hcount, hlimit, hlt⟩
  · -- one change less pays for whatever the searches have become
    have hbound : ∑ u, (Function.update call t r.getLeft? u).elim 0 (Call.accesses rank ta') ≤
        T * accessBound n := by
      calc ∑ u, (Function.update call t r.getLeft? u).elim 0 (Call.accesses rank ta')
          ≤ ∑ _u : Fin T, accessBound n := by
            refine Finset.sum_le_sum fun u _ => ?_
            cases Function.update call t r.getLeft? u with
            | none => exact Nat.zero_le _
            | some q => exact Call.accesses_le hrank ta' q
        _ = T * accessBound n := by
            rw [Finset.sum_const, Finset.card_univ, Fintype.card_fin, smul_eq_mul]
    have hpos : 0 < ∑ u, (call u).elim 0 (Call.accesses rank ta) := by
      refine Nat.lt_of_lt_of_le (Call.accesses_pos rank ta p) ?_
      have hle := Finset.single_le_sum (f := fun u => (call u).elim 0 (Call.accesses rank ta))
        (fun _ _ => Nat.zero_le _) (Finset.mem_univ t)
      simp only [ht, Option.elim_some] at hle
      exact hle
    have hless : (∑ u, (Function.update call t r.getLeft? u).elim 0 Call.changes + 1) *
        (T * accessBound n) ≤ (∑ u, (call u).elim 0 Call.changes) * (T * accessBound n) :=
      Nat.mul_le_mul_right _ (by omega)
    rw [Nat.succ_mul] at hless
    omega
  · -- the searches of the other threads are what they were
    have haccesses := sum_update_add (fun _ q => q.elim 0 (Call.accesses rank ta)) call t r.getLeft?
    rw [ht] at haccesses
    have hsame : ∀ q : Option (walk (T := T) State next start batchEnd init).Pc,
        q.elim 0 (Call.accesses rank ta') = q.elim 0 (Call.accesses rank ta) := by
      intro q
      cases q with
      | none => rfl
      | some q => exact Call.accesses_congr hcount hlimit q
    rw [hsame] at hlt
    simp only [hsame]
    simp only [Option.elim_some] at haccesses
    have hless : (∑ u, (Function.update call t r.getLeft? u).elim 0 Call.changes) *
        (T * accessBound n) ≤ (∑ u, (call u).elim 0 Call.changes) * (T * accessBound n) :=
      Nat.mul_le_mul_right _ (by omega)
    omega

theorem callsCost_enter (rank : StageEnum n → Fin n → Nat) (ta : ThreadAssignments n T)
    (call : Fin T → Option (walk (T := T) State next start batchEnd init).Pc) {t : Fin T}
    (ht : call t = none) :
    callsCost rank ta (Function.update call t (some .enter)) + 1 =
      callsCost rank ta call + callBound n T := by
  have hchanges := sum_update_add (fun _ q => q.elim 0 Call.changes) call t (some .enter)
  have haccesses := sum_update_add (fun _ q => q.elim 0 (Call.accesses rank ta)) call t
    (some .enter)
  rw [ht] at hchanges haccesses
  simp only [Option.elim_none, Option.elim_some, Nat.add_zero, Call.changes,
    Call.accesses] at hchanges haccesses
  rw [callsCost, callsCost, hchanges, haccesses, Nat.add_mul, callBound, accessBound]
  omega

end Walk

/-! ## Interleaved calls -/

section Calls

variable {P : StageChooser n T}

/-- Where a thread is inside `nextStage`. -/
def Caller.call : P.Caller → Option P.Pc
  | .inside pc => some pc
  | .outside _ => none

@[simp] theorem Caller.call_inside (pc : P.Pc) : (Caller.inside pc).call = some pc := rfl

@[simp] theorem Caller.call_outside (last : StageEnum n) :
    (Caller.outside last : P.Caller).call = none := rfl

/-- The action is a step of a thread: it calls `nextStage` or takes an access of its call. -/
def Calls.Action.threadStep : Calls.Action P → Nat
  | .call _ | .access _ _ => 1
  | .batchEnd _ | .dispatched _ => 0

/-- The action makes a call of `nextStage` return. -/
def Calls.returned (σ : Calls P) : Calls.Action P → Nat
  | .access t entropy =>
    match σ.caller t with
    | .inside pc => if (Call.step σ.shared t entropy pc).2.isRight then 1 else 0
    | .outside _ => 0
  | .call _ | .batchEnd _ | .dispatched _ => 0

end Calls

section Walk

variable {State : Type} {next : StageEnum n → StageEnum n}
  {start : State → StageEnum n → StageEnum n} {batchEnd : State → Bool → State}
  {init : (Fin n → SizeT) → State → Prop} {rank : StageEnum n → Fin n → Nat}
  {concurrency : Fin n → SizeT}

/-- What all threads may cost until the next returns, where one outside of `nextStage` may call
    it. -/
noncomputable def Calls.cost (rank : StageEnum n → Fin n → Nat)
    (σ : Calls (walk (T := T) State next start batchEnd init)) : Nat :=
  callsCost rank σ.shared.ta (fun t => (σ.caller t).call) +
    ∑ t, (σ.caller t).call.elim (callBound n T) fun _ => 0

theorem Calls.cost_le (hrank : Ranks next rank)
    (σ : Calls (walk (T := T) State next start batchEnd init)) :
    σ.cost rank ≤ T * callBound n T := by
  -- each thread stays within the bound
  have hthread : ∀ t, (σ.caller t).call.elim 0 Call.changes * (T * accessBound n) +
      (σ.caller t).call.elim 0 (Call.accesses rank σ.shared.ta) +
      (σ.caller t).call.elim (callBound n T) (fun _ => 0) ≤ callBound n T := by
    intro t
    cases (σ.caller t).call with
    | none => simp
    | some p =>
      have hchanges : Call.changes p * (T * accessBound n) ≤ 2 * (T * accessBound n) :=
        Nat.mul_le_mul_right _ (by cases p <;> simp [Call.changes])
      have haccesses := Call.accesses_le hrank σ.shared.ta p
      simp only [Option.elim_some, callBound]
      omega
  calc σ.cost rank
      = ∑ t, ((σ.caller t).call.elim 0 Call.changes * (T * accessBound n) +
          (σ.caller t).call.elim 0 (Call.accesses rank σ.shared.ta) +
          (σ.caller t).call.elim (callBound n T) fun _ => 0) := by
        rw [Finset.sum_add_distrib, Finset.sum_add_distrib, ← Finset.sum_mul]
        rfl
    _ ≤ ∑ _t : Fin T, callBound n T := Finset.sum_le_sum fun t _ => hthread t
    _ = T * callBound n T := by
        rw [Finset.sum_const, Finset.card_univ, Fintype.card_fin, smul_eq_mul]

/-- What a step of thread `t` leaves. -/
theorem Calls.cost_update (rank : StageEnum n → Fin n → Nat)
    (σ : Calls (walk (T := T) State next start batchEnd init)) (t : Fin T)
    (shared : (walk (T := T) State next start batchEnd init).Shared)
    (caller : (walk (T := T) State next start batchEnd init).Caller) :
    Calls.cost rank { shared := shared, caller := Function.update σ.caller t caller } +
        (σ.caller t).call.elim (callBound n T) (fun _ => 0) =
      callsCost rank shared.ta (Function.update (fun u => (σ.caller u).call) t caller.call) +
        (∑ u, (σ.caller u).call.elim (callBound n T) (fun _ => 0)) +
        caller.call.elim (callBound n T) fun _ => 0 := by
  have hcall : (fun u => (Function.update σ.caller t caller u).call) =
      Function.update (fun u => (σ.caller u).call) t caller.call := by
    funext u
    exact Function.apply_update (fun _ caller => Caller.call caller) σ.caller t caller u
  have hidle := sum_update_add
    (fun _ caller => (Caller.call caller).elim (callBound n T) fun _ => 0) σ.caller t caller
  rw [Calls.cost, hcall, add_assoc, hidle, add_assoc]

theorem Calls.step_cost (hrank : Ranks next rank) (hplaces : T ≤ ∑ s, (concurrency s).toNat)
    {σ σ' : Calls (walk (T := T) State next start batchEnd init)}
    {a : Calls.Action (walk (T := T) State next start batchEnd init)}
    (h : Calls.Inv concurrency σ) (hs : Calls.Steps σ a σ') :
    σ'.cost rank + a.threadStep ≤ σ.cost rank + Calls.returned σ a * callBound n T := by
  cases hs with
  | call t last hc =>
    have hcost := σ.cost_update rank t σ.shared (.inside .enter)
    have henter := callsCost_enter rank σ.shared.ta (fun u => (σ.caller u).call) (t := t)
      (by rw [hc]; rfl)
    simp only [hc, Caller.call_inside, Caller.call_outside, Option.elim_some,
      Option.elim_none] at hcost henter
    simp only [Calls.returned, Calls.Action.threadStep, Calls.cost] at hcost ⊢
    omega
  | goOn t entropy pc shared pc' hc hr =>
    have hcost := σ.cost_update rank t shared (.inside pc')
    have hlt := (Call.step_advances hrank hplaces h.slots (h.consistent_at hc) hr).callsCost_lt
      hrank (fun u => (σ.caller u).call) (t := t) (by rw [hc]; rfl)
    simp only [hc, Caller.call_inside, Option.elim_some, Sum.getLeft?_inl] at hcost hlt
    simp only [Calls.Action.threadStep, Calls.cost] at hcost ⊢
    omega
  | returns t entropy pc shared stage hc hr =>
    have hcost := σ.cost_update rank t shared (.outside (some stage))
    have hlt := (Call.step_advances hrank hplaces h.slots (h.consistent_at hc) hr).callsCost_lt
      hrank (fun u => (σ.caller u).call) (t := t) (by rw [hc]; rfl)
    have hreturned : Calls.returned σ (.access t entropy) = 1 := by
      simp only [Calls.returned, hc, hr]
      rfl
    simp only [hc, Caller.call_inside, Caller.call_outside, Option.elim_some, Option.elim_none,
      Sum.getLeft?_inr] at hcost hlt
    simp only [Calls.Action.threadStep, Calls.cost, hreturned] at hcost ⊢
    omega
  | batchEnd hadMessage => exact Nat.le_add_right _ _
  | dispatched stageName => exact Nat.le_add_right _ _

theorem calls_bounded (hrank : Ranks next rank) (hplaces : T ≤ ∑ s, (concurrency s).toNat)
    {σ σ' : Calls (walk (T := T) State next start batchEnd init)}
    (hσ : (calls (walk State next start batchEnd init) concurrency).Reachable σ)
    {as : List (Calls.Action (walk (T := T) State next start batchEnd init))}
    (hrun : (calls (walk State next start batchEnd init) concurrency).run σ as = some σ') :
    (calls (walk State next start batchEnd init) concurrency).sum
        (fun _ a => a.threadStep) σ as ≤
      (T + (calls (walk State next start batchEnd init) concurrency).sum Calls.returned σ as) *
        callBound n T := by
  have hinv := calls_invariant (P := walk (T := T) State next start batchEnd init) concurrency
  have hsum := Lts.run_sum_le (Calls.cost rank) hinv.step
    (fun σ a σ' h hs => Calls.step_cost hrank hplaces h (Calls.step_inv hs)) (hinv.holds hσ) hrun
  have hstart := σ.cost_le hrank
  rw [Lts.sum_mul] at hsum
  rw [Nat.add_mul]
  omega

end Walk

/-- `nextStage` of `RoundRobin` and `SRPT` is lock-free: however the calls of any number of threads
    are interleaved, the steps they take are bounded by a constant times the calls that return and
    the threads.  No thread needs another one to go on. -/
theorem nextStage_lockFree (hn : n < 2 ^ 64) (concurrency : Fin n → SizeT)
    (hplaces : T ≤ ∑ s, (concurrency s).toNat) :
    (∀ σ σ' as, (calls (RoundRobin.chooser n T) concurrency).Reachable σ →
      (calls (RoundRobin.chooser n T) concurrency).run σ as = some σ' →
        (calls (RoundRobin.chooser n T) concurrency).sum (fun _ a => a.threadStep) σ as ≤
          (T + (calls (RoundRobin.chooser n T) concurrency).sum Calls.returned σ as) *
            callBound n T) ∧
    ∀ σ σ' as, (calls (SRPT.chooser n T) concurrency).Reachable σ →
      (calls (SRPT.chooser n T) concurrency).run σ as = some σ' →
        (calls (SRPT.chooser n T) concurrency).sum (fun _ a => a.threadStep) σ as ≤
          (T + (calls (SRPT.chooser n T) concurrency).sum Calls.returned σ as) *
            callBound n T :=
  ⟨fun _ _ _ hσ hrun =>
      calls_bounded (RoundRobin.incrementStage_countsUp hn).ranks hplaces hσ hrun,
    fun _ _ _ hσ hrun => calls_bounded (SRPT.decrementStage_countsDown hn).ranks hplaces hσ hrun⟩

/-- Two threads in `nextStage` of `RoundRobin` over two stages for one thread each. -/
theorem nextStage_lockFree_two :
    ∃ σ σ' : Calls (RoundRobin.chooser 2 2), ∃ as,
      (calls (RoundRobin.chooser 2 2) fun _ => 1).Reachable σ ∧
        (calls (RoundRobin.chooser 2 2) fun _ => 1).run σ as = some σ' ∧
          (calls (RoundRobin.chooser 2 2) fun _ => 1).sum (fun _ a => a.threadStep) σ as ≤
            (2 + (calls (RoundRobin.chooser 2 2) fun _ => 1).sum Calls.returned σ as) *
              callBound 2 2 := by
  let σ : Calls (RoundRobin.chooser 2 2) :=
    { shared := .fresh (fun _ => 1) (), caller := fun _ => .outside none }
  have hσ : (calls (RoundRobin.chooser 2 2) fun _ => 1).Reachable σ :=
    .init ⟨rfl, fun _ => rfl, trivial, fun _ => rfl⟩
  let as : List (Calls.Action (RoundRobin.chooser 2 2)) :=
    .call 0 :: .call 1 :: List.replicate 6 (.access 0 ()) ++ List.replicate 9 (.access 1 ())
  obtain ⟨σ', hrun⟩ : ∃ σ', (calls (RoundRobin.chooser 2 2) fun _ => 1).run σ as = some σ' :=
    ⟨_, rfl⟩
  exact ⟨σ, σ', as, hσ, hrun,
    (nextStage_lockFree (by decide) (fun _ => 1) (by decide)).1 σ σ' as hσ hrun⟩

end Wield.StageChooser
