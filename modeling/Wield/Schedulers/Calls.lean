import Wield.SchedulingPolicy
import Wield.Schedulers.Slots
import Wield.Theory.Lts

/-!
# Threads that call `nextStage`

Any number of threads call `nextStage` again and again, and their calls are interleaved access by
access.  Between the calls batches end with any flag and messages are dispatched.  Nothing is said
about what the threads do with the stages they get.
-/

namespace Wield.StageChooser

open Theory

variable {n T : Nat}

/-- A thread outside of `nextStage`, with the stage it was last given, or inside. -/
inductive Caller (P : StageChooser n T) where
  | outside (last : StageEnum n)
  | inside (pc : P.Pc)

structure Calls (P : StageChooser n T) where
  shared : P.Shared
  caller : Fin T → P.Caller

inductive Calls.Action (P : StageChooser n T) where
  | call (t : Fin T)
  | access (t : Fin T) (entropy : P.Entropy)
  | batchEnd (hadMessage : Bool)
  | dispatched (stageName : Fin n)

variable {P : StageChooser n T}

def Calls.step (σ : Calls P) : Calls.Action P → Option (Calls P)
  | .call t =>
    match σ.caller t with
    | .outside _ => some { σ with caller := Function.update σ.caller t (.inside .enter) }
    | .inside _ => none
  | .access t entropy =>
    match σ.caller t with
    | .outside _ => none
    | .inside pc =>
      match Call.step σ.shared t entropy pc with
      | (shared, .inl pc) =>
        some { shared := shared, caller := Function.update σ.caller t (.inside pc) }
      | (shared, .inr stage) =>
        some { shared := shared, caller := Function.update σ.caller t (.outside (some stage)) }
  | .batchEnd hadMessage =>
    some { σ with shared := { σ.shared with own := P.batchEnd σ.shared.own hadMessage } }
  | .dispatched stageName =>
    some { σ with shared := { σ.shared with own := P.dispatched σ.shared.own stageName } }

/-- All that a step of the callers can do. -/
inductive Calls.Steps (σ : Calls P) : Calls.Action P → Calls P → Prop where
  | call (t last) : σ.caller t = .outside last →
      Steps σ (.call t) { σ with caller := Function.update σ.caller t (.inside .enter) }
  | goOn (t entropy pc shared pc') : σ.caller t = .inside pc →
      Call.step σ.shared t entropy pc = (shared, .inl pc') →
      Steps σ (.access t entropy)
        { shared := shared, caller := Function.update σ.caller t (.inside pc') }
  | returns (t entropy pc shared stage) : σ.caller t = .inside pc →
      Call.step σ.shared t entropy pc = (shared, .inr stage) →
      Steps σ (.access t entropy)
        { shared := shared, caller := Function.update σ.caller t (.outside (some stage)) }
  | batchEnd (hadMessage) : Steps σ (.batchEnd hadMessage)
      { σ with shared := { σ.shared with own := P.batchEnd σ.shared.own hadMessage } }
  | dispatched (stageName) : Steps σ (.dispatched stageName)
      { σ with shared := { σ.shared with own := P.dispatched σ.shared.own stageName } }

theorem Calls.step_inv {σ σ' : Calls P} {a : Calls.Action P} (h : Calls.step σ a = some σ') :
    Calls.Steps σ a σ' := by
  cases a with
  | call t =>
    simp only [Calls.step] at h
    split at h
    · rename_i last hc
      cases h
      exact .call t last hc
    · cases h
  | access t entropy =>
    simp only [Calls.step] at h
    split at h
    · cases h
    · rename_i pc hc
      split at h
      · rename_i shared pc' hr
        cases h
        exact .goOn t entropy pc shared pc' hc hr
      · rename_i shared stage hr
        cases h
        exact .returns t entropy pc shared stage hc hr
  | batchEnd hadMessage =>
    cases h
    exact .batchEnd hadMessage
  | dispatched stageName =>
    cases h
    exact .dispatched stageName

/-- No thread has called `nextStage` yet. -/
structure Calls.Initial (concurrency : Fin n → SizeT) (σ : Calls P) : Prop where
  ta : σ.shared.ta = ThreadAssignments.init concurrency
  holding : ∀ t, σ.shared.holding t = none
  own : P.init concurrency σ.shared.own
  caller : ∀ t, σ.caller t = .outside StageEnum.NumberOfEntries

variable (P) in
def calls (concurrency : Fin n → SizeT) : Lts (Calls P) (Calls.Action P) where
  init := Calls.Initial concurrency
  step := Calls.step

/-- The table entry and the slot of a thread: between two calls both are the stage that the last
    call returned. -/
def Caller.Consistent (concurrency : Fin n → SizeT) (recorded holding : StageEnum n) :
    P.Caller → Prop
  | .outside last => recorded = last ∧ holding = last
  | .inside pc => Call.Consistent concurrency recorded holding pc

structure Calls.Inv (concurrency : Fin n → SizeT) (σ : Calls P) : Prop where
  slots : Slots concurrency σ.shared
  consistent : ∀ t, Caller.Consistent concurrency (σ.shared.ta.threadAssignment t)
    (σ.shared.holding t) (σ.caller t)

theorem Calls.Inv.consistent_at {concurrency : Fin n → SizeT} {σ : Calls P}
    (h : Calls.Inv concurrency σ) {t : Fin T} {caller : P.Caller} (hc : σ.caller t = caller) :
    Caller.Consistent concurrency (σ.shared.ta.threadAssignment t) (σ.shared.holding t) caller :=
  hc ▸ h.consistent t

/-- A step of thread `t` that leaves the other threads alone. -/
theorem Calls.Inv.move {concurrency : Fin n → SizeT} {σ : Calls P} (h : Calls.Inv concurrency σ)
    {t : Fin T} {shared : P.Shared} (caller : P.Caller) (hslots : Slots concurrency shared)
    (hframe : Shared.Frame t σ.shared shared)
    (hc : Caller.Consistent concurrency (shared.ta.threadAssignment t) (shared.holding t) caller) :
    Calls.Inv concurrency
      { shared := shared, caller := Function.update σ.caller t caller } := by
  refine ⟨hslots, ?_⟩
  dsimp only
  rw [Function.forall_update_iff σ.caller fun u =>
    Caller.Consistent concurrency (shared.ta.threadAssignment u) (shared.holding u)]
  refine ⟨hc, fun u hu => ?_⟩
  rw [hframe.recorded u hu, hframe.holding u hu]
  exact h.consistent u

theorem calls_invariant (concurrency : Fin n → SizeT) :
    (calls P concurrency).Invariant (Calls.Inv concurrency) where
  init σ h := by
    refine ⟨.initial h.ta h.holding, fun t => ?_⟩
    rw [h.caller t, h.ta, h.holding t]
    exact ⟨rfl, rfl⟩
  step σ a σ' h hs := by
    cases Calls.step_inv hs with
    | call t last hc =>
      have ht := h.consistent_at hc
      exact h.move (.inside .enter) h.slots .rfl (ht.1.trans ht.2.symm)
    | goOn t entropy pc shared pc' hc hr =>
      have ht := h.consistent_at hc
      obtain ⟨hslots, hframe, hout⟩ := Call.step_slots h.slots (e := entropy) ht
      rw [hr] at hslots hframe hout
      exact h.move (.inside pc') hslots hframe hout
    | returns t entropy pc shared stage hc hr =>
      have ht := h.consistent_at hc
      obtain ⟨hslots, hframe, hout⟩ := Call.step_slots h.slots (e := entropy) ht
      rw [hr] at hslots hframe hout
      exact h.move (.outside (some stage)) hslots hframe hout
    | batchEnd hadMessage => exact ⟨h.slots.of_eq rfl rfl rfl, h.consistent⟩
    | dispatched stageName => exact ⟨h.slots.of_eq rfl rfl rfl, h.consistent⟩

theorem Calls.keeps {valid : P.State → Prop} (h : P.Keeps valid) {concurrency : Fin n → SizeT}
    {σ σ' : Calls P} {a : Calls.Action P} (hown : valid σ.shared.own)
    (hs : (calls P concurrency).step σ a = some σ') : valid σ'.shared.own := by
  cases Calls.step_inv hs with
  | call t last hc => exact hown
  | goOn t entropy pc shared pc' hc hr =>
    have hcall := h.call hown t entropy pc
    rwa [hr] at hcall
  | returns t entropy pc shared stage hc hr =>
    have hcall := h.call hown t entropy pc
    rwa [hr] at hcall
  | batchEnd hadMessage => exact h.batchEnd _ _ hown
  | dispatched stageName => exact h.dispatched _ _ hown

/-- A thread that gives up its slot takes no room from any stage. -/
theorem Calls.Inv.hasRoom_removed {concurrency : Fin n → SizeT} {σ : Calls P}
    (h : Calls.Inv concurrency σ) {t : Fin T} {last : StageEnum n}
    (ht : σ.caller t = .outside last) {s : Fin n} (hs : σ.shared.ta.HasRoom s) :
    (σ.shared.ta.removeCurrentAssignment t).2.HasRoom s := by
  have hconsistent := h.consistent_at ht
  unfold ThreadAssignments.HasRoom at hs ⊢
  rw [ThreadAssignments.removeCurrentAssignment_threadsPerStage,
    ThreadAssignments.removeCurrentAssignment_maximumConcurrency]
  split
  · rename_i hcurrent
    have hpos := h.slots.counted.pos (hconsistent.2.trans (hconsistent.1.symm.trans hcurrent))
    rw [BitVec.lt_def] at hs ⊢
    rw [SizeT.toNat_sub_one hpos]
    omega
  · rwa [BitVec.ofNat_eq_ofNat, BitVec.sub_zero]

/-- The counters are exact and within the limits while any number of threads take the steps of
    `nextStage` in any order, and the table names the stage whose counter includes the thread. -/
theorem capacity_never_exceeded (p : AssignmentPolicy) (concurrency : Fin n → SizeT)
    {σ : Calls (p.chooser n T)} (hσ : (calls (p.chooser n T) concurrency).Reachable σ) :
    (∀ s, (σ.shared.ta.threadsPerStage s).toNat = tally σ.shared.holding s ∧
      (σ.shared.ta.threadsPerStage s).toNat ≤ (concurrency s).toNat) ∧
    (∀ t s, σ.caller t = .inside (.decrement s) → 0 < (σ.shared.ta.threadsPerStage s).toNat) ∧
    (∀ t last, σ.caller t = .outside last →
      σ.shared.ta.threadAssignment t = last ∧ σ.shared.holding t = last) ∧
    (∀ s t u, concurrency s = 1 → σ.caller t = .outside (some s) →
      σ.caller u = .outside (some s) → t = u) ∧
    (∀ s t, concurrency s = 0 → σ.caller t ≠ .outside (some s)) := by
  have h := (calls_invariant concurrency).holds hσ
  have outside : ∀ t last, σ.caller t = .outside last →
      σ.shared.ta.threadAssignment t = last ∧ σ.shared.holding t = last :=
    fun _ _ => h.consistent_at
  refine ⟨fun s => ⟨h.slots.count s, ?_⟩, fun t s hc => ?_, outside, fun s t u hs ht hu => ?_,
    fun s t hs ht => ?_⟩
  · rw [h.slots.count s]
    exact h.slots.bound s
  · have ht := h.consistent_at hc
    exact h.slots.counted.pos ht.2
  · have hbound := h.slots.bound s
    rw [hs] at hbound
    exact holder_unique hbound (outside t _ ht).2 (outside u _ hu).2
  · have hbound := h.slots.bound s
    have hpos := tally_pos (outside t _ ht).2
    rw [hs] at hbound
    exact absurd hpos (Nat.not_lt.mpr hbound)

/-- Two threads call `nextStage` of `RoundRobin`, where each of two stages takes one thread. -/
theorem capacity_never_exceeded_two :
    ∃ σ : Calls (AssignmentPolicy.roundRobin.chooser 2 2),
      (calls (AssignmentPolicy.roundRobin.chooser 2 2) fun _ => 1).Reachable σ ∧
        σ.shared.holding 0 = some 0 ∧ σ.shared.holding 1 = some 1 ∧
        ∀ s, (σ.shared.ta.threadsPerStage s).toNat = tally σ.shared.holding s ∧
          (σ.shared.ta.threadsPerStage s).toNat ≤ (1 : SizeT).toNat := by
  obtain ⟨σ, hσ, hfirst, hsecond⟩ := Lts.exists_reachable_of_run
    (calls (AssignmentPolicy.roundRobin.chooser 2 2) fun _ => 1)
    { shared := .fresh (fun _ => 1) (), caller := fun _ => .outside none }
    (.call 0 :: .call 1 :: List.replicate 6 (.access 0 ()) ++ List.replicate 9 (.access 1 ()))
    (fun σ => σ.shared.holding 0 = some 0 ∧ σ.shared.holding 1 = some 1)
    ⟨rfl, fun _ => rfl, trivial, fun _ => rfl⟩ (by decide)
  exact ⟨σ, hσ, hfirst, hsecond, (capacity_never_exceeded .roundRobin (fun _ => 1) hσ).1⟩

end Wield.StageChooser
