import Wield.DispatcherBase
import Wield.Theory.Lts

/-!
# `MultipleInputQueueAdapter`

The adapter keeps a queue and a dummy stage for each input, polls the queues in turn, and counts
them.  `addQueue` appends the queue before it constructs the stage, and the construction registers
the stage, which throws if the name is taken.
-/

namespace Wield

open Theory

variable {n : Nat} {Message : Type}

/-- A dummy stage of the adapter, with the position of the queue that it refers to. -/
structure InputStage (n : Nat) where
  stageName : Fin n
  queue : Nat

/-- What the dispatcher's pointers refer to. -/
inductive StagePtr where
  /-- A stage that a client has constructed. -/
  | client
  /-- A position in the `stages` of the adapter. -/
  | input (i : Nat)
  deriving DecidableEq

/-- `adapters::polymorphic::MultipleInputQueueAdapter`.  The two counters stay below the number of
    stage names. -/
structure MultipleInputQueueAdapter (n : Nat) (Message : Type) where
  queues : List (List Message)
  stages : List (InputStage n)
  which : Nat
  numberOfQueues : Nat

namespace MultipleInputQueueAdapter

def new : MultipleInputQueueAdapter n Message where
  queues := []
  stages := []
  which := 0
  numberOfQueues := 0

/-- The second component is the state when the call returns or throws. -/
def addQueue (adapter : MultipleInputQueueAdapter n Message)
    (dispatcher : DispatcherBase n StagePtr) (stageName : Fin n) :
    Except RuntimeError Unit ×
      MultipleInputQueueAdapter n Message × DispatcherBase n StagePtr :=
  let queues := adapter.queues ++ [[]]
  -- the constructor of the stage registers the place where it is constructed
  match dispatcher.registerStage stageName (.input adapter.stages.length) with
  | .error e => (.error e, { adapter with queues := queues }, dispatcher)
  | .ok dispatcher =>
    (.ok (),
      { adapter with
        queues := queues
        stages := adapter.stages ++ [{ stageName := stageName, queue := adapter.queues.length }]
        numberOfQueues := adapter.numberOfQueues + 1 },
      dispatcher)

def updateNextQueue (adapter : MultipleInputQueueAdapter n Message) :
    MultipleInputQueueAdapter n Message :=
  { adapter with
    which := if adapter.which + 1 ≥ adapter.numberOfQueues then 0 else adapter.which + 1 }

/-- One round of the loop of `try_pop`. -/
def poll (adapter : MultipleInputQueueAdapter n Message) :
    Option Message × MultipleInputQueueAdapter n Message :=
  match adapter.queues[adapter.which]? with
  | some (m :: rest) =>
    (some m,
      updateNextQueue { adapter with queues := adapter.queues.set adapter.which rest })
  | _ => (none, adapter.updateNextQueue)

/-- The loop of `try_pop`, with `remaining` queues to poll. -/
def tryPopLoop : Nat → MultipleInputQueueAdapter n Message →
    Option Message × MultipleInputQueueAdapter n Message
  | 0, adapter => (none, adapter)
  | remaining + 1, adapter =>
    match adapter.poll with
    | (some m, adapter) => (some m, adapter)
    | (none, adapter) => tryPopLoop remaining adapter

/-- `try_pop`. -/
def tryPop (adapter : MultipleInputQueueAdapter n Message) :
    Option Message × MultipleInputQueueAdapter n Message :=
  tryPopLoop adapter.numberOfQueues adapter

/-! ## What `tryPop` polls -/

/-- The positions that `remaining` rounds poll as long as they find nothing. -/
def pollOrder : Nat → MultipleInputQueueAdapter n Message → List Nat
  | 0, _ => []
  | remaining + 1, adapter => adapter.which :: pollOrder remaining adapter.updateNextQueue

/-- The positions of the queues that `tryPop` polls. -/
def polled (adapter : MultipleInputQueueAdapter n Message) : List Nat :=
  pollOrder adapter.numberOfQueues adapter

@[simp] theorem updateNextQueue_queues (adapter : MultipleInputQueueAdapter n Message) :
    adapter.updateNextQueue.queues = adapter.queues := rfl

@[simp] theorem updateNextQueue_numberOfQueues (adapter : MultipleInputQueueAdapter n Message) :
    adapter.updateNextQueue.numberOfQueues = adapter.numberOfQueues := rfl

theorem updateNextQueue_which {adapter : MultipleInputQueueAdapter n Message}
    (h : adapter.which < adapter.numberOfQueues) :
    adapter.updateNextQueue.which = (adapter.which + 1) % adapter.numberOfQueues := by
  unfold updateNextQueue
  dsimp only
  split
  · rw [show adapter.which + 1 = adapter.numberOfQueues by omega, Nat.mod_self]
  · rw [Nat.mod_eq_of_lt (by omega)]

theorem pollOrder_eq {adapter : MultipleInputQueueAdapter n Message}
    (h : adapter.which < adapter.numberOfQueues) (remaining : Nat) :
    pollOrder remaining adapter = (List.range remaining).map fun k =>
      (adapter.which + k) % adapter.numberOfQueues := by
  induction remaining generalizing adapter with
  | zero => rfl
  | succ remaining ih =>
    have hnext := updateNextQueue_which h
    have hlt : adapter.updateNextQueue.which < adapter.updateNextQueue.numberOfQueues := by
      rw [hnext]
      exact Nat.mod_lt _ (by omega)
    rw [pollOrder, ih hlt, List.range_succ_eq_map, List.map_cons, List.map_map, Nat.add_zero,
      Nat.mod_eq_of_lt h, hnext]
    congr 1
    apply List.map_congr_left
    intro k _
    simp only [Function.comp_apply, updateNextQueue_numberOfQueues, Nat.mod_add_mod]
    congr 1
    omega

/-- In a turn over `N` positions every one of them comes up. -/
theorem exists_add_mod_eq {N q : Nat} (start : Nat) (hq : q < N) :
    ∃ k < N, (start + k) % N = q := by
  have hlt : start % N < N := Nat.mod_lt _ (by omega)
  by_cases hle : start % N ≤ q
  · refine ⟨q - start % N, by omega, ?_⟩
    rw [← Nat.mod_add_mod, show start % N + (q - start % N) = q by omega, Nat.mod_eq_of_lt hq]
  · refine ⟨q + N - start % N, by omega, ?_⟩
    rw [← Nat.mod_add_mod, show start % N + (q + N - start % N) = q + N by omega,
      Nat.add_mod_right, Nat.mod_eq_of_lt hq]

/-- `tryPop` polls the queues that are counted. -/
theorem mem_polled_iff {adapter : MultipleInputQueueAdapter n Message}
    (h : adapter.which < adapter.numberOfQueues) (q : Nat) :
    q ∈ adapter.polled ↔ q < adapter.numberOfQueues := by
  rw [polled, pollOrder_eq h, List.mem_map]
  constructor
  · rintro ⟨k, -, rfl⟩
    exact Nat.mod_lt _ (by omega)
  · intro hq
    obtain ⟨k, hk, heq⟩ := exists_add_mod_eq adapter.which hq
    exact ⟨k, List.mem_range.mpr hk, heq⟩

theorem poll_eq_none_iff (adapter : MultipleInputQueueAdapter n Message) :
    adapter.poll.1 = none ↔ adapter.queues.getD adapter.which [] = [] := by
  unfold poll
  rw [List.getD_eq_getElem?_getD]
  split
  · rename_i hqueue
    simp [hqueue]
  · rename_i hempty
    cases hqueue : adapter.queues[adapter.which]? with
    | none => simp
    | some queue =>
      cases queue with
      | nil => simp
      | cons m rest => exact absurd hqueue (hempty m rest)

theorem poll_snd_of_none {adapter : MultipleInputQueueAdapter n Message}
    (h : adapter.poll.1 = none) : adapter.poll.2 = adapter.updateNextQueue := by
  unfold poll at h ⊢
  split
  · rename_i hqueue
    rw [hqueue] at h
    cases h
  · rfl

theorem tryPopLoop_of_none {adapter : MultipleInputQueueAdapter n Message}
    (h : adapter.poll.1 = none) (remaining : Nat) :
    tryPopLoop (remaining + 1) adapter = tryPopLoop remaining adapter.poll.2 := by
  rw [tryPopLoop]
  split
  · rename_i heq
    rw [heq] at h
    cases h
  · rename_i heq
    rw [heq]

theorem tryPopLoop_of_some {adapter : MultipleInputQueueAdapter n Message} {m : Message}
    (h : adapter.poll.1 = some m) (remaining : Nat) :
    tryPopLoop (remaining + 1) adapter = (some m, adapter.poll.2) := by
  rw [tryPopLoop]
  split
  · rename_i heq
    rw [heq] at h ⊢
    rw [← h]
  · rename_i heq
    rw [heq] at h
    cases h

theorem tryPopLoop_eq_none_iff (remaining : Nat) (adapter : MultipleInputQueueAdapter n Message) :
    (tryPopLoop remaining adapter).1 = none ↔
      ∀ q ∈ pollOrder remaining adapter, adapter.queues.getD q [] = [] := by
  induction remaining generalizing adapter with
  | zero => simp [tryPopLoop, pollOrder]
  | succ remaining ih =>
    rw [pollOrder, List.forall_mem_cons, ← poll_eq_none_iff]
    cases hpoll : adapter.poll.1 with
    | none =>
      rw [tryPopLoop_of_none hpoll, poll_snd_of_none hpoll, ih]
      simp
    | some m => simp [tryPopLoop_of_some hpoll]

/-- `tryPop` misses no message in a queue that it polls. -/
theorem tryPop_eq_none_iff (adapter : MultipleInputQueueAdapter n Message) :
    adapter.tryPop.1 = none ↔ ∀ q ∈ adapter.polled, adapter.queues.getD q [] = [] :=
  tryPopLoop_eq_none_iff _ adapter

/-! ## What `tryPop` leaves alone -/

/-- The stages and the count are the same, no queue has come or gone, and `which` is in range. -/
structure Polls (adapter adapter' : MultipleInputQueueAdapter n Message) : Prop where
  stages : adapter'.stages = adapter.stages
  numberOfQueues : adapter'.numberOfQueues = adapter.numberOfQueues
  length : adapter'.queues.length = adapter.queues.length
  which : adapter.which = 0 ∨ adapter.which < adapter.numberOfQueues →
    adapter'.which = 0 ∨ adapter'.which < adapter'.numberOfQueues

theorem updateNextQueue_which_lt (adapter : MultipleInputQueueAdapter n Message) :
    adapter.updateNextQueue.which = 0 ∨
      adapter.updateNextQueue.which < adapter.updateNextQueue.numberOfQueues := by
  unfold updateNextQueue
  dsimp only
  split
  · exact .inl rfl
  · exact .inr (by omega)

theorem poll_polls (adapter : MultipleInputQueueAdapter n Message) :
    Polls adapter adapter.poll.2 := by
  unfold poll
  split
  · exact ⟨rfl, rfl, List.length_set, fun _ => updateNextQueue_which_lt _⟩
  · exact ⟨rfl, rfl, rfl, fun _ => updateNextQueue_which_lt _⟩

theorem Polls.trans {adapter adapter' adapter'' : MultipleInputQueueAdapter n Message}
    (h : Polls adapter adapter') (h' : Polls adapter' adapter'') : Polls adapter adapter'' :=
  ⟨h'.stages.trans h.stages, h'.numberOfQueues.trans h.numberOfQueues, h'.length.trans h.length,
    fun hwhich => h'.which (h.which hwhich)⟩

theorem tryPopLoop_polls (remaining : Nat) (adapter : MultipleInputQueueAdapter n Message) :
    Polls adapter (tryPopLoop remaining adapter).2 := by
  induction remaining generalizing adapter with
  | zero => exact ⟨rfl, rfl, rfl, id⟩
  | succ remaining ih =>
    have hpoll := poll_polls adapter
    cases hfound : adapter.poll.1 with
    | none =>
      rw [tryPopLoop_of_none hfound]
      exact hpoll.trans (ih _)
    | some m =>
      rw [tryPopLoop_of_some hfound]
      exact hpoll

theorem tryPop_polls (adapter : MultipleInputQueueAdapter n Message) :
    Polls adapter adapter.tryPop.2 :=
  tryPopLoop_polls _ adapter

end MultipleInputQueueAdapter

end Wield
