import Wield.Adapters.MultipleInputQueueAdapter.AddQueue

/-!
# `try_pop` while producers push

One consumer calls `try_pop` again and again, and producers push between its polls.  The position
of the next poll is kept from call to call, so that each queue is polled once in every turn over the
queues, however the calls are spread over the turns.
-/

namespace Wield.MultipleInputQueueAdapter

open Theory

variable {n : Nat} {Message : Type}

/-- `allQueuesPolled`. -/
def allQueuesPolled (adapter : MultipleInputQueueAdapter n Message) (queuesPolled : Nat) : Prop :=
  queuesPolled ≥ adapter.numberOfQueues

instance (adapter : MultipleInputQueueAdapter n Message) (queuesPolled : Nat) :
    Decidable (adapter.allQueuesPolled queuesPolled) :=
  inferInstanceAs (Decidable (_ ≥ _))

/-- `QueueAdapter::push` on the queue at position `q`. -/
def pushTo (adapter : MultipleInputQueueAdapter n Message) (q : Nat) (m : Message) :
    MultipleInputQueueAdapter n Message :=
  { adapter with queues := adapter.queues.modify q fun queue => queue ++ [m] }

namespace TryPop

/-- History of a poll: the position, and the queues at that moment. -/
structure Poll (Message : Type) where
  which : Nat
  queues : List (List Message)

/-- The local variables of `try_pop`, with its history. -/
structure Call (Message : Type) where
  /-- What has been popped, and from which position. -/
  message : Option (Nat × Message)
  queuesPolled : Nat
  /-- History: `which` when the call began. -/
  start : Nat
  polls : List (Poll Message)

/-- History: a call that has returned, and the `which` that it left. -/
structure Returned (Message : Type) where
  call : Call Message
  which : Nat

/-- The body of the loop: the next queue is polled. -/
def Call.poll (adapter : MultipleInputQueueAdapter n Message) (call : Call Message) :
    Call Message :=
  { call with
    message := adapter.poll.1.map (adapter.which, ·)
    queuesPolled := call.queuesPolled + 1
    polls := call.polls ++ [{ which := adapter.which, queues := adapter.queues }] }

structure State (n : Nat) (Message : Type) where
  adapter : MultipleInputQueueAdapter n Message
  /-- The call that the consumer is in. -/
  call : Option (Call Message)
  returned : List (Returned Message)
  /-- History: what has been pushed to each queue. -/
  pushed : Nat → List Message

namespace State

variable (σ : State n Message)

def push (q : Nat) (m : Message) : State n Message :=
  { σ with
    adapter := σ.adapter.pushTo q m
    pushed := Function.update σ.pushed q (σ.pushed q ++ [m]) }

/-- The consumer calls `try_pop`. -/
def enter : State n Message :=
  { σ with
    call := some { message := none, queuesPolled := 0, start := σ.adapter.which, polls := [] } }

def poll (call : Call Message) : State n Message :=
  { σ with
    adapter := σ.adapter.poll.2
    call := some (call.poll σ.adapter) }

/-- `try_pop` returns. -/
def leave (call : Call Message) : State n Message :=
  { σ with
    call := none
    returned := σ.returned ++ [{ call := call, which := σ.adapter.which }] }

end State

inductive Action (Message : Type) where
  | push (q : Nat) (m : Message)
  | tryPop
  /-- The consumer tests the condition of the loop, and either polls a queue or returns. -/
  | round

def step (σ : State n Message) : Action Message → Option (State n Message)
  | .push q m => if q < σ.adapter.queues.length then some (σ.push q m) else none
  | .tryPop =>
    match σ.call with
    | none => some σ.enter
    | some _ => none
  | .round =>
    match σ.call with
    | none => none
    | some call =>
      -- `!hasMessage && !allQueuesPolled(queuesPolled++)`
      if call.message.isNone ∧ ¬ σ.adapter.allQueuesPolled call.queuesPolled then
        some (σ.poll call)
      else some (σ.leave call)

/-- What a step can do. -/
inductive Steps (σ : State n Message) : Action Message → State n Message → Prop where
  | push (q : Nat) (m : Message) : q < σ.adapter.queues.length →
      Steps σ (.push q m) (σ.push q m)
  | enter : σ.call = none → Steps σ .tryPop σ.enter
  | poll (call : Call Message) : σ.call = some call → call.message = none →
      ¬ σ.adapter.allQueuesPolled call.queuesPolled → Steps σ .round (σ.poll call)
  | leave (call : Call Message) : σ.call = some call →
      (call.message = none → σ.adapter.allQueuesPolled call.queuesPolled) →
        Steps σ .round (σ.leave call)

theorem step_eq_some_iff {σ σ' : State n Message} {a : Action Message} :
    step σ a = some σ' ↔ Steps σ a σ' := by
  constructor
  · intro h
    cases a with
    | push q m =>
      obtain ⟨hq, hσ'⟩ := Option.ite_none_right_eq_some.mp h
      cases hσ'
      exact .push q m hq
    | tryPop =>
      simp only [step] at h
      split at h
      · rename_i hout
        cases h
        exact .enter hout
      · cases h
    | round =>
      simp only [step] at h
      split at h
      · cases h
      · rename_i call hcall
        split at h
        · rename_i hmore
          cases h
          exact .poll call hcall (Option.isNone_iff_eq_none.mp hmore.1) hmore.2
        · rename_i hdone
          cases h
          refine .leave call hcall fun hnone => ?_
          by_contra hmore
          exact hdone ⟨Option.isNone_iff_eq_none.mpr hnone, hmore⟩
  · intro h
    cases h with
    | push q m hq => exact if_pos hq
    | enter hout => simp only [step, hout]
    | poll call hcall hnone hmore =>
      simp only [step, hcall]
      exact if_pos ⟨Option.isNone_iff_eq_none.mpr hnone, hmore⟩
    | leave call hcall hdone =>
      simp only [step, hcall]
      exact if_neg fun hmore => hmore.2 (hdone (Option.isNone_iff_eq_none.mp hmore.1))

/-- Adapters to which queues have been added, each by an `addQueue` that has not thrown. -/
inductive Added (n : Nat) (Message : Type) : Inputs n Message → Prop where
  | start (clients : Fin n → Bool) : Added n Message (Inputs.start clients)
  | addQueue {σ : Inputs n Message} (stageName : Fin n) : Added n Message σ →
      (σ.addQueue stageName).1 = .ok () → Added n Message (σ.addQueue stageName).2

/-- Nothing has been pushed yet. -/
def State.initial (adapter : MultipleInputQueueAdapter n Message) : State n Message where
  adapter := adapter
  call := none
  returned := []
  pushed _ := []

variable (n Message) in
def system : Lts (State n Message) (Action Message) where
  init σ := ∃ inputs, Added n Message inputs ∧ σ = State.initial inputs.adapter
  step := step

theorem Added.adapter {σ : Inputs n Message} (h : Added n Message σ) :
    σ.adapter.queues = List.replicate σ.adapter.numberOfQueues [] ∧ σ.adapter.which = 0 := by
  induction h with
  | start clients => exact ⟨rfl, rfl⟩
  | @addQueue σ stageName _ hok ih =>
    have hnew : σ.dispatcher.stages stageName = none := by
      by_contra htaken
      rw [Inputs.addQueue_taken htaken] at hok
      cases hok
    rw [Inputs.addQueue_new hnew]
    refine ⟨?_, ih.2⟩
    dsimp only
    rw [ih.1, List.replicate_succ']

/-! ## One poll -/

/-- The queue was empty when it was polled. -/
def Poll.Empty (poll : Poll Message) : Prop :=
  poll.queues.getD poll.which [] = []

/-- A poll finds the queue at `which` empty, or pops its head; then the next queue is up. -/
theorem poll_cases (adapter : MultipleInputQueueAdapter n Message) :
    (adapter.queues.getD adapter.which [] = [] ∧
      adapter.poll = (none, adapter.updateNextQueue)) ∨
    ∃ m rest, adapter.queues[adapter.which]? = some (m :: rest) ∧
      adapter.poll = (some m,
        updateNextQueue { adapter with queues := adapter.queues.set adapter.which rest }) := by
  cases hpoll : adapter.poll.1 with
  | none =>
    refine .inl ⟨(poll_eq_none_iff adapter).mp hpoll, ?_⟩
    rw [← poll_snd_of_none hpoll, ← hpoll]
  | some m =>
    unfold poll at hpoll ⊢
    split at hpoll
    · rename_i m' rest hqueue
      exact .inr ⟨m', rest, hqueue, rfl⟩
    · cases hpoll

theorem pushTo_getD (adapter : MultipleInputQueueAdapter n Message) (q p : Nat) (m : Message) :
    (adapter.pushTo q m).queues.getD p [] = if q = p ∧ q < adapter.queues.length then
      adapter.queues.getD p [] ++ [m] else adapter.queues.getD p [] := by
  simp only [pushTo, List.getD_eq_getElem?_getD, List.getElem?_modify]
  by_cases hq : q = p
  · subst p
    cases hqueue : adapter.queues[q]? with
    | none => simp [List.getElem?_eq_none_iff.mp hqueue]
    | some queue => simp [(List.getElem?_eq_some_iff.mp hqueue).1]
  · simp [hq]

/-! ## Calls -/

/-- What holds of the polls of a call, over `N` queues. -/
structure Call.Ok (N : Nat) (call : Call Message) : Prop where
  atMost : call.polls.length ≤ N
  cyclic : ∀ k poll, call.polls[k]? = some poll → poll.which = (call.start + k) % N
  lengths : ∀ poll ∈ call.polls, poll.queues.length = N
  /-- The message is the head of the queue that was polled last, and the ones before were empty. -/
  found : ∀ q m, call.message = some (q, m) → ∃ before queues rest,
    call.polls = before ++ [{ which := q, queues := queues }] ∧
      (∀ poll ∈ before, poll.Empty) ∧ queues[q]? = some (m :: rest)
  missed : call.message = none → ∀ poll ∈ call.polls, poll.Empty
  /-- Queues that were found empty had been empty at the first poll. -/
  first : call.message = none → ∀ first, call.polls.head? = some first →
    ∀ poll ∈ call.polls, first.queues.getD poll.which [] = []

/-- A call that the consumer is in. -/
structure Call.Running (adapter : MultipleInputQueueAdapter n Message) (call : Call Message) :
    Prop where
  ok : call.Ok adapter.numberOfQueues
  queuesPolled : call.queuesPolled = call.polls.length
  which : adapter.which = (call.start + call.polls.length) % adapter.numberOfQueues
  /-- Since the first poll nothing but pushes has happened. -/
  grown : call.message = none → ∀ first, call.polls.head? = some first →
    ∀ p, first.queues.getD p [] <+: adapter.queues.getD p []

/-- A call that has returned. -/
structure Returned.Ok (N : Nat) (r : Returned Message) : Prop where
  call : r.call.Ok N
  which : r.which = (r.call.start + r.call.polls.length) % N
  all : r.call.message = none → r.call.polls.length = N

theorem Call.Running.enter {adapter : MultipleInputQueueAdapter n Message}
    (h : adapter.which = 0 ∨ adapter.which < adapter.numberOfQueues) :
    Call.Running adapter
      { message := none, queuesPolled := 0, start := adapter.which, polls := [] } where
  ok :=
    { atMost := Nat.zero_le _
      cyclic := fun _ _ hpoll => by cases hpoll
      lengths := fun _ hpoll => by cases hpoll
      found := fun _ _ hmessage => by cases hmessage
      missed := fun _ _ hpoll => by cases hpoll
      first := fun _ _ hfirst => by cases hfirst }
  queuesPolled := rfl
  which := by
    rcases h with h | h
    · simp [h]
    · exact (Nat.mod_eq_of_lt h).symm
  grown _ _ hfirst := by cases hfirst

theorem Call.Running.push {adapter : MultipleInputQueueAdapter n Message} {call : Call Message}
    (h : call.Running adapter) (q : Nat) (m : Message) : call.Running (adapter.pushTo q m) where
  ok := h.ok
  queuesPolled := h.queuesPolled
  which := h.which
  grown hnone first hfirst p := by
    refine (h.grown hnone first hfirst p).trans ?_
    rw [pushTo_getD]
    split
    · exact List.prefix_append _ _
    · exact List.prefix_rfl

theorem Call.Running.which_lt {adapter : MultipleInputQueueAdapter n Message}
    {call : Call Message} (h : call.Running adapter) (hN : 0 < adapter.numberOfQueues) :
    adapter.which < adapter.numberOfQueues := by
  rw [h.which]
  exact Nat.mod_lt _ hN

theorem poll_snd_which {adapter : MultipleInputQueueAdapter n Message}
    (h : adapter.which < adapter.numberOfQueues) :
    adapter.poll.2.which = (adapter.which + 1) % adapter.numberOfQueues := by
  rcases poll_cases adapter with ⟨_, hpoll⟩ | ⟨m, rest, _, hpoll⟩
  · rw [hpoll]
    exact updateNextQueue_which h
  · rw [hpoll]
    have hlt : ({ adapter with queues := adapter.queues.set adapter.which rest } :
        MultipleInputQueueAdapter n Message).which < adapter.numberOfQueues := h
    exact updateNextQueue_which hlt

theorem head?_concat_eq_some {α : Type} {l : List α} {x y : α} (h : (l ++ [x]).head? = some y) :
    l.head? = some y ∨ l = [] ∧ y = x := by
  cases l with
  | nil => exact .inr ⟨rfl, (Option.some.inj h).symm⟩
  | cons z l => exact .inl h

theorem mem_polls_poll {adapter : MultipleInputQueueAdapter n Message} {call : Call Message}
    {poll : Poll Message} (h : poll ∈ (call.poll adapter).polls) :
    poll ∈ call.polls ∨ poll = { which := adapter.which, queues := adapter.queues } :=
  (List.mem_append.mp h).imp_right List.mem_singleton.mp

/-- The message that a poll gets is the head of the queue that is up. -/
theorem poll_message_eq_some {adapter : MultipleInputQueueAdapter n Message}
    {call : Call Message} {q : Nat} {m : Message}
    (h : (call.poll adapter).message = some (q, m)) :
    q = adapter.which ∧ ∃ rest, adapter.queues[q]? = some (m :: rest) := by
  rcases poll_cases adapter with ⟨_, hpoll⟩ | ⟨m', rest, hqueue, hpoll⟩
  · simp [Call.poll, hpoll] at h
  · simp only [Call.poll, hpoll, Option.map_some, Option.some.injEq, Prod.mk.injEq] at h
    obtain ⟨rfl, rfl⟩ := h
    exact ⟨rfl, rest, hqueue⟩

theorem poll_message_eq_none {adapter : MultipleInputQueueAdapter n Message}
    {call : Call Message} (h : (call.poll adapter).message = none) :
    adapter.queues.getD adapter.which [] = [] ∧ adapter.poll.2.queues = adapter.queues := by
  rcases poll_cases adapter with ⟨hempty, hpoll⟩ | ⟨m', rest, _, hpoll⟩
  · refine ⟨hempty, ?_⟩
    rw [hpoll, updateNextQueue_queues]
  · simp [Call.poll, hpoll] at h

theorem Call.Running.poll_ok {adapter : MultipleInputQueueAdapter n Message}
    {call : Call Message} (h : call.Running adapter) (hnone : call.message = none)
    (hmore : call.polls.length < adapter.numberOfQueues)
    (hlength : adapter.queues.length = adapter.numberOfQueues) :
    (call.poll adapter).Ok adapter.numberOfQueues where
  atMost := by
    rw [Call.poll, List.length_append, List.length_singleton]
    exact hmore
  cyclic k poll hpoll := by
    rcases Inputs.getElem?_concat_eq_some hpoll with hpoll | ⟨rfl, rfl⟩
    · exact h.ok.cyclic k poll hpoll
    · exact h.which
  lengths poll hpoll := by
    rcases mem_polls_poll hpoll with hpoll | rfl
    · exact h.ok.lengths poll hpoll
    · exact hlength
  found q m hmessage := by
    obtain ⟨rfl, rest, hqueue⟩ := poll_message_eq_some hmessage
    exact ⟨call.polls, adapter.queues, rest, rfl, h.ok.missed hnone, hqueue⟩
  missed hmessage poll hpoll := by
    rcases mem_polls_poll hpoll with hpoll | rfl
    · exact h.ok.missed hnone poll hpoll
    · exact (poll_message_eq_none hmessage).1
  first hmessage first hfirst poll hpoll := by
    obtain ⟨hempty, _⟩ := poll_message_eq_none hmessage
    rcases head?_concat_eq_some hfirst with hfirst | ⟨hnil, rfl⟩
    · rcases mem_polls_poll hpoll with hpoll | rfl
      · exact h.ok.first hnone first hfirst poll hpoll
      · -- what is empty now had been empty before, there having been pushes only
        have hgrown := h.grown hnone first hfirst adapter.which
        rw [hempty] at hgrown
        exact List.prefix_nil.mp hgrown
    · rcases mem_polls_poll hpoll with hpoll | rfl
      · rw [hnil] at hpoll
        cases hpoll
      · exact hempty

theorem Call.Running.poll {adapter : MultipleInputQueueAdapter n Message} {call : Call Message}
    (h : call.Running adapter) (hnone : call.message = none)
    (hmore : ¬ adapter.allQueuesPolled call.queuesPolled)
    (hlength : adapter.queues.length = adapter.numberOfQueues) :
    (call.poll adapter).Running adapter.poll.2 := by
  have hmore : call.polls.length < adapter.numberOfQueues := by
    rw [← h.queuesPolled]
    exact Nat.not_le.mp hmore
  have hlt := h.which_lt (Nat.zero_lt_of_lt hmore)
  have hcount : adapter.poll.2.numberOfQueues = adapter.numberOfQueues :=
    (poll_polls adapter).numberOfQueues
  refine ⟨?_, ?_, ?_, fun hmessage first hfirst p => ?_⟩
  · rw [hcount]
    exact h.poll_ok hnone hmore hlength
  · rw [Call.poll, List.length_append, List.length_singleton, ← h.queuesPolled]
  · rw [poll_snd_which hlt, hcount, h.which, Nat.mod_add_mod, Call.poll, List.length_append,
      List.length_singleton, Nat.add_assoc]
  · rw [(poll_message_eq_none hmessage).2]
    rcases head?_concat_eq_some hfirst with hfirst | ⟨_, rfl⟩
    · exact h.grown hnone first hfirst p
    · exact List.prefix_rfl

theorem Call.Running.leave {adapter : MultipleInputQueueAdapter n Message}
    {call : Call Message} (h : call.Running adapter)
    (hdone : call.message = none → adapter.allQueuesPolled call.queuesPolled) :
    Returned.Ok adapter.numberOfQueues { call := call, which := adapter.which } where
  call := h.ok
  which := h.which
  all hnone := by
    have hpolled := hdone hnone
    rw [allQueuesPolled, h.queuesPolled] at hpolled
    exact Nat.le_antisymm h.ok.atMost hpolled

/-! ## The order of the messages -/

/-- What a call has popped from the queue at `q`. -/
def Call.messageFrom (q : Nat) (call : Call Message) : List Message :=
  match call.message with
  | some (p, m) => if p = q then [m] else []
  | none => []

/-- What the calls that have returned have popped from the queue at `q`. -/
def returnedFrom (q : Nat) (returned : List (Returned Message)) : List Message :=
  returned.flatMap fun r => r.call.messageFrom q

/-- What has been popped from the queue at `q`. -/
def State.popped (σ : State n Message) (q : Nat) : List Message :=
  returnedFrom q σ.returned ++ σ.call.elim [] (Call.messageFrom q)

structure Inv (σ : State n Message) : Prop where
  length : σ.adapter.queues.length = σ.adapter.numberOfQueues
  which : σ.adapter.which = 0 ∨ σ.adapter.which < σ.adapter.numberOfQueues
  call : ∀ call, σ.call = some call → call.Running σ.adapter
  returned : ∀ r ∈ σ.returned, r.Ok σ.adapter.numberOfQueues
  fifo : ∀ q, σ.pushed q = σ.popped q ++ σ.adapter.queues.getD q []

theorem Inv.which_lt {σ : State n Message} (h : Inv σ) (hN : 0 < σ.adapter.numberOfQueues) :
    σ.adapter.which < σ.adapter.numberOfQueues := by
  rcases h.which with hzero | hlt
  · rwa [hzero]
  · exact hlt

theorem Call.messageFrom_of_none {call : Call Message} (h : call.message = none) (q : Nat) :
    call.messageFrom q = [] := by
  rw [messageFrom, h]

/-- A poll takes its message off the front of its queue and leaves the other queues alone. -/
theorem poll_messageFrom (adapter : MultipleInputQueueAdapter n Message) (call : Call Message)
    (q : Nat) : adapter.queues.getD q [] =
      (call.poll adapter).messageFrom q ++ adapter.poll.2.queues.getD q [] := by
  rcases poll_cases adapter with ⟨_, hpoll⟩ | ⟨m, rest, hqueue, hpoll⟩
  · simp only [Call.poll, Call.messageFrom, hpoll, Option.map_none, List.nil_append,
      updateNextQueue_queues]
  · obtain ⟨hlt, hget⟩ := List.getElem?_eq_some_iff.mp hqueue
    simp only [Call.poll, Call.messageFrom, hpoll, Option.map_some, updateNextQueue_queues,
      List.getD_eq_getElem?_getD]
    by_cases hq : adapter.which = q
    · subst q
      rw [if_pos rfl, List.getElem?_set_self hlt, hqueue]
      rfl
    · rw [if_neg hq, List.getElem?_set_ne hq, List.nil_append]

theorem returnedFrom_concat (q : Nat) (returned : List (Returned Message)) (r : Returned Message) :
    returnedFrom q (returned ++ [r]) = returnedFrom q returned ++ r.call.messageFrom q := by
  rw [returnedFrom, List.flatMap_append, List.flatMap_singleton]
  rfl

theorem popped_enter {σ : State n Message} (hout : σ.call = none) (q : Nat) :
    σ.enter.popped q = σ.popped q := by
  rw [State.popped, State.popped, hout]
  rfl

theorem popped_poll {σ : State n Message} {call : Call Message} (hcall : σ.call = some call)
    (hnone : call.message = none) (q : Nat) :
    (σ.poll call).popped q = σ.popped q ++ (call.poll σ.adapter).messageFrom q := by
  simp only [State.popped, State.poll, hcall, Option.elim_some, Call.messageFrom_of_none hnone,
    List.append_nil]

theorem popped_leave {σ : State n Message} {call : Call Message} (hcall : σ.call = some call)
    (q : Nat) : (σ.leave call).popped q = σ.popped q := by
  simp only [State.popped, State.leave, hcall, Option.elim_some, Option.elim_none,
    returnedFrom_concat, List.append_nil]

theorem Added.inv {inputs : Inputs n Message} (h : Added n Message inputs) :
    Inv (State.initial inputs.adapter) where
  length := by
    rw [State.initial, h.adapter.1, List.length_replicate]
  which := .inl h.adapter.2
  call _ hcall := by cases hcall
  returned _ hr := by cases hr
  fifo q := by
    simp only [State.initial, State.popped, returnedFrom, h.adapter.1,
      List.getD_eq_getElem?_getD, List.getElem?_replicate]
    split <;> rfl

theorem Inv.push {σ : State n Message} (h : Inv σ) {q : Nat} (m : Message)
    (hq : q < σ.adapter.queues.length) : Inv (σ.push q m) where
  length := (List.length_modify _ _ _).trans h.length
  which := h.which
  call call hcall := (h.call call hcall).push q m
  returned := h.returned
  fifo p := by
    show Function.update σ.pushed q (σ.pushed q ++ [m]) p = σ.popped p ++ _
    rw [State.push, pushTo_getD]
    by_cases hp : q = p
    · subst p
      rw [Function.update_self, if_pos ⟨rfl, hq⟩, h.fifo q, List.append_assoc]
    · rw [Function.update_of_ne (Ne.symm hp), if_neg fun hboth => hp hboth.1]
      exact h.fifo p

theorem Inv.enter {σ : State n Message} (h : Inv σ) (hout : σ.call = none) : Inv σ.enter where
  length := h.length
  which := h.which
  call _ hcall := by
    cases hcall
    exact .enter h.which
  returned := h.returned
  fifo q := by
    rw [popped_enter hout]
    exact h.fifo q

theorem Inv.poll {σ : State n Message} (h : Inv σ) {call : Call Message}
    (hcall : σ.call = some call) (hnone : call.message = none)
    (hmore : ¬ σ.adapter.allQueuesPolled call.queuesPolled) : Inv (σ.poll call) where
  length := by
    rw [State.poll, (poll_polls σ.adapter).length, (poll_polls σ.adapter).numberOfQueues, h.length]
  which := (poll_polls σ.adapter).which h.which
  call _ hcall' := by
    cases hcall'
    exact (h.call call hcall).poll hnone hmore h.length
  returned := by
    rw [State.poll, (poll_polls σ.adapter).numberOfQueues]
    exact h.returned
  fifo q := by
    rw [popped_poll hcall hnone, List.append_assoc, State.poll, ← poll_messageFrom]
    exact h.fifo q

theorem Inv.leave {σ : State n Message} (h : Inv σ) {call : Call Message}
    (hcall : σ.call = some call)
    (hdone : call.message = none → σ.adapter.allQueuesPolled call.queuesPolled) :
    Inv (σ.leave call) where
  length := h.length
  which := h.which
  call _ hcall' := by cases hcall'
  returned r hr := by
    rcases List.mem_append.mp hr with hr | hr
    · exact h.returned r hr
    · rw [List.mem_singleton.mp hr]
      exact (h.call call hcall).leave hdone
  fifo q := by
    rw [popped_leave hcall]
    exact h.fifo q

theorem inv_invariant : (system n Message).Invariant Inv where
  init σ h := by
    obtain ⟨inputs, hadded, rfl⟩ := h
    exact hadded.inv
  step σ a σ' h hs := by
    cases step_eq_some_iff.mp hs with
    | push q m hq => exact h.push m hq
    | enter hout => exact h.enter hout
    | poll call hcall hnone hmore => exact h.poll hcall hnone hmore
    | leave call hcall hdone => exact h.leave hcall hdone

/-! ## The call that nobody interferes with -/

/-- The rounds of a call come to an end, with the message and the adapter of `tryPopLoop`. -/
theorem tryPopLoop_runs (remaining : Nat) {σ : State n Message} {call : Call Message}
    (hcall : σ.call = some call) (hnone : call.message = none)
    (hpolled : call.queuesPolled + remaining = σ.adapter.numberOfQueues) :
    ∃ k σ' r, (system n Message).run σ (List.replicate k .round) = some σ' ∧
      σ'.returned = σ.returned ++ [r] ∧
      r.call.message.map (·.2) = (tryPopLoop remaining σ.adapter).1 ∧
      σ'.adapter = (tryPopLoop remaining σ.adapter).2 := by
  induction remaining generalizing σ call with
  | zero =>
    have hleave : (system n Message).step σ .round = some (σ.leave call) :=
      step_eq_some_iff.mpr (.leave call hcall fun _ => hpolled.ge)
    refine ⟨1, _, _, Lts.run_cons hleave [], rfl, ?_, rfl⟩
    rw [hnone]
    rfl
  | succ remaining ih =>
    have hmore : ¬ σ.adapter.allQueuesPolled call.queuesPolled := by
      rw [allQueuesPolled]
      omega
    have hpoll : (system n Message).step σ .round = some (σ.poll call) :=
      step_eq_some_iff.mpr (.poll call hcall hnone hmore)
    have hcount : (σ.poll call).adapter.numberOfQueues = σ.adapter.numberOfQueues :=
      (poll_polls σ.adapter).numberOfQueues
    have hcall' : (σ.poll call).call = some (call.poll σ.adapter) := rfl
    have hmessage : (call.poll σ.adapter).message =
        σ.adapter.poll.1.map (σ.adapter.which, ·) := rfl
    cases hfound : σ.adapter.poll.1 with
    | none =>
      rw [hfound] at hmessage
      have hpolled' : (call.poll σ.adapter).queuesPolled + remaining =
          (σ.poll call).adapter.numberOfQueues := by
        show call.queuesPolled + 1 + remaining = _
        omega
      obtain ⟨k, σ', r, hrun, hlater⟩ := ih hcall' hmessage hpolled'
      rw [tryPopLoop_of_none hfound]
      exact ⟨k + 1, σ', r, (Lts.run_cons hpoll _).trans hrun, hlater⟩
    | some m =>
      -- the next test of the condition ends the loop
      rw [hfound] at hmessage
      have hdone : (call.poll σ.adapter).message ≠ none := by
        rw [hmessage]
        exact Option.some_ne_none _
      have hleave : (system n Message).step (σ.poll call) .round =
          some ((σ.poll call).leave (call.poll σ.adapter)) :=
        step_eq_some_iff.mpr (.leave _ hcall' fun hnone' => absurd hnone' hdone)
      have hrun := (Lts.run_cons hpoll _).trans (Lts.run_cons hleave [])
      rw [tryPopLoop_of_some hfound]
      refine ⟨2, _, _, hrun, rfl, ?_, rfl⟩
      rw [hmessage]
      rfl

/-- A call without pushes in between returns what `tryPop` does, and leaves the same adapter. -/
theorem tryPop_runs {σ : State n Message} (hout : σ.call = none) :
    ∃ k σ' r, (system n Message).run σ (.tryPop :: List.replicate k .round) = some σ' ∧
      σ'.returned = σ.returned ++ [r] ∧ r.call.message.map (·.2) = σ.adapter.tryPop.1 ∧
      σ'.adapter = σ.adapter.tryPop.2 := by
  have henter : (system n Message).step σ .tryPop = some σ.enter :=
    step_eq_some_iff.mpr (.enter hout)
  have hcall : σ.enter.call = some _ := rfl
  obtain ⟨k, σ', r, hrun, hlater⟩ :=
    tryPopLoop_runs σ.adapter.numberOfQueues hcall rfl (Nat.zero_add _)
  exact ⟨k, σ', r, (Lts.run_cons henter _).trans hrun, hlater⟩

end TryPop

end Wield.MultipleInputQueueAdapter
