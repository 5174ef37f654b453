import Wield.Messages
import Wield.Theory.SumUpdate
import Mathlib.Algebra.Order.BigOperators.Group.Finset
import Mathlib.Data.Fin.VecNotation

/-!
# The count of a message

In every reachable state the count of a message is the number of references on it that handles,
queues, dispatches and executions hold, and every dispatch that has begun is still on its way, in
the queue, popped, or has run.
-/

namespace Wield.Messages

open Theory

variable {n N : Nat}

/-- A handle that the call has taken over. -/
@[simp]
def Frame.lends (m : Nat) : Frame n → Bool
  | .fanout m' _ _ handle => handle && m = m'
  | _ => false

/-- A dispatch between the increment and the push. -/
@[simp]
def Frame.dispatches (m : Nat) : Frame n → Bool
  | .pushing _ m' => m = m'
  | _ => false

/-- An execution in progress. -/
@[simp]
def Frame.executes (m : Nat) : Frame n → Bool
  | .popped _ m' | .running _ m' | .finished _ m' | .functors _ m' _ | .functor _ m' _ => m = m'
  | _ => false

/-- A dispatch to the stage that has not been pushed. -/
@[simp]
def Frame.dispatchesTo (stage : Fin n) (m : Nat) : Frame n → Bool
  | .pushing stageName m' => stage = stageName && m = m'
  | _ => false

/-- A message that the stage has popped and not run. -/
@[simp]
def Frame.poppedBy (stage : Fin n) (m : Nat) : Frame n → Bool
  | .popped stage' m' => stage = stage' && m = m'
  | _ => false

/-- The references that an agent holds. -/
def Agent.references (m : Nat) (agent : Agent n) : Nat :=
  agent.handles.count m + agent.stack.countP (Frame.lends m) +
    agent.stack.countP (Frame.dispatches m) + agent.stack.countP (Frame.executes m)

/-- The dispatches to a stage that an agent has in its hands. -/
def Agent.carries (stage : Fin n) (m : Nat) (agent : Agent n) : Nat :=
  agent.stack.countP (Frame.dispatchesTo stage m) + agent.stack.countP (Frame.poppedBy stage m)

namespace State

variable (σ : State n N) (stage : Fin n) (m : Nat)

def liveHandles : Nat :=
  ∑ a, ((σ.agent a).handles.count m + (σ.agent a).stack.countP (Frame.lends m))

def queued : Nat :=
  ∑ s, (σ.queue s).count m

def dispatching : Nat :=
  ∑ a, (σ.agent a).stack.countP (Frame.dispatches m)

def executing : Nat :=
  ∑ a, (σ.agent a).stack.countP (Frame.executes m)

def popped : Nat :=
  ∑ a, (σ.agent a).stack.countP (Frame.poppedBy stage m)

def references : Nat :=
  ∑ a, (σ.agent a).references m + ∑ s, (σ.queue s).count m

def waiting : Nat :=
  ∑ a, (σ.agent a).carries stage m + (σ.queue stage).count m

theorem references_eq :
    σ.references m = σ.liveHandles m + σ.queued m + σ.dispatching m + σ.executing m := by
  simp only [references, Agent.references, liveHandles, queued, dispatching, executing,
    Finset.sum_add_distrib]
  omega

end State

/-- A fanout without a handle runs inside the processing of its message. -/
def Guarded : List (Frame n) → Prop
  | [] => True
  | .fanout m _ _ handle :: stack => (handle = false → stack.any (Frame.processes m)) ∧
      Guarded stack
  | _ :: stack => Guarded stack

theorem Guarded.of_cons {f : Frame n} {stack : List (Frame n)} (h : Guarded (f :: stack)) :
    Guarded stack := by
  cases f with
  | fanout => exact h.2
  | _ => exact h

theorem Frame.executes_of_processes {m : Nat} {f : Frame n} (h : f.processes m) : f.executes m := by
  cases f <;> simp_all [Frame.processes, Frame.executes, eq_comm]

/-- Whoever processes a message has a reference on it. -/
theorem Agent.references_pos_of_processes {agent : Agent n} {m : Nat}
    (h : agent.stack.any (Frame.processes m)) : 0 < agent.references m := by
  obtain ⟨f, hf, hp⟩ := List.any_eq_true.1 h
  -- the frame that processes `m` is one of its executions
  have hpos : 0 < agent.stack.countP (Frame.executes m) :=
    List.countP_pos_iff.2 ⟨f, hf, Frame.executes_of_processes hp⟩
  exact Nat.lt_of_lt_of_le hpos (Nat.le_add_left _ _)

theorem Agent.references_pos_of_handle {agent : Agent n} {m : Nat} (h : m ∈ agent.handles) :
    0 < agent.references m := by
  have hpos := List.count_pos_iff.2 h
  simp only [Agent.references]
  omega

theorem Agent.references_pos_of_holds {agent : Agent n} {m : Nat} (h : agent.holds m) :
    0 < agent.references m := by
  rcases Bool.or_eq_true_iff.1 h with hm | hs
  · exact references_pos_of_handle (of_decide_eq_true hm)
  · exact references_pos_of_processes hs

theorem State.references_pos {σ : State n N} {a : Fin N} {m : Nat}
    (h : 0 < (σ.agent a).references m) : 0 < σ.references m := by
  have hle : (σ.agent a).references m ≤ ∑ b, (σ.agent b).references m :=
    Finset.single_le_sum (f := fun b => (σ.agent b).references m) (fun _ _ => Nat.zero_le _)
      (Finset.mem_univ a)
  simp only [State.references]
  omega

section Update

variable {σ σ' : State n N} {a : Fin N} {agent : Agent n} {stage : Fin n} {q : List Nat}

/-- One agent changes what it holds. -/
theorem State.references_of_agent (hagent : σ'.agent = Function.update σ.agent a agent)
    (hqueue : σ'.queue = σ.queue) (m : Nat) :
    σ'.references m + (σ.agent a).references m = σ.references m + agent.references m := by
  have hsum := sum_update_add (fun _ => Agent.references m) σ.agent a agent
  simp only [State.references, hagent, hqueue]
  omega

theorem State.waiting_of_agent (hagent : σ'.agent = Function.update σ.agent a agent)
    (hqueue : σ'.queue = σ.queue) (s : Fin n) (m : Nat) :
    σ'.waiting s m + (σ.agent a).carries s m = σ.waiting s m + agent.carries s m := by
  have hsum := sum_update_add (fun _ => Agent.carries s m) σ.agent a agent
  simp only [State.waiting, hagent, hqueue]
  omega

/-- One agent and one queue change. -/
theorem State.references_of_queue (hagent : σ'.agent = Function.update σ.agent a agent)
    (hqueue : σ'.queue = Function.update σ.queue stage q) (m : Nat) :
    σ'.references m + ((σ.agent a).references m + (σ.queue stage).count m) =
      σ.references m + (agent.references m + q.count m) := by
  have hsum := sum_update_add (fun _ => Agent.references m) σ.agent a agent
  have hqueues := sum_update_add (fun _ => List.count m) σ.queue stage q
  simp only [State.references, hagent, hqueue]
  omega

theorem State.waiting_of_queue (hagent : σ'.agent = Function.update σ.agent a agent)
    (hqueue : σ'.queue = Function.update σ.queue stage q) (s : Fin n) (m : Nat) :
    σ'.waiting s m + ((σ.agent a).carries s m + (σ.queue s).count m) =
      σ.waiting s m + (agent.carries s m + (if s = stage then q else σ.queue s).count m) := by
  have hsum := sum_update_add (fun _ => Agent.carries s m) σ.agent a agent
  have hs : Function.update σ.queue stage q s = if s = stage then q else σ.queue s :=
    Function.update_apply _ _ _ _
  simp only [State.waiting, hagent, hqueue, hs]
  omega

end Update

/-- The references of an agent, one call at a time. -/
def Frame.references (m : Nat) (f : Frame n) : Nat :=
  (if f.lends m then 1 else 0) + (if f.dispatches m then 1 else 0) +
    if f.executes m then 1 else 0

def Frame.carries (stage : Fin n) (m : Nat) (f : Frame n) : Nat :=
  (if f.dispatchesTo stage m then 1 else 0) + if f.poppedBy stage m then 1 else 0

theorem Agent.references_cons (m : Nat) (handles : List Nat) (f : Frame n)
    (stack : List (Frame n)) :
    Agent.references m ⟨handles, f :: stack⟩ =
      Agent.references m ⟨handles, stack⟩ + f.references m := by
  simp only [Agent.references, Frame.references, List.countP_cons]
  omega

theorem Agent.carries_cons (stage : Fin n) (m : Nat) (handles : List Nat) (f : Frame n)
    (stack : List (Frame n)) :
    Agent.carries stage m ⟨handles, f :: stack⟩ =
      Agent.carries stage m ⟨handles, stack⟩ + f.carries stage m := by
  simp only [Agent.carries, Frame.carries, List.countP_cons]
  omega

/-- A further call. -/
theorem Agent.references_push (m : Nat) (agent : Agent n) (f : Frame n) :
    Agent.references m { agent with stack := f :: agent.stack } =
      agent.references m + f.references m :=
  references_cons m agent.handles f agent.stack

theorem Agent.carries_push (stage : Fin n) (m : Nat) (agent : Agent n) (f : Frame n) :
    Agent.carries stage m { agent with stack := f :: agent.stack } =
      agent.carries stage m + f.carries stage m :=
  carries_cons stage m agent.handles f agent.stack

theorem count_cons (y m : Nat) (l : List Nat) :
    (m :: l).count y = l.count y + if y = m then 1 else 0 := by
  simp only [List.count_cons, beq_iff_eq, eq_comm (a := m)]

theorem count_concat (y m : Nat) (l : List Nat) :
    (l ++ [m]).count y = l.count y + if y = m then 1 else 0 := by
  rw [List.count_append, count_cons, List.count_nil, Nat.zero_add]

theorem Agent.references_handle (y m : Nat) (agent : Agent n) :
    Agent.references y { agent with handles := m :: agent.handles } =
      agent.references y + if y = m then 1 else 0 := by
  simp only [Agent.references, count_cons]
  omega

theorem Agent.references_erase {agent : Agent n} {m : Nat} (h : m ∈ agent.handles) (y : Nat) :
    agent.references y =
      Agent.references y ⟨agent.handles.erase m, agent.stack⟩ + if y = m then 1 else 0 := by
  have hperm := (List.perm_cons_erase h).count_eq y
  rw [count_cons] at hperm
  simp only [Agent.references]
  omega

@[simp]
theorem Frame.references_pushing (m : Nat) (stageName : Fin n) (m' : Nat) :
    (Frame.pushing stageName m').references m = if m = m' then 1 else 0 := by
  simp [Frame.references]

@[simp]
theorem Frame.references_fanout (m m' : Nat) (stages : List (Fin n)) (clone handle : Bool) :
    (Frame.fanout m' stages clone handle).references m =
      if handle ∧ m = m' then 1 else 0 := by
  simp [Frame.references]

@[simp]
theorem Frame.carries_pushing (stage : Fin n) (m : Nat) (stageName : Fin n) (m' : Nat) :
    (Frame.pushing stageName m').carries stage m =
      if stage = stageName ∧ m = m' then 1 else 0 := by
  simp [Frame.carries]

structure Inv (σ : State n N) : Prop where
  counts : σ.heap.Counts σ.references
  guarded : ∀ a, Guarded (σ.agent a).stack
  sent : ∀ stage m, σ.sent stage m = σ.waiting stage m + σ.ran stage m

theorem Inv.initial : Inv (State.initial : State n N) where
  counts := RefHeap.Counts.empty.congr fun m => by
    simp [State.references, State.initial, Agent.references]
  guarded _ := trivial
  sent stage m := by simp [State.waiting, State.initial, Agent.carries]

theorem guarded_update {σ : State n N} (h : ∀ a, Guarded (σ.agent a).stack) {a : Fin N}
    {agent : Agent n} (ha : Guarded agent.stack) (b : Fin N) :
    Guarded (Function.update σ.agent a agent b).stack := by
  revert b
  rw [Function.forall_update_iff σ.agent fun _ agent => Guarded agent.stack]
  exact ⟨ha, fun b _ => h b⟩

theorem Inv.guarded_cons {σ : State n N} (h : Inv σ) {a : Fin N} {handles : List Nat}
    {f : Frame n} {stack : List (Frame n)} (ha : σ.agent a = ⟨handles, f :: stack⟩) :
    Guarded (f :: stack) := by
  have hstack := h.guarded a
  rwa [ha] at hstack

/-- A step of one agent that leaves the queues alone. -/
theorem Inv.of_agent {σ σ' : State n N} (h : Inv σ) {a : Fin N} {agent : Agent n}
    (hagent : σ'.agent = Function.update σ.agent a agent) (hqueue : σ'.queue = σ.queue)
    (hguarded : Guarded agent.stack)
    (hcounts : (∀ m, σ'.references m + (σ.agent a).references m =
      σ.references m + agent.references m) → σ'.heap.Counts σ'.references)
    (hsent : ∀ s m, σ'.sent s m + ((σ.agent a).carries s m + σ.ran s m) =
      σ.sent s m + (agent.carries s m + σ'.ran s m)) : Inv σ' := by
  refine ⟨hcounts (State.references_of_agent hagent hqueue), ?_, fun s m => ?_⟩
  · rw [hagent]
    exact guarded_update h.guarded hguarded
  · have hwaiting := State.waiting_of_agent hagent hqueue s m
    have hsent := hsent s m
    have hs := h.sent s m
    omega

/-- A step that moves a message between an agent and a queue. -/
theorem Inv.of_queue {σ σ' : State n N} (h : Inv σ) {a : Fin N} {agent : Agent n}
    {stage : Fin n} {q : List Nat} (hagent : σ'.agent = Function.update σ.agent a agent)
    (hqueue : σ'.queue = Function.update σ.queue stage q) (hheap : σ'.heap = σ.heap)
    (hsent : σ'.sent = σ.sent) (hran : σ'.ran = σ.ran) (hguarded : Guarded agent.stack)
    (hreferences : ∀ m, agent.references m + q.count m =
      (σ.agent a).references m + (σ.queue stage).count m)
    (hwaiting : ∀ s m, agent.carries s m + (if s = stage then q else σ.queue s).count m =
      (σ.agent a).carries s m + (σ.queue s).count m) : Inv σ' := by
  refine ⟨?_, ?_, fun s m => ?_⟩
  · rw [hheap]
    refine h.counts.congr fun m => ?_
    have hm := State.references_of_queue hagent hqueue m
    have hr := hreferences m
    omega
  · rw [hagent]
    exact guarded_update h.guarded hguarded
  · have hm := State.waiting_of_queue hagent hqueue s m
    have hr := hwaiting s m
    have hs := h.sent s m
    rw [hsent, hran]
    omega

/-- A step that changes neither the heap nor what is held. -/
theorem Inv.of_same {σ : State n N} (h : Inv σ) {a : Fin N} {agent : Agent n}
    (hguarded : Guarded agent.stack)
    (hreferences : ∀ m, agent.references m = (σ.agent a).references m)
    (hcarries : ∀ s m, agent.carries s m = (σ.agent a).carries s m) :
    Inv (σ.setAgent a agent) := by
  refine h.of_agent rfl rfl hguarded (fun hrefs => h.counts.congr fun m => ?_) fun s m => ?_
  · have hm := hrefs m
    have hr := hreferences m
    omega
  · rw [hcarries s m]
    rfl

theorem Inv.incrementReferenceCount {σ : State n N} (h : Inv σ) {a : Fin N} {agent : Agent n}
    {m : Nat} (hpos : 0 < σ.references m) (stageName : Fin n) (hguarded : Guarded agent.stack)
    (hreferences : ∀ y, agent.references y = (σ.agent a).references y)
    (hcarries : ∀ s y, agent.carries s y = (σ.agent a).carries s y) :
    Inv (σ.incrementReferenceCount a agent stageName m) := by
  refine h.of_agent rfl rfl hguarded (fun hrefs => h.counts.acquire hpos fun y => ?_)
    fun s y => ?_
  · have hy := hrefs y
    have hr := hreferences y
    rw [Agent.references_push, Frame.references_pushing] at hy
    omega
  · rw [Agent.carries_push, Frame.carries_pushing, hcarries]
    simp only [State.incrementReferenceCount, bump]
    omega

theorem Inv.cloneMessage {σ : State n N} (h : Inv σ) {a : Fin N} {agent : Agent n} {m : Nat}
    (hpos : 0 < σ.references m) (stageName : Fin n) (hguarded : Guarded agent.stack)
    (hreferences : ∀ y, agent.references y = (σ.agent a).references y)
    (hcarries : ∀ s y, agent.carries s y = (σ.agent a).carries s y) :
    Inv (σ.cloneMessage a agent stageName m) := by
  -- the copy is made from a message that is there
  have htouch := h.counts.touch hpos
  refine h.of_agent rfl rfl hguarded (fun hrefs => ?_) fun s y => ?_
  · simp only [State.cloneMessage, htouch]
    refine h.counts.alloc fun y => ?_
    have hy := hrefs y
    have hr := hreferences y
    rw [Agent.references_push, Frame.references_pushing, htouch] at hy
    simp only [State.cloneMessage, htouch] at hy ⊢
    omega
  · rw [Agent.carries_push, Frame.carries_pushing, hcarries]
    simp only [State.cloneMessage, bump]
    omega

theorem Inv.clientStep {σ σ' : State n N} (h : Inv σ) {a : Fin N} {action : Action n N}
    (hs : clientStep σ a action = some σ') : Inv σ' := by
  cases action with
  | create b =>
    cases hs
    -- the handle is the first reference on the new message
    refine h.of_agent rfl rfl (h.guarded a) (fun hrefs => h.counts.alloc fun y => ?_) fun s y => rfl
    have hy := hrefs y
    simp only [Agent.references_handle] at hy ⊢
    omega
  | copyHandle _ b m =>
    obtain ⟨hholds, ⟨⟩⟩ := Option.ite_none_right_eq_some.1 hs
    have hpos := State.references_pos (Agent.references_pos_of_holds hholds)
    refine h.of_agent rfl rfl (h.guarded b) (fun hrefs => h.counts.acquire hpos fun y => ?_)
      fun s y => rfl
    have hy := hrefs y
    simp only [Agent.references_handle] at hy ⊢
    omega
  | dropHandle _ m =>
    obtain ⟨hm, ⟨⟩⟩ := Option.ite_none_right_eq_some.1 hs
    refine h.of_agent rfl rfl (h.guarded a) (fun hrefs => h.counts.release fun y => ?_)
      fun s y => rfl
    have hy := hrefs y
    -- the handle that is dropped is one of the references of the agent
    have herase := Agent.references_erase hm y
    simp only at hy ⊢
    omega
  | dispatch _ stageName m =>
    obtain ⟨hholds, ⟨⟩⟩ := Option.ite_none_right_eq_some.1 hs
    exact h.incrementReferenceCount (State.references_pos (Agent.references_pos_of_holds hholds))
      stageName (h.guarded a) (fun _ => rfl) fun _ _ => rfl
  | cloneDispatch _ stageName m =>
    obtain ⟨hholds, ⟨⟩⟩ := Option.ite_none_right_eq_some.1 hs
    exact h.cloneMessage (State.references_pos (Agent.references_pos_of_holds hholds))
      stageName (h.guarded a) (fun _ => rfl) fun _ _ => rfl
  | fanout _ m stages clone handle =>
    cases handle with
    | true =>
      obtain ⟨hm, ⟨⟩⟩ := Option.ite_none_right_eq_some.1 hs
      -- the handle moves from the agent into the call
      refine h.of_same ⟨nofun, h.guarded a⟩ (fun y => ?_) fun s y => ?_
      · have herase := Agent.references_erase hm y
        rw [Agent.references_cons, Frame.references_fanout]
        simp only [true_and]
        omega
      · exact Agent.carries_push s y (σ.agent a) _
    | false =>
      obtain ⟨hp, ⟨⟩⟩ := Option.ite_none_right_eq_some.1 hs
      -- no reference moves; the processing that goes on below keeps the message
      refine h.of_same ⟨fun _ => hp, h.guarded a⟩ (fun y => ?_) fun s y => ?_
      · rw [Agent.references_push, Frame.references_fanout]
        simp
      · exact Agent.carries_push s y (σ.agent a) _
  | pop => exact nomatch hs
  | advance => exact nomatch hs

/-- The innermost call is replaced by one with the same references. -/
theorem Inv.replace {σ : State n N} (h : Inv σ) {a : Fin N} {handles : List Nat} {f g : Frame n}
    {stack : List (Frame n)} (ha : σ.agent a = ⟨handles, f :: stack⟩)
    (hg : Guarded stack → Guarded (g :: stack))
    (hreferences : ∀ m, g.references m = f.references m)
    (hcarries : ∀ s m, g.carries s m = f.carries s m) :
    Inv (σ.setAgent a ⟨handles, g :: stack⟩) := by
  refine h.of_same (hg (h.guarded_cons ha).of_cons) (fun m => ?_) fun s m => ?_
  · rw [ha, Agent.references_cons, Agent.references_cons, hreferences]
  · rw [ha, Agent.carries_cons, Agent.carries_cons, hcarries]

/-- The innermost call returns its reference. -/
theorem Inv.release {σ : State n N} (h : Inv σ) {a : Fin N} {handles : List Nat} {f : Frame n}
    {stack : List (Frame n)} {m : Nat} (ha : σ.agent a = ⟨handles, f :: stack⟩)
    (hreferences : ∀ y, f.references y = if y = m then 1 else 0)
    (hcarries : ∀ s y, f.carries s y = 0) :
    Inv { σ with
      heap := σ.heap.release m
      agent := Function.update σ.agent a ⟨handles, stack⟩ } := by
  refine h.of_agent rfl rfl (h.guarded_cons ha).of_cons (fun hrefs => h.counts.release fun y => ?_)
    fun s y => ?_
  · have hy := hrefs y
    rw [ha, Agent.references_cons, hreferences] at hy
    omega
  · rw [ha, Agent.carries_cons, hcarries, Nat.add_zero]

/-- The innermost call begins to run its message. -/
theorem Inv.starts {σ : State n N} (h : Inv σ) {a : Fin N} {handles : List Nat} {f g : Frame n}
    {stack : List (Frame n)} {stage : Fin n} {m : Nat} (ha : σ.agent a = ⟨handles, f :: stack⟩)
    (hg : Guarded stack → Guarded (g :: stack))
    (hreferences : ∀ y, g.references y = f.references y)
    (hcarries : ∀ s y, f.carries s y = g.carries s y + if s = stage ∧ y = m then 1 else 0) :
    Inv { σ with
      agent := Function.update σ.agent a ⟨handles, g :: stack⟩
      ran := bump σ.ran stage m } := by
  refine h.of_agent rfl rfl (hg (h.guarded_cons ha).of_cons)
    (fun hrefs => h.counts.congr fun y => ?_) fun s y => ?_
  · have hy := hrefs y
    rw [ha, Agent.references_cons, Agent.references_cons, hreferences] at hy
    omega
  · rw [ha, Agent.carries_cons, Agent.carries_cons, hcarries]
    simp only [bump]
    omega

/-- The push at the end of a dispatch. -/
theorem Inv.push {σ : State n N} (h : Inv σ) {a : Fin N} {handles : List Nat}
    {stack : List (Frame n)} {stageName : Fin n} {m : Nat}
    (ha : σ.agent a = ⟨handles, .pushing stageName m :: stack⟩) :
    Inv { σ with
      agent := Function.update σ.agent a ⟨handles, stack⟩
      queue := Function.update σ.queue stageName (σ.queue stageName ++ [m]) } := by
  refine h.of_queue rfl rfl rfl rfl rfl (h.guarded_cons ha).of_cons (fun y => ?_) fun s y => ?_
  · rw [ha, Agent.references_cons, Frame.references_pushing, count_concat]
    omega
  · rw [ha, Agent.carries_cons, Frame.carries_pushing]
    -- only the queue of the target has changed
    by_cases hstage : s = stageName
    · subst s
      rw [if_pos rfl, count_concat]
      simp only [true_and]
      omega
    · simp [hstage]

theorem Inv.pop {σ : State n N} (h : Inv σ) {a : Fin N} {handles : List Nat} {stage : Fin n}
    {m : Nat} {rest : List Nat} (ha : σ.agent a = ⟨handles, []⟩)
    (hq : σ.queue stage = m :: rest) :
    Inv { σ with
      agent := Function.update σ.agent a ⟨handles, [.popped stage m]⟩
      queue := Function.update σ.queue stage rest } := by
  refine h.of_queue rfl rfl rfl rfl rfl trivial (fun y => ?_) fun s y => ?_
  · rw [ha, Agent.references_cons, hq, count_cons]
    simp only [Frame.references, Frame.lends, Frame.dispatches, Frame.executes,
      decide_eq_true_eq, Bool.false_eq_true, if_false]
    omega
  · rw [ha, Agent.carries_cons]
    -- the popped message waits in the hands of the agent instead
    by_cases hstage : s = stage
    · subst s
      rw [if_pos rfl, hq, count_cons]
      simp [Frame.carries]
      omega
    · simp [hstage, Frame.carries]

/-- The message of a fanout stays referenced until the last dispatch. -/
theorem Inv.references_pos_of_fanout {σ : State n N} (h : Inv σ) {a : Fin N}
    {handles : List Nat} {stack : List (Frame n)} {m : Nat} {stages : List (Fin n)}
    {clone handle : Bool}
    (ha : σ.agent a = ⟨handles, .fanout m stages clone handle :: stack⟩) :
    0 < σ.references m := by
  apply State.references_pos (a := a)
  rw [ha, Agent.references_cons]
  cases handle with
  | true =>
    rw [Frame.references_fanout, if_pos ⟨rfl, rfl⟩]
    omega
  | false =>
    -- without a handle, the processing of the message goes on below
    have hp := (h.guarded_cons ha).1 rfl
    exact Nat.lt_of_lt_of_le (Agent.references_pos_of_processes hp) (Nat.le_add_right _ _)

/-- `FanoutProcessingFunctor::dispatch` returns. -/
theorem Inv.fanout_nil {σ : State n N} (h : Inv σ) {a : Fin N} {handles : List Nat}
    {stack : List (Frame n)} {m : Nat} {clone handle : Bool}
    (ha : σ.agent a = ⟨handles, .fanout m [] clone handle :: stack⟩) :
    Inv (σ.setAgent a
      { handles := if handle then m :: handles else handles, stack := stack }) := by
  refine h.of_same (h.guarded_cons ha).of_cons (fun y => ?_) fun s y => ?_
  · rw [ha, Agent.references_cons, Frame.references_fanout]
    cases handle with
    -- the caller has its handle back
    | true => simpa using Agent.references_handle y m ⟨handles, stack⟩
    | false => simp
  · rw [ha, Agent.carries_cons]
    rfl

/-- The dispatch to the next stage of the list. -/
theorem Inv.fanout_cons {σ : State n N} (h : Inv σ) {a : Fin N} {handles : List Nat}
    {stack : List (Frame n)} {m : Nat} {stageName : Fin n} {stages : List (Fin n)}
    {clone handle : Bool}
    (ha : σ.agent a = ⟨handles, .fanout m (stageName :: stages) clone handle :: stack⟩) :
    let agent : Agent n := ⟨handles, .fanout m stages clone handle :: stack⟩
    Inv (if clone then σ.cloneMessage a agent stageName m
      else σ.incrementReferenceCount a agent stageName m) := by
  have hpos := h.references_pos_of_fanout ha
  have hguarded := h.guarded_cons ha
  have hreferences (y : Nat) :
      Agent.references y ⟨handles, .fanout m stages clone handle :: stack⟩ =
        (σ.agent a).references y := by
    rw [ha, Agent.references_cons, Agent.references_cons, Frame.references_fanout,
      Frame.references_fanout]
  have hcarries (s : Fin n) (y : Nat) :
      Agent.carries s y ⟨handles, .fanout m stages clone handle :: stack⟩ =
        (σ.agent a).carries s y := by
    rw [ha, Agent.carries_cons, Agent.carries_cons]
    rfl
  cases clone with
  | true => exact h.cloneMessage hpos stageName hguarded hreferences hcarries
  | false => exact h.incrementReferenceCount hpos stageName hguarded hreferences hcarries

theorem Inv.advance {kind : Fin n → QueueKind} {σ σ' : State n N} (h : Inv σ) {a : Fin N}
    (hs : advance kind σ a = some σ') : Inv σ' := by
  rcases ha : σ.agent a with ⟨handles, _ | ⟨f, stack⟩⟩
  · simp [Messages.advance, ha] at hs
  -- a call that holds a reference finds its message there
  have htouch {m : Nat} (hm : 0 < f.references m) : σ.heap.touch m = σ.heap := by
    apply h.counts.touch
    apply State.references_pos (a := a)
    rw [ha, Agent.references_cons]
    omega
  cases f with
  | pushing stageName m =>
    simp only [Messages.advance, ha] at hs
    cases hkind : kind stageName with
    | fifo =>
      simp only [hkind] at hs
      cases hs
      exact h.push ha
    | passThrough =>
      simp only [hkind] at hs
      cases hs
      exact h.starts ha id (by simp [Frame.references]) (by simp [Frame.carries])
    | chain NumberOfProcessingFunctors =>
      simp only [hkind] at hs
      cases hs
      exact h.starts ha id (by simp [Frame.references]) (by simp [Frame.carries])
  | fanout m stages clone handle =>
    cases stages with
    | nil =>
      simp only [Messages.advance, ha] at hs
      cases hs
      exact h.fanout_nil ha
    | cons stageName stages =>
      simp only [Messages.advance, ha] at hs
      cases hs
      exact h.fanout_cons ha
  | popped stage m =>
    simp only [Messages.advance, ha] at hs
    cases hs
    rw [htouch (by simp [Frame.references])]
    exact h.starts ha id (by simp [Frame.references]) (by simp [Frame.carries])
  | running stage m =>
    simp only [Messages.advance, ha] at hs
    cases hs
    exact h.replace ha id (by simp [Frame.references]) (by simp [Frame.carries])
  | finished stage m =>
    simp only [Messages.advance, ha] at hs
    cases hs
    exact h.release ha (by simp [Frame.references]) (by simp [Frame.carries])
  | functors stage m left =>
    cases left with
    | zero =>
      simp only [Messages.advance, ha] at hs
      cases hs
      exact h.release ha (by simp [Frame.references]) (by simp [Frame.carries])
    | succ left =>
      simp only [Messages.advance, ha] at hs
      cases hs
      rw [htouch (by simp [Frame.references])]
      exact h.replace ha id (by simp [Frame.references]) (by simp [Frame.carries])
  | functor stage m left =>
    simp only [Messages.advance, ha] at hs
    cases hs
    exact h.replace ha id (by simp [Frame.references]) (by simp [Frame.carries])

theorem Inv.step {kind : Fin n → QueueKind} {σ σ' : State n N} (h : Inv σ)
    {action : Action n N} (hs : step kind σ action = some σ') : Inv σ' := by
  cases action with
  | advance a => exact h.advance hs
  | pop a stage =>
    rcases ha : σ.agent a with ⟨handles, _ | ⟨f, stack⟩⟩
    · cases hq : σ.queue stage with
      | nil => simp [Messages.step, ha, hq] at hs
      | cons m rest =>
        simp only [Messages.step, ha, hq] at hs
        cases hs
        exact h.pop ha hq
    · simp [Messages.step, ha] at hs
  | _ => exact h.clientStep (Option.ite_none_right_eq_some.1 hs).2

theorem inv_invariant (kind : Fin n → QueueKind) (N : Nat) : (system kind N).Invariant Inv where
  init σ h := by
    have hinit : σ = State.initial := h
    rw [hinit]
    exact .initial
  step _ _ _ h hs := h.step hs

end Wield.Messages
