import Wield.SchedulerBase.Capacity

/-!
# Order in a pipeline

Where at most one thread visits a stage at a time, a stage has at most one message between its pop
and its forward, so the messages leave a stage in the order in which they were popped there.  FIFO
queues carry that order from stage to stage.
-/

namespace Wield

/-- Stages that forward to at most one successor each, no two to the same. -/
structure Pipeline (n : Nat) where
  next : Fin n → Option (Fin n)
  injective : ∀ r s s', next r = some s' → next s = some s' → r = s

namespace Pipeline

variable {n : Nat} (line : Pipeline n)

/-- Each functor forwards every message to the next stage; clients dispatch to stages that have no
    predecessor. -/
@[reducible] def application (Message : Type) : Application n where
  Message := Message
  Env := Unit
  env := ()
  functor s m _ :=
    match line.next s with
    | some s' => [(s', m)]
    | none => []
  mayThrow := false
  entry s := decide (∀ r, line.next r ≠ some s)

variable {line} {Message : Type} {s s' : Fin n}

theorem functor_of_next (hs : line.next s = some s') (m : Message) (v : Unit) :
    (line.application Message).functor s m v = [(s', m)] := by
  simp only [hs]

/-- A functor dispatches its message to the next stage, if there is one. -/
theorem functor_cases (s : Fin n) (m : Message) (v : Unit) :
    (∃ s', line.next s = some s' ∧ (line.application Message).functor s m v = [(s', m)]) ∨
      (line.application Message).functor s m v = [] := by
  cases hs : line.next s with
  | none => exact .inr (by simp only [hs])
  | some s' => exact .inl ⟨s', rfl, functor_of_next hs m v⟩

/-- The stages `0, 1, …` in their order. -/
def linear (n : Nat) : Pipeline n where
  next s := if h : s + 1 < n then some ⟨s + 1, h⟩ else none
  injective r s s' hr hs := by
    simp only [Option.dite_none_right_eq_some, Option.some.injEq] at hr hs
    obtain ⟨_, hr⟩ := hr
    obtain ⟨_, hs⟩ := hs
    have heq := congrArg Fin.val (hr.trans hs.symm)
    simp only at heq
    exact Fin.ext (by omega)

end Pipeline

namespace SchedulerBase

open Theory StageChooser

variable {n T C : Nat} {M : SchedulingPolicy n T}

/-- No stage has two visitors. -/
def Exclusive {A : Application n} (σ : State M A C) : Prop :=
  ∀ s t u, (σ.pc t).Visits s → (σ.pc u).Visits s → t = u

/-- A push goes to the back of its queue. -/
theorem fifo_push {A : Application n} {σ : State M A C}
    (h : ∀ s, σ.arrived s = σ.popped s ++ σ.queue s) (target : Fin n) (m : A.Message) (s : Fin n) :
    (σ.push target m).arrived s = (σ.push target m).popped s ++ (σ.push target m).queue s := by
  rw [State.push_arrived, State.push_popped, State.push_queue]
  by_cases hs : s = target
  · subst s
    rw [Function.update_self, Function.update_self, h target, List.append_assoc]
  · rw [Function.update_of_ne hs, Function.update_of_ne hs]
    exact h s

/-- A pop takes the front of its queue. -/
theorem fifo_pop {A : Application n} {σ : State M A C}
    (h : ∀ s, σ.arrived s = σ.popped s ++ σ.queue s) {stage : Fin n} {m : A.Message}
    {rest : List A.Message} (hq : σ.queue stage = m :: rest) (s : Fin n) :
    (σ.pop stage m rest).arrived s =
      (σ.pop stage m rest).popped s ++ (σ.pop stage m rest).queue s := by
  rw [State.pop_arrived, State.pop_popped, State.pop_queue]
  by_cases hs : s = stage
  · subst s
    rw [Function.update_self, Function.update_self, h stage, hq, List.append_assoc,
      List.singleton_append]
  · rw [Function.update_of_ne hs, Function.update_of_ne hs]
    exact h s

section

variable {line : Pipeline n} {Message : Type}

/-- The order in which a stage pops is the order in which its predecessor forwarded, which is the
    order in which the predecessor popped; the first stage pops in the order of arrival. -/
structure InOrder (σ : State M (line.application Message) C) : Prop where
  popped : ∀ s s', line.next s = some s' → σ.popped s' <+: σ.forwarded s
  forwarded : ∀ s s', line.next s = some s' → σ.forwarded s <+: σ.popped s
  first : ∀ s, (∀ r, line.next r ≠ some s) → σ.popped s <+: σ.arrived s

/-- A popped message is with the thread that popped it until it is forwarded. -/
structure PipelineInv (σ : State M (line.application Message) C) : Prop where
  fifo : ∀ s, σ.arrived s = σ.popped s ++ σ.queue s
  /-- What a functor has left to do: all of its dispatches or none. -/
  todo : ∀ t s m todo, σ.pc t = .running s m todo →
    todo = [] ∨ ∃ s', line.next s = some s' ∧ todo = [(s', m)]
  /-- After its only dispatch a functor returns. -/
  pushed : ∀ t s m target todo, σ.pc t = .pushed s m target todo → todo = []
  carried : ∀ t s m s', σ.pc t = .running s m [(s', m)] → σ.popped s = σ.forwarded s ++ [m]
  settled : ∀ s s', line.next s = some s' → (∀ t m, σ.pc t ≠ .running s m [(s', m)]) →
    σ.popped s = σ.forwarded s
  arrived : ∀ s s', line.next s = some s' → σ.arrived s' = σ.forwarded s

theorem PipelineInv.inOrder {σ : State M (line.application Message) C} (h : PipelineInv σ) :
    InOrder σ where
  popped s s' hs := by
    rw [← h.arrived s s' hs, h.fifo s']
    exact List.prefix_append _ _
  forwarded s s' hs := by
    by_cases hcarried : ∃ t m, σ.pc t = .running s m [(s', m)]
    · obtain ⟨t, m, hpc⟩ := hcarried
      rw [h.carried t s m s' hpc]
      exact List.prefix_append _ _
    · rw [h.settled s s' hs fun t m hpc => hcarried ⟨t, m, hpc⟩]
  first s _ := by
    rw [h.fifo s]
    exact List.prefix_append _ _

/-- A thread that moves between two places at which it carries nothing. -/
theorem PipelineInv.move {σ σ' : State M (line.application Message) C} (h : PipelineInv σ)
    (t : Fin T) (pc : Pc M (line.application Message)) (hpc : σ'.pc = Function.update σ.pc t pc)
    (hqueue : σ'.queue = σ.queue) (harrived : σ'.arrived = σ.arrived)
    (hpopped : σ'.popped = σ.popped) (hforwarded : σ'.forwarded = σ.forwarded)
    (hbefore : ∀ s m todo, σ.pc t = .running s m todo → todo = [])
    (hrun : ∀ s m todo, pc = .running s m todo → todo = [])
    (hpushed : ∀ s m target todo, pc = .pushed s m target todo → todo = []) :
    PipelineInv σ' := by
  have other : ∀ u, u ≠ t → σ'.pc u = σ.pc u := by
    intro u hu
    rw [hpc, Function.update_of_ne hu]
  have self : σ'.pc t = pc := by rw [hpc, Function.update_self]
  refine ⟨by rw [harrived, hpopped, hqueue]; exact h.fifo, ?_, ?_, ?_, ?_,
    by rw [harrived, hforwarded]; exact h.arrived⟩
  · intro u s m todo hu
    by_cases hut : u = t
    · exact .inl (hrun s m todo (by rw [← self, ← hut]; exact hu))
    · exact h.todo u s m todo (other u hut ▸ hu)
  · intro u s m target todo hu
    by_cases hut : u = t
    · exact hpushed s m target todo (by rw [← self, ← hut]; exact hu)
    · exact h.pushed u s m target todo (other u hut ▸ hu)
  · intro u s m s' hu
    rw [hpopped, hforwarded]
    by_cases hut : u = t
    · exact absurd (hrun s m _ (by rw [← self, ← hut]; exact hu)) (List.cons_ne_nil _ _)
    · exact h.carried u s m s' (other u hut ▸ hu)
  · intro s s' hs hnone
    rw [hpopped, hforwarded]
    refine h.settled s s' hs fun u m hu => ?_
    by_cases hut : u = t
    · exact absurd (hbefore s m _ (hut ▸ hu)) (List.cons_ne_nil _ _)
    · exact hnone u m (by rw [other u hut]; exact hu)

/-- A thread that pops carries the message from then on; nobody else is at the stage. -/
theorem PipelineInv.pop {σ : State M (line.application Message) C} (h : PipelineInv σ)
    (hex : Exclusive σ) {t : Fin T} {s : Fin n} {m : Message} {rest : List Message} (v : Unit)
    (hpc : σ.pc t = .poll s) (hq : σ.queue s = m :: rest) :
    PipelineInv ((σ.pop s m rest).setPc t
      (.running s m ((line.application Message).functor s m v))) := by
  -- the thread that pops is the only visitor of `s`
  have alone : ∀ u m' todo, σ.pc u ≠ .running s m' todo := by
    intro u m' todo hu
    have heq := hex s u t (by rw [hu]; rfl) (by rw [hpc]; rfl)
    rw [heq, hpc] at hu
    cases hu
  refine ⟨fifo_pop h.fifo hq, fun u r m' todo hu => ?_, fun u r m' target todo hu => ?_,
    fun u r m' r' hu => ?_, fun r r' hr hnone => ?_, h.arrived⟩
  · rcases State.setPc_pc_cases hu with ⟨_, hrun⟩ | ⟨_, hu⟩
    · cases hrun
      exact (Pipeline.functor_cases s m v).symm
    · exact h.todo u r m' todo hu
  · rcases State.setPc_pc_cases hu with ⟨_, hrun⟩ | ⟨_, hu⟩
    · cases hrun
    · exact h.pushed u r m' target todo hu
  · show Function.update σ.popped s (σ.popped s ++ [m]) r = σ.forwarded r ++ [m']
    rcases State.setPc_pc_cases hu with ⟨_, hrun⟩ | ⟨_, hu⟩
    · injection hrun with hs hm htodo
      subst r m'
      rw [Function.update_self]
      rcases Pipeline.functor_cases s m v with ⟨s', hs', _⟩ | hnil
      · -- so all that was popped at `s` before has been forwarded
        rw [h.settled s s' hs' fun u m' => alone u m' _]
      · cases hnil.symm.trans htodo
    · have hrs : r ≠ s := by
        rintro rfl
        exact alone u m' _ hu
      rw [Function.update_of_ne hrs]
      exact h.carried u r m' r' hu
  · show Function.update σ.popped s (σ.popped s ++ [m]) r = σ.forwarded r
    by_cases hrs : r = s
    · subst r
      refine absurd ?_ (hnone t m)
      rw [State.setPc_pc, Function.update_self, Pipeline.functor_of_next hr]
    · rw [Function.update_of_ne hrs]
      refine h.settled r r' hr fun u m' hu => hnone u m' ?_
      have hut : u ≠ t := by
        rintro rfl
        rw [hpc] at hu
        cases hu
      exact (State.setPc_pc_of_ne _ hut _).trans hu

/-- The forward of the carried message. -/
theorem PipelineInv.push {σ : State M (line.application Message) C} (h : PipelineInv σ)
    (hex : Exclusive σ) {t : Fin T} {s target : Fin n} {m m' : Message}
    {todo : List (Fin n × Message)} (hpc : σ.pc t = .running s m ((target, m') :: todo)) :
    PipelineInv (((σ.push target m').forward s m').setPc t (.pushed s m target todo)) := by
  -- the only dispatch a functor makes is that of its message to the next stage
  obtain hnil | ⟨s', hs', htodo⟩ := h.todo t s m _ hpc
  · cases hnil
  injection htodo with hhead htail
  injection hhead with htarget hm
  subst target m' todo
  have alone : ∀ u r m' todo, σ.pc u = .running r m' todo → u ≠ t → r ≠ s := by
    rintro u r m' todo hu hut rfl
    exact hut (hex r u t (by rw [hu]; rfl) (by rw [hpc]; rfl))
  have hpopped := h.carried t s m s' hpc
  refine ⟨fifo_push h.fifo s' m, fun u r m' todo hu => ?_, fun u r m' target todo hu => ?_,
    fun u r m' r' hu => ?_, fun r r' hr hnone => ?_, fun r r' hr => ?_⟩
  · rcases State.setPc_pc_cases hu with ⟨_, hrun⟩ | ⟨_, hu⟩
    · cases hrun
    · exact h.todo u r m' todo hu
  · rcases State.setPc_pc_cases hu with ⟨_, hrun⟩ | ⟨_, hu⟩
    · injection hrun with _ _ _ htodo
      exact htodo.symm
    · exact h.pushed u r m' target todo hu
  · show σ.popped r = Function.update σ.forwarded s (σ.forwarded s ++ [m]) r ++ [m']
    rcases State.setPc_pc_cases hu with ⟨_, hrun⟩ | ⟨hut, hu⟩
    · cases hrun
    · rw [Function.update_of_ne (alone u r m' _ hu hut)]
      exact h.carried u r m' r' hu
  · show σ.popped r = Function.update σ.forwarded s (σ.forwarded s ++ [m]) r
    by_cases hrs : r = s
    · subst r
      rw [Function.update_self]
      exact hpopped
    · rw [Function.update_of_ne hrs]
      refine h.settled r r' hr fun u m' hu => hnone u m' ?_
      have hut : u ≠ t := by
        rintro rfl
        rw [hpc] at hu
        injection hu with hsr
        exact hrs hsr.symm
      exact (State.setPc_pc_of_ne _ hut _).trans hu
  · show Function.update σ.arrived s' (σ.arrived s' ++ [m]) r' =
      Function.update σ.forwarded s (σ.forwarded s ++ [m]) r
    by_cases hrs : r = s
    · subst r
      have heq : r' = s' := Option.some.inj (hr.symm.trans hs')
      subst r'
      rw [Function.update_self, Function.update_self, h.arrived s s' hs']
    -- no other stage forwards to `s'`
    · have hne : r' ≠ s' := by
        rintro rfl
        exact hrs (line.injective r s r' hr hs')
      rw [Function.update_of_ne hrs, Function.update_of_ne hne]
      exact h.arrived r r' hr

/-- A dispatch from outside, to a stage without a predecessor. -/
theorem PipelineInv.clientPush {σ : State M (line.application Message) C} (h : PipelineInv σ)
    (c : Fin C) {target : Fin n} (m : Message)
    (he : (line.application Message).entry target = true) :
    PipelineInv ((σ.push target m).setClient c (some target)) := by
  refine ⟨fifo_push h.fifo target m, h.todo, h.pushed, h.carried, h.settled, fun r r' hr => ?_⟩
  -- clients dispatch to stages without a predecessor only
  have hne : r' ≠ target := by
    rintro rfl
    exact of_decide_eq_true he r hr
  rw [State.setClient_arrived, State.push_arrived, Function.update_of_ne hne]
  exact h.arrived r r' hr

/-- Every step of a scheduler under which stages have one visitor at a time. -/
theorem PipelineInv.step {σ σ' : State M (line.application Message) C}
    {a : Action M (line.application Message) C} (h : PipelineInv σ) (hex : Exclusive σ)
    (hs : Step σ a σ') : PipelineInv σ' := by
  cases hs with
  | leave t e v hpc hd => exact h.move t _ rfl rfl rfl rfl rfl (by simp [hpc]) (by simp) (by simp)
  | enter t e v hpc hd => exact h.move t _ rfl rfl rfl rfl rfl (by simp [hpc]) (by simp) (by simp)
  | call t e v p policy p' hpc hp =>
    exact h.move t _ rfl rfl rfl rfl rfl (by simp [hpc]) (by simp) (by simp)
  | visit t e v p policy s hpc hp =>
    exact h.move t _ rfl rfl rfl rfl rfl (by simp [hpc]) (by simp) (by simp)
  | pop t e v s m rest hpc hq => exact h.pop hex v hpc hq
  | empty t e v s hpc hq =>
    exact h.move t _ rfl rfl rfl rfl rfl (by simp [hpc]) (by simp) (by simp)
  | push t e v s m target m' todo hpc => exact h.push hex hpc
  | account t e v s m target todo hpc =>
    have htodo := h.pushed t s m target todo hpc
    exact h.move t _ rfl rfl rfl rfl rfl (by simp [hpc])
      (by rintro _ _ _ ⟨⟩; exact htodo) (by simp)
  | returns t e v s m hpc =>
    exact h.move t _ rfl rfl rfl rfl rfl (by rw [hpc]; rintro _ _ _ ⟨⟩; rfl) (by simp) (by simp)
  | batchEnd t e v s info hpc =>
    exact h.move t _ rfl rfl rfl rfl rfl (by simp [hpc]) (by simp) (by simp)
  | throw t s m todo hA hpc => cases hA
  | clientPush c target m hc he => exact h.clientPush c m he
  | clientDone c target hc => exact ⟨h.fifo, h.todo, h.pushed, h.carried, h.settled, h.arrived⟩
  | stop => exact ⟨h.fifo, h.todo, h.pushed, h.carried, h.settled, h.arrived⟩

theorem PipelineInv.initial {σ : State M (line.application Message) C} (h : Initial σ) :
    PipelineInv σ where
  fifo s := by rw [h.arrived, h.popped, h.queue]; rfl
  todo t s m todo hpc := by rw [h.pc] at hpc; cases hpc
  pushed t s m target todo hpc := by rw [h.pc] at hpc; cases hpc
  carried t s m s' hpc := by rw [h.pc] at hpc; cases hpc
  settled s s' _ _ := by rw [h.popped, h.forwarded]
  arrived s s' _ := by rw [h.arrived, h.forwarded]

/-- An invariant that leaves stages one visitor at a time keeps the order of the pipeline. -/
theorem inOrder_of_exclusive {I : State M (line.application Message) C → Prop}
    (hI : (system M (line.application Message) C).Invariant I) (hex : ∀ σ, I σ → Exclusive σ)
    {σ : State M (line.application Message) C}
    (hσ : (system M (line.application Message) C).Reachable σ) : InOrder σ := by
  have hinv : (system M (line.application Message) C).Invariant fun σ => I σ ∧ PipelineInv σ :=
    ⟨fun σ h => ⟨hI.init σ h, .initial h⟩,
      fun σ a σ' h hs => ⟨hI.step σ a σ' h.1 hs, h.2.step (hex σ h.1) (step_inv hs)⟩⟩
  exact (hinv.holds hσ).2.inOrder

/-- `ThreadPerStage` sends every thread to its own stage only. -/
theorem threadPerStage_invariant (A : Application n) :
    (system (ThreadPerStage n) A C).Invariant fun σ => ∀ t s, (σ.pc t).Visits s → s = t where
  init σ h t s hv := by
    rw [h.pc t] at hv
    exact hv.elim
  step σ a σ' h hs := by
    -- a thread that moves to a place that is not at another stage
    have move : ∀ t pc, σ'.pc = Function.update σ.pc t pc → (∀ s, pc.Visits s → s = t) →
        ∀ u s, (σ'.pc u).Visits s → s = u := by
      intro t pc hpc' hpc u s hv
      rw [hpc'] at hv
      by_cases hut : u = t
      · subst u
        rw [Function.update_self] at hv
        exact hpc s hv
      · rw [Function.update_of_ne hut] at hv
        exact h u s hv
    have keep : ∀ t pc, σ.pc t = pc → ∀ s, pc.Visits s → s = t := fun t pc hpc s hv =>
      h t s (by rw [hpc]; exact hv)
    cases step_inv hs with
    | leave t e v hpc hd => exact move t _ rfl fun _ hv => hv.elim
    | enter t e v hpc hd => exact move t _ rfl fun _ hv => hv.elim
    | call t e v p policy p' hpc hp => cases hp
    | visit t e v p policy s hpc hp =>
      injection hp with _ hr
      injection hr with hr
      exact move t _ rfl fun s' hv => by rw [hr]; exact hv.symm
    | pop t e v s m rest hpc hq => exact move t _ rfl fun s' hv => keep t _ hpc s' hv
    | empty t e v s hpc hq => exact move t _ rfl fun s' hv => keep t _ hpc s' hv
    | push t e v s m target m' todo hpc => exact move t _ rfl fun s' hv => keep t _ hpc s' hv
    | account t e v s m target todo hpc => exact move t _ rfl fun s' hv => keep t _ hpc s' hv
    | returns t e v s m hpc => exact move t _ rfl fun s' hv => keep t _ hpc s' hv
    | batchEnd t e v s info hpc => exact move t _ rfl fun _ hv => hv.elim
    | throw t s m todo hA hpc => exact move t _ rfl fun _ hv => hv.elim
    | clientPush c target m hc he => exact h
    | clientDone c target hc => exact h
    | stop => exact h

end

/-- A pipeline keeps the order of its messages under `ThreadPerStage`, and under every policy with
    a `ThreadAssignments` table and maximum concurrency 1, with any number of threads. -/
theorem pipeline_inOrder (line : Pipeline n) (Message : Type) :
    (∀ σ, (system (ThreadPerStage n) (line.application Message) C).Reachable σ → InOrder σ) ∧
    (∀ (p : AssignmentPolicy) (T : Nat) (σ),
      (system ((p.chooser n T).policy fun _ => 1) (line.application Message) C).Reachable σ →
        InOrder σ) := by
  constructor
  · intro σ hσ
    refine inOrder_of_exclusive (threadPerStage_invariant _) (fun σ h s t u ht hu => ?_) hσ
    -- both visitors of `s` have its number
    exact (h t s ht).symm.trans (h u s hu)
  · intro p T σ hσ
    refine inOrder_of_exclusive slotInv_invariant (fun σ h s t u ht hu => ?_) hσ
    -- two visitors of `s` would both be counted, above the limit 1
    exact h.visitor_unique rfl ht hu

/-- A message goes through two stages. -/
theorem pipeline_inOrder_two :
    ∃ σ : State (ThreadPerStage 2) ((Pipeline.linear 2).application Nat) 1,
      (system (ThreadPerStage 2) ((Pipeline.linear 2).application Nat) 1).Reachable σ ∧
        σ.popped 1 = [7] ∧ InOrder σ := by
  obtain ⟨σ, hσ, hpopped⟩ := Lts.exists_reachable_of_run
    (system (ThreadPerStage 2) ((Pipeline.linear 2).application Nat) 1) (State.fresh ())
    (.push 0 0 (7 : Nat) :: List.replicate 5 (.thread 0 () ()) ++
      List.replicate 3 (.thread 1 () ()))
    (fun σ => σ.popped 1 = [7]) (State.fresh_initial trivial) (by decide)
  exact ⟨σ, hσ, hpopped, (pipeline_inOrder (Pipeline.linear 2) Nat).1 σ hσ⟩

end SchedulerBase

end Wield
