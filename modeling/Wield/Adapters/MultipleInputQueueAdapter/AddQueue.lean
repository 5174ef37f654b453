import Mathlib.Data.Fintype.Card
import Wield.Adapters.MultipleInputQueueAdapter

/-!
# Registering input queues

Histories of `addQueue`, registrations by clients, dispatches and `try_pop`.  The adapter stays in
order exactly as long as no `addQueue` throws: a throwing call leaves its queue behind, and every
later input stage feeds another queue than the one at its own position.
-/

namespace Wield.MultipleInputQueueAdapter

open Theory

variable {n : Nat} {Message : Type}

/-- An adapter and the dispatcher that it registers its stages with. -/
structure Inputs (n : Nat) (Message : Type) where
  adapter : MultipleInputQueueAdapter n Message
  dispatcher : DispatcherBase n StagePtr

namespace Inputs

inductive Action (n : Nat) (Message : Type) where
  | addQueue (stageName : Fin n)
  /-- A client constructs a stage of its own. -/
  | registerStage (stageName : Fin n)
  | dispatch (stageName : Fin n) (m : Message)
  | tryPop

/-- `push` on an input stage. -/
def push (σ : Inputs n Message) (stage : InputStage n) (m : Message) : Inputs n Message :=
  { σ with adapter :=
      { σ.adapter with queues := σ.adapter.queues.modify stage.queue fun queue => queue ++ [m] } }

def addQueue (σ : Inputs n Message) (stageName : Fin n) :
    Except RuntimeError Unit × Inputs n Message :=
  let called := σ.adapter.addQueue σ.dispatcher stageName
  (called.1, { adapter := called.2.1, dispatcher := called.2.2 })

def step (σ : Inputs n Message) : Action n Message → Option (Inputs n Message)
  | .addQueue stageName => some (σ.addQueue stageName).2
  | .registerStage stageName =>
    match σ.dispatcher.registerStage stageName .client with
    | .ok dispatcher => some { σ with dispatcher := dispatcher }
    | .error _ => some σ
  | .dispatch stageName m =>
    match σ.dispatcher.stages stageName with
    | none => none
    -- a queue of a client; where it is the adapter, the `push` throws and changes nothing
    | some .client => some σ
    | some (.input i) => (σ.adapter.stages[i]?).map fun stage => σ.push stage m
  | .tryPop => some { σ with adapter := σ.adapter.tryPop.2 }

/-- A new adapter, and a dispatcher that the stages of some clients have registered with. -/
def start (clients : Fin n → Bool) : Inputs n Message where
  adapter := new
  dispatcher.stages stageName := if clients stageName then some .client else none

variable (n Message) in
def system : Lts (Inputs n Message) (Action n Message) where
  init σ := ∃ clients, σ = start clients
  step := step

/-- The counts agree, the input stages feed the queues of their positions, and every message that
    has been dispatched to an input stage waits in a queue that `tryPop` polls. -/
structure InOrder (σ : Inputs n Message) : Prop where
  queues : σ.adapter.queues.length = σ.adapter.numberOfQueues
  stages : σ.adapter.stages.length = σ.adapter.numberOfQueues
  registered : ∀ i stage, σ.adapter.stages[i]? = some stage →
    stage.queue = i ∧ σ.dispatcher.stages stage.stageName = some (.input i)
  polled : ∀ stageName i, σ.dispatcher.stages stageName = some (.input i) →
    ∃ stage, σ.adapter.stages[i]? = some stage ∧ stage.stageName = stageName ∧
      stage.queue ∈ σ.adapter.polled
  waiting : ∀ q m, m ∈ σ.adapter.queues.getD q [] → q ∈ σ.adapter.polled

/-- A throwing `addQueue` leaves the members of the adapter unchanged. -/
def Unchanged (σ : Inputs n Message) (a : Action n Message) : Prop :=
  ∀ stageName, a = .addQueue stageName → ∀ e, (σ.addQueue stageName).1 = .error e →
    (σ.addQueue stageName).2.adapter = σ.adapter

/-- No `addQueue` of a name that is already registered. -/
def NewName (σ : Inputs n Message) (a : Action n Message) : Prop :=
  ∀ stageName, a = .addQueue stageName → σ.dispatcher.stages stageName = none

/-! ## What every history keeps -/

/-- The stages are counted, and they are the ones that the dispatcher knows. -/
structure Consistent (σ : Inputs n Message) : Prop where
  stages : σ.adapter.stages.length = σ.adapter.numberOfQueues
  registered : ∀ i stage, σ.adapter.stages[i]? = some stage →
    σ.dispatcher.stages stage.stageName = some (.input i)
  named : ∀ stageName i, σ.dispatcher.stages stageName = some (.input i) →
    ∃ stage, σ.adapter.stages[i]? = some stage ∧ stage.stageName = stageName
  which : σ.adapter.which = 0 ∨ σ.adapter.which < σ.adapter.numberOfQueues

/-- An element of a list with one more is one from before or the new one. -/
theorem getElem?_concat_eq_some {α : Type} {l : List α} {x y : α} {i : Nat}
    (h : (l ++ [x])[i]? = some y) : l[i]? = some y ∨ i = l.length ∧ y = x := by
  rcases Nat.lt_or_ge i l.length with hlt | hge
  · rw [List.getElem?_append_left hlt] at h
    exact .inl h
  · rw [List.getElem?_append_right hge, List.getElem?_singleton] at h
    split at h
    · exact .inr ⟨by omega, (Option.some.inj h).symm⟩
    · cases h

/-- What `addQueue` does where the name is taken. -/
theorem addQueue_taken {σ : Inputs n Message} {stageName : Fin n}
    (h : σ.dispatcher.stages stageName ≠ none) :
    σ.addQueue stageName = (.error .DuplicateStageRegistrationException,
      { σ with adapter := { σ.adapter with queues := σ.adapter.queues ++ [[]] } }) := by
  simp only [addQueue, MultipleInputQueueAdapter.addQueue,
    DispatcherBase.registerStage_eq_error_iff.mpr ⟨h, rfl⟩]

theorem addQueue_new {σ : Inputs n Message} {stageName : Fin n}
    (h : σ.dispatcher.stages stageName = none) :
    σ.addQueue stageName = (.ok (),
      { adapter :=
          { σ.adapter with
            queues := σ.adapter.queues ++ [[]]
            stages := σ.adapter.stages ++
              [{ stageName := stageName, queue := σ.adapter.queues.length }]
            numberOfQueues := σ.adapter.numberOfQueues + 1 }
        dispatcher.stages := Function.update σ.dispatcher.stages stageName
          (some (.input σ.adapter.stages.length)) }) := by
  simp only [addQueue, MultipleInputQueueAdapter.addQueue, DispatcherBase.registerStage, h]

/-- What a step can do. -/
theorem step_cases {σ σ' : Inputs n Message} {a : Action n Message} (h : step σ a = some σ') :
    (∃ stageName, a = .addQueue stageName ∧ σ' = (σ.addQueue stageName).2) ∨
    (∀ stageName, a ≠ .addQueue stageName) ∧
      Polls σ.adapter σ'.adapter ∧
      (∀ stageName i, σ'.dispatcher.stages stageName = some (.input i) ↔
        σ.dispatcher.stages stageName = some (.input i)) := by
  cases a with
  | addQueue stageName => exact .inl ⟨stageName, rfl, (Option.some.inj h).symm⟩
  | registerStage stageName =>
    refine .inr ⟨by simp, ?_⟩
    simp only [step] at h
    split at h
    · rename_i dispatcher hregister
      obtain ⟨hnone, hstages⟩ := DispatcherBase.registerStage_eq_ok hregister
      cases h
      refine ⟨⟨rfl, rfl, rfl, id⟩, fun name i => ?_⟩
      dsimp only
      rw [hstages]
      by_cases hname : name = stageName
      · subst name
        simp [hnone]
      · rw [Function.update_of_ne hname]
    · cases h
      exact ⟨⟨rfl, rfl, rfl, id⟩, fun _ _ => Iff.rfl⟩
  | dispatch stageName m =>
    refine .inr ⟨by simp, ?_⟩
    simp only [step] at h
    split at h
    · cases h
    · cases h
      exact ⟨⟨rfl, rfl, rfl, id⟩, fun _ _ => Iff.rfl⟩
    · obtain ⟨stage, -, rfl⟩ := Option.map_eq_some_iff.mp h
      exact ⟨⟨rfl, rfl, List.length_modify _ _ _, id⟩, fun _ _ => Iff.rfl⟩
  | tryPop =>
    cases h
    exact .inr ⟨by simp, tryPop_polls σ.adapter, fun _ _ => Iff.rfl⟩

theorem Consistent.addQueue {σ : Inputs n Message} (hσ : Consistent σ) (stageName : Fin n) :
    Consistent (σ.addQueue stageName).2 := by
  by_cases hname : σ.dispatcher.stages stageName = none
  · rw [addQueue_new hname]
    refine ⟨?_, fun i stage hstage => ?_, fun name i hi => ?_, ?_⟩
    · dsimp only
      rw [List.length_append, List.length_singleton, hσ.stages]
    · dsimp only at hstage ⊢
      rcases getElem?_concat_eq_some hstage with hold | ⟨rfl, rfl⟩
      · have hregistered := hσ.registered i stage hold
        have hne : stage.stageName ≠ stageName := by
          intro heq
          rw [heq, hname] at hregistered
          cases hregistered
        rw [Function.update_of_ne hne]
        exact hregistered
      · rw [Function.update_self]
    · dsimp only at hi ⊢
      by_cases heq : name = stageName
      · subst name
        rw [Function.update_self] at hi
        cases hi
        exact ⟨_, List.getElem?_concat_length, rfl⟩
      · rw [Function.update_of_ne heq] at hi
        obtain ⟨stage, hstage, rfl⟩ := hσ.named name i hi
        have hlt := (List.getElem?_eq_some_iff.mp hstage).1
        exact ⟨stage, by rw [List.getElem?_append_left hlt, hstage], rfl⟩
    · have hwhich := hσ.which
      dsimp only
      omega
  · rw [addQueue_taken hname]
    exact ⟨hσ.stages, hσ.registered, hσ.named, hσ.which⟩

theorem consistent_invariant : (system n Message).Invariant Consistent where
  init σ hσ := by
    obtain ⟨clients, rfl⟩ := hσ
    refine ⟨rfl, fun i _ h => (nomatch h), fun stageName i h => ?_, .inl rfl⟩
    dsimp only [start] at h
    split at h <;> cases h
  step σ a σ' hσ h := by
    rcases step_cases h with ⟨stageName, rfl, rfl⟩ | ⟨-, hpolls, hdispatcher⟩
    · exact hσ.addQueue stageName
    · constructor
      · rw [hpolls.stages, hpolls.numberOfQueues]
        exact hσ.stages
      · rw [hpolls.stages]
        exact fun i stage hstage => (hdispatcher _ _).mpr (hσ.registered i stage hstage)
      · rw [hpolls.stages]
        exact fun stageName i hi => hσ.named stageName i ((hdispatcher _ _).mp hi)
      · exact hpolls.which hσ.which

/-- Each input stage has a name of its own. -/
theorem Consistent.numberOfQueues_le {σ : Inputs n Message} (hσ : Consistent σ) :
    σ.adapter.numberOfQueues ≤ n := by
  have hinjective : Function.Injective
      fun i : Fin σ.adapter.stages.length => σ.adapter.stages[i].stageName := by
    intro i j hij
    have hi := hσ.registered i _ (List.getElem?_eq_getElem i.isLt)
    have hj := hσ.registered j _ (List.getElem?_eq_getElem j.isLt)
    dsimp only [Fin.getElem_fin] at hij
    rw [hij, hj] at hi
    exact Fin.ext (StagePtr.input.inj (Option.some.inj hi)).symm
  have hle := Fintype.card_le_of_injective _ hinjective
  rwa [Fintype.card_fin, Fintype.card_fin, hσ.stages] at hle

theorem Consistent.mem_polled_iff {σ : Inputs n Message} (hσ : Consistent σ) (q : Nat) :
    q ∈ σ.adapter.polled ↔ q < σ.adapter.numberOfQueues := by
  rcases Nat.eq_zero_or_pos σ.adapter.numberOfQueues with hzero | hpos
  · simp [polled, hzero, pollOrder]
  · have hwhich := hσ.which
    exact MultipleInputQueueAdapter.mem_polled_iff (by omega) q

/-! ## The runs that keep the adapter in order -/

/-- As many queues as are counted, and each stage feeds the queue at its position. -/
structure Aligned (σ : Inputs n Message) : Prop where
  queues : σ.adapter.queues.length = σ.adapter.numberOfQueues
  feeds : ∀ (i : Nat) (stage : InputStage n), σ.adapter.stages[i]? = some stage →
    stage.queue = i

theorem inOrder_iff_aligned {σ : Inputs n Message} (hσ : Consistent σ) :
    InOrder σ ↔ Aligned σ := by
  constructor
  · intro h
    exact ⟨h.queues, fun i stage hstage => (h.registered i stage hstage).1⟩
  · intro h
    refine ⟨h.queues, hσ.stages, fun i stage hstage => ?_, fun stageName i hi => ?_,
      fun q m hm => ?_⟩
    · exact ⟨h.feeds i stage hstage, hσ.registered i stage hstage⟩
    · obtain ⟨stage, hstage, hname⟩ := hσ.named stageName i hi
      have hlt := (List.getElem?_eq_some_iff.mp hstage).1
      refine ⟨stage, hstage, hname, ?_⟩
      rw [hσ.mem_polled_iff, h.feeds i stage hstage, ← hσ.stages]
      exact hlt
    · rw [hσ.mem_polled_iff, ← h.queues]
      by_contra hge
      rw [List.getD_eq_getElem?_getD, List.getElem?_eq_none (Nat.le_of_not_lt hge)] at hm
      cases hm

/-- One step keeps the alignment unless it adds a queue for a name that is taken. -/
theorem aligned_step_iff {σ σ' : Inputs n Message} {a : Action n Message} (hσ : Consistent σ)
    (haligned : Aligned σ) (h : step σ a = some σ') : Aligned σ' ↔ NewName σ a := by
  rcases step_cases h with ⟨stageName, rfl, rfl⟩ | ⟨ha, hpolls, -⟩
  · by_cases hname : σ.dispatcher.stages stageName = none
    · have hnew : NewName σ (.addQueue stageName) := by
        intro name hname'
        cases hname'
        exact hname
      refine iff_of_true ?_ hnew
      rw [addQueue_new hname]
      refine ⟨?_, fun i stage hstage => ?_⟩
      · dsimp only
        rw [List.length_append, List.length_singleton, haligned.queues]
      · dsimp only at hstage
        rcases getElem?_concat_eq_some hstage with hold | ⟨rfl, rfl⟩
        · exact haligned.feeds i stage hold
        · exact haligned.queues.trans hσ.stages.symm
    · -- the queue of the failed call is not counted
      rw [addQueue_taken hname]
      constructor
      · intro h'
        have hlength := h'.queues
        have hqueues := haligned.queues
        dsimp only at hlength
        rw [List.length_append, List.length_singleton] at hlength
        omega
      · intro hnew
        exact absurd (hnew stageName rfl) hname
  · refine iff_of_true ⟨?_, ?_⟩ fun stageName heq => absurd heq (ha stageName)
    · rw [hpolls.length, hpolls.numberOfQueues]
      exact haligned.queues
    · rw [hpolls.stages]
      exact haligned.feeds

/-- A throwing `addQueue` never leaves the adapter as it was. -/
theorem unchanged_iff_newName (σ : Inputs n Message) (a : Action n Message) :
    Unchanged σ a ↔ NewName σ a := by
  refine forall_congr' fun stageName => forall_congr' fun _ => ?_
  by_cases hname : σ.dispatcher.stages stageName = none
  · simp [addQueue_new hname, hname]
  · simp only [addQueue_taken hname, hname, iff_false]
    intro h
    have hlength := congrArg (fun adapter => adapter.queues.length)
      (h .DuplicateStageRegistrationException trivial)
    dsimp only at hlength
    rw [List.length_append, List.length_singleton] at hlength
    omega

/-- The adapter is in order throughout a run, and no `addQueue` that throws changes it, exactly if
    the run adds queues for new names only. -/
theorem inOrder_iff_newNames (clients : Fin n → Bool) (as : List (Action n Message)) :
    ((system n Message).Always InOrder (start clients) as ∧
        (system n Message).Steps Unchanged (start clients) as) ↔
      (system n Message).Steps NewName (start clients) as := by
  have hconsistent : Consistent (start clients : Inputs n Message) :=
    consistent_invariant.init _ ⟨clients, rfl⟩
  have haligned : Aligned (start clients : Inputs n Message) := ⟨rfl, fun i _ h => nomatch h⟩
  rw [Lts.always_congr consistent_invariant (fun _ => inOrder_iff_aligned) hconsistent,
    Lts.always_iff_steps consistent_invariant (fun _ _ _ => aligned_step_iff) hconsistent haligned,
    Lts.steps_congr consistent_invariant (fun σ a _ => unchanged_iff_newName σ a) hconsistent,
    and_self]

/-- After `addQueue` of a name that is taken, the message for the next input stage waits in a queue
    that `tryPop` does not reach. -/
theorem message_not_polled :
    ∃ σ, (system 2 Nat).Reachable σ ∧
      (¬ InOrder σ ∧ ¬ Unchanged σ (.addQueue 0)) ∧
      σ.dispatcher.stages 1 = some (.input 1) ∧ σ.adapter.queues = [[], [], [7]] ∧
      σ.adapter.tryPop.1 = none := by
  have hrun : ((system 2 Nat).run (start fun _ => false)
      [.addQueue 0, .addQueue 0, .addQueue 1, .dispatch 1 7]).any (fun σ =>
        decide (σ.adapter.numberOfQueues = 2 ∧ σ.dispatcher.stages 0 = some (.input 0) ∧
          σ.dispatcher.stages 1 = some (.input 1) ∧ σ.adapter.queues = [[], [], [7]] ∧
          σ.adapter.tryPop.1 = none)) = true := by decide
  obtain ⟨σ, hσ, hcount, hzero, hone, hqueues, hpop⟩ :=
    Lts.exists_reachable_of_run (system 2 Nat) (start fun _ => false) _ _ ⟨fun _ => false, rfl⟩
      hrun
  refine ⟨σ, hσ, ⟨fun h => ?_, fun h => ?_⟩, hone, hqueues, hpop⟩
  · have hlength := h.queues
    rw [hqueues, hcount] at hlength
    cases hlength
  · rw [unchanged_iff_newName] at h
    have hnone := h 0 rfl
    rw [hzero] at hnone
    cases hnone

end Inputs

end Wield.MultipleInputQueueAdapter
