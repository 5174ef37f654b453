import Wield.SchedulerBase.Deliveries
import Wield.SchedulerBase.Pipeline

/-!
# Order in a tree of stages

Functors may dispatch any number of messages to any stages, as long as no stage is dispatched to
from two stages.  What the stages process in what order is then a function of what the clients
dispatch in what order, `StageTree.history`: while stages have one visitor at a time, each has
popped a prefix of its history, and all of it once nothing is left to do.
-/

namespace Wield

open Theory

variable {n : Nat} {Message : Type}

/-- A graph in which a stage is dispatched to by its parent only. -/
structure StageTree (n : Nat) (Message : Type) extends StageGraph n Message where
  parent : Fin n → Option (Fin n)
  parent_later : ∀ s p, parent s = some p → Later p s
  parent_eq : ∀ s m d, d ∈ functor s m → parent d.1 = some s

namespace StageTree

variable (tree : StageTree n Message)

/-- Clients dispatch to the roots. -/
@[reducible] def application : Application n :=
  tree.toStageGraph.application false fun s => (tree.parent s).isNone

theorem earlier_wellFounded : WellFounded tree.Later := by
  have : IsTrans (Fin n) (Relation.TransGen tree.Later) := ⟨fun _ _ _ hab hbc => hab.trans hbc⟩
  have : Std.Irrefl (Relation.TransGen tree.Later) := ⟨tree.acyclic⟩
  exact Subrelation.wf (fun h => Relation.TransGen.single h)
    (Finite.wellFounded_of_trans_of_irrefl (Relation.TransGen tree.Later))

/-- What a stage processes, in order, when the roots process `input`. -/
noncomputable def history (input : Fin n → List Message) : Fin n → List Message :=
  tree.earlier_wellFounded.fix fun s rec =>
    match h : tree.parent s with
    | none => input s
    | some p => (rec p (tree.parent_later s p h)).flatMap fun m => toStage s (tree.functor p m)

variable {input : Fin n → List Message} {s p : Fin n}

theorem history_root (h : tree.parent s = none) : tree.history input s = input s := by
  rw [history, WellFounded.fix_eq]
  split
  · rfl
  · rename_i hp
    cases h.symm.trans hp

theorem history_child (h : tree.parent s = some p) : tree.history input s =
    (tree.history input p).flatMap fun m => toStage s (tree.functor p m) := by
  rw [history, WellFounded.fix_eq]
  split
  · rename_i hnone
    cases h.symm.trans hnone
  · rename_i p' hp
    cases h.symm.trans hp
    rfl

end StageTree

namespace SchedulerBase

open StageChooser

variable {T C : Nat} {M : SchedulingPolicy n T} {tree : StageTree n Message}
  {σ σ' : State M tree.application C}

/-- What the children of `p` have received, and will receive by the dispatches in `todo`, is what
    its functor dispatches for the messages popped there. -/
structure Balanced (σ : State M tree.application C) (p : Fin n) (todo : List (Fin n × Message)) :
    Prop where
  children : ∀ d ∈ todo, tree.parent d.1 = some p
  arrived : ∀ s, tree.parent s = some p →
    σ.arrived s ++ toStage s todo = (σ.popped p).flatMap fun m => toStage s (tree.functor p m)

structure TreeInv (σ : State M tree.application C) : Prop where
  fifo : ∀ s, σ.arrived s = σ.popped s ++ σ.queue s
  visited : ∀ t p, (σ.pc t).Visits p → Balanced σ p (σ.pc t).todo
  free : ∀ p, (∀ t, ¬ (σ.pc t).Visits p) → Balanced σ p []

theorem TreeInv.initial (h : Initial σ) : TreeInv σ where
  fifo s := by rw [h.arrived, h.popped, h.queue]; rfl
  visited t p hv := by rw [h.pc t] at hv; exact hv.elim
  free p _ := by
    refine ⟨fun d hd => absurd hd List.not_mem_nil, fun s _ => ?_⟩
    rw [h.arrived, h.popped]
    rfl

theorem TreeInv.exists_balanced (h : TreeInv σ) (p : Fin n) :
    ∃ todo, Balanced σ p todo ∧ (Idle σ → todo = []) := by
  by_cases hv : ∃ t, (σ.pc t).Visits p
  · obtain ⟨t, ht⟩ := hv
    exact ⟨_, h.visited t p ht, fun hidle => hidle.2 t⟩
  · exact ⟨[], h.free p fun t ht => hv ⟨t, ht⟩, fun _ => rfl⟩

/-- A stage has received a part of its history. -/
theorem TreeInv.arrived_prefix (h : TreeInv σ) (s : Fin n) :
    σ.arrived s <+: tree.history σ.arrived s := by
  -- from the roots down
  induction s using tree.earlier_wellFounded.induction with
  | _ s ih =>
    cases hs : tree.parent s with
    | none => rw [tree.history_root hs]
    | some p =>
      obtain ⟨todo, hbalanced, _⟩ := h.exists_balanced p
      have hpopped : σ.popped p <+: σ.arrived p := by
        rw [h.fifo p]
        exact List.prefix_append _ _
      have harrived :
          σ.arrived s <+: (σ.popped p).flatMap fun m => toStage s (tree.functor p m) := by
        rw [← hbalanced.arrived s hs]
        exact List.prefix_append _ _
      rw [tree.history_child hs]
      exact harrived.trans ((hpopped.trans (ih p (tree.parent_later s p hs))).flatMap _)

theorem TreeInv.popped_prefix (h : TreeInv σ) (s : Fin n) :
    σ.popped s <+: tree.history σ.arrived s := by
  have hpopped : σ.popped s <+: σ.arrived s := by
    rw [h.fifo s]
    exact List.prefix_append _ _
  exact hpopped.trans (h.arrived_prefix s)

theorem TreeInv.popped_eq (h : TreeInv σ) (hidle : Idle σ) (s : Fin n) :
    σ.popped s = tree.history σ.arrived s := by
  have hfifo : ∀ s, σ.popped s = σ.arrived s := fun s => by
    rw [h.fifo s, hidle.1 s, List.append_nil]
  induction s using tree.earlier_wellFounded.induction with
  | _ s ih =>
    cases hs : tree.parent s with
    | none => rw [tree.history_root hs, hfifo s]
    | some p =>
      obtain ⟨todo, hbalanced, htodo⟩ := h.exists_balanced p
      have harrived := hbalanced.arrived s hs
      rw [htodo hidle] at harrived
      rw [tree.history_child hs, hfifo s, ← ih p (tree.parent_later s p hs), ← harrived]
      exact (List.append_nil _).symm

/-! ## Steps -/

/-- A step of thread `t` to `pc`, which concerns no stage but the one that the thread visits. -/
theorem TreeInv.update (h : TreeInv σ) (hex : Exclusive σ) {t : Fin T} {pc : Pc M tree.application}
    (hpc : σ'.pc = Function.update σ.pc t pc)
    (hfifo : ∀ s, σ'.arrived s = σ'.popped s ++ σ'.queue s)
    (hkeep : ∀ p todo, ¬ (σ.pc t).Visits p → Balanced σ p todo → Balanced σ' p todo)
    (hvisits : ∀ p, pc.Visits p → Balanced σ' p pc.todo)
    (hleaves : ∀ p, (σ.pc t).Visits p → ¬ pc.Visits p → Balanced σ' p []) : TreeInv σ' := by
  have hself : σ'.pc t = pc := by rw [hpc, Function.update_self]
  have hother : ∀ u, u ≠ t → σ'.pc u = σ.pc u := fun u hu => by rw [hpc, Function.update_of_ne hu]
  refine ⟨hfifo, fun u p hv => ?_, fun p hfree => ?_⟩
  · by_cases hu : u = t
    · subst u
      rw [hself] at hv ⊢
      exact hvisits p hv
    · rw [hother u hu] at hv ⊢
      exact hkeep p _ (fun ht => hu (hex p u t hv ht)) (h.visited u p hv)
  · by_cases hp : (σ.pc t).Visits p
    · exact hleaves p hp fun hv => hfree t (by rw [hself]; exact hv)
    · refine hkeep p _ hp (h.free p fun u hv => ?_)
      by_cases hu : u = t
      · exact hp (hu ▸ hv)
      · exact hfree u (by rw [hother u hu]; exact hv)

/-- A step of a thread that visits no stage before or after. -/
theorem TreeInv.outside (h : TreeInv σ) (hex : Exclusive σ) {t : Fin T}
    {pc : Pc M tree.application} (policy : M.State) (hbefore : ∀ p, ¬ (σ.pc t).Visits p)
    (hafter : ∀ p, ¬ pc.Visits p) : TreeInv ((σ.setPolicy policy).setPc t pc) :=
  h.update hex rfl h.fifo (fun _ _ _ hb => ⟨hb.children, hb.arrived⟩)
    (fun p hv => (hafter p hv).elim) fun p hv => (hbefore p hv).elim

/-- A step of a thread that stays at its stage, with the same dispatches to make. -/
theorem TreeInv.stay (h : TreeInv σ) (hex : Exclusive σ) {t : Fin T} {pc : Pc M tree.application}
    (policy : M.State) (hvisits : ∀ p, pc.Visits p ↔ (σ.pc t).Visits p)
    (htodo : pc.todo = (σ.pc t).todo) : TreeInv ((σ.setPolicy policy).setPc t pc) := by
  refine h.update hex rfl h.fifo (fun _ _ _ hb => ⟨hb.children, hb.arrived⟩) (fun p hv => ?_)
    fun p hv hnot => (hnot ((hvisits p).mpr hv)).elim
  have hb := h.visited t p ((hvisits p).mp hv)
  rw [htodo]
  exact ⟨hb.children, hb.arrived⟩

/-- A thread comes to a stage, which nobody else visits. -/
theorem TreeInv.visit (h : TreeInv σ) (hex : Exclusive σ) {t : Fin T} {s : Fin n}
    (policy : M.State) (hbefore : ∀ p, ¬ (σ.pc t).Visits p)
    (hex' : Exclusive ((σ.setPolicy policy).setPc t (.poll s))) :
    TreeInv ((σ.setPolicy policy).setPc t (.poll s)) := by
  refine h.update hex rfl h.fifo (fun _ _ _ hb => ⟨hb.children, hb.arrived⟩) ?_
    fun p hv => (hbefore p hv).elim
  rintro p ⟨⟩
  have hb := h.free s fun u hv => by
    by_cases hu : u = t
    · exact hbefore s (hu ▸ hv)
    -- whoever was at the stage before would be a second visitor
    · refine hu (hex' s u t ?_ ?_)
      · rw [State.setPc_pc_of_ne _ hu]
        exact hv
      · rw [State.setPc_pc, Function.update_self]
        rfl
  exact ⟨hb.children, hb.arrived⟩

/-- A pop takes over all that the functor will dispatch for the message. -/
theorem TreeInv.pop (h : TreeInv σ) (hex : Exclusive σ) {t : Fin T} {s : Fin n} {m : Message}
    {rest : List Message} (hpc : σ.pc t = .poll s) (hq : σ.queue s = m :: rest) :
    TreeInv ((σ.pop s m rest).setPc t (.running s m (tree.functor s m))) := by
  have hvisits : ∀ p, (σ.pc t).Visits p ↔ s = p := fun p => by
    rw [hpc]
    rfl
  refine h.update hex rfl (fifo_pop h.fifo hq) (fun p todo hp hb => ⟨hb.children, ?_⟩) ?_
    fun p hv hnot => (hnot ((hvisits p).mp hv)).elim
  · intro c hc
    rw [State.setPc_arrived, State.pop_arrived, State.setPc_popped, State.pop_popped,
      Function.update_of_ne fun hps => hp ((hvisits p).mpr hps.symm)]
    exact hb.arrived c hc
  · rintro p ⟨⟩
    refine ⟨fun d hd => tree.parent_eq s m d hd, fun c hc => ?_⟩
    have hb := (h.visited t s (by rw [hpc]; rfl)).arrived c hc
    rw [hpc] at hb
    rw [State.setPc_arrived, State.pop_arrived, State.setPc_popped, State.pop_popped,
      Function.update_self, List.flatMap_append, ← hb, List.flatMap_singleton]
    exact congrArg (· ++ _) (List.append_nil _).symm

/-- A dispatch reaches the queue of a child. -/
theorem TreeInv.push (h : TreeInv σ) (hex : Exclusive σ) {t : Fin T} {s target : Fin n}
    {m m' : Message} {todo : List (Fin n × Message)}
    (hpc : σ.pc t = .running s m ((target, m') :: todo)) :
    TreeInv (((σ.push target m').forward s m').setPc t (.pushed s m target todo)) := by
  have hvisits : ∀ p, (σ.pc t).Visits p ↔ s = p := fun p => by
    rw [hpc]
    rfl
  have hb := h.visited t s (by rw [hpc]; rfl)
  rw [hpc] at hb
  have hparent : tree.parent target = some s := hb.children _ List.mem_cons_self
  refine h.update hex rfl (fifo_push h.fifo target m') (fun p todo hp hb => ⟨hb.children, ?_⟩) ?_
    fun p hv hnot => (hnot ((hvisits p).mp hv)).elim
  · intro c hc
    -- the target is no child of another stage
    have hne : c ≠ target := by
      rintro rfl
      exact hp ((hvisits p).mpr (Option.some.inj (hparent.symm.trans hc)))
    rw [State.setPc_arrived, State.forward_arrived, State.push_arrived,
      Function.update_of_ne hne]
    exact hb.arrived c hc
  · rintro p ⟨⟩
    refine ⟨fun d hd => hb.children d (List.mem_cons_of_mem _ hd), fun c hc => ?_⟩
    have hbc := hb.arrived c hc
    rw [State.setPc_arrived, State.forward_arrived, State.push_arrived]
    by_cases hct : c = target
    · subst c
      rw [Function.update_self, List.append_assoc]
      rw [Pc.todo, toStage_cons_self] at hbc
      exact hbc
    · rw [Function.update_of_ne hct]
      rw [Pc.todo, toStage_cons_of_ne (Ne.symm hct)] at hbc
      exact hbc

/-- A dispatch from outside goes to a root. -/
theorem TreeInv.clientPush (h : TreeInv σ) (c : Fin C) {target : Fin n} (m : Message)
    (he : tree.application.entry target = true) :
    TreeInv ((σ.push target m).setClient c (some target)) := by
  have hkeep : ∀ p todo, Balanced σ p todo →
      Balanced ((σ.push target m).setClient c (some target)) p todo := by
    intro p todo hb
    refine ⟨hb.children, fun s hs => ?_⟩
    have hne : s ≠ target := by
      rintro rfl
      cases (Option.isNone_iff_eq_none.mp he).symm.trans hs
    rw [State.setClient_arrived, State.push_arrived, Function.update_of_ne hne]
    exact hb.arrived s hs
  exact ⟨fifo_push h.fifo target m, fun t p hv => hkeep p _ (h.visited t p hv),
    fun p hfree => hkeep p _ (h.free p hfree)⟩

theorem TreeInv.of_eq (h : TreeInv σ) (hpc : σ'.pc = σ.pc) (hqueue : σ'.queue = σ.queue)
    (harrived : σ'.arrived = σ.arrived) (hpopped : σ'.popped = σ.popped) : TreeInv σ' := by
  have hkeep : ∀ p todo, Balanced σ p todo → Balanced σ' p todo := fun p todo hb =>
    ⟨hb.children, by rw [harrived, hpopped]; exact hb.arrived⟩
  refine ⟨by rw [harrived, hpopped, hqueue]; exact h.fifo, fun t p hv => ?_, fun p hfree => ?_⟩
  · rw [hpc] at hv ⊢
    exact hkeep p _ (h.visited t p hv)
  · rw [hpc] at hfree
    exact hkeep p _ (h.free p hfree)

/-- Every step between states in which stages have one visitor at a time. -/
theorem TreeInv.step {a : Action M tree.application C} (h : TreeInv σ) (hex : Exclusive σ)
    (hex' : Exclusive σ') (hs : Step σ a σ') : TreeInv σ' := by
  cases hs with
  | leave t e v hpc hd => exact h.outside hex σ.policy (by simp [hpc, Pc.Visits]) fun _ => id
  | enter t e v hpc hd => exact h.outside hex σ.policy (by simp [hpc, Pc.Visits]) fun _ => id
  | call t e v p policy p' hpc hp =>
    exact h.outside hex policy (by simp [hpc, Pc.Visits]) fun _ => id
  | visit t e v p policy s hpc hp => exact h.visit hex policy (by simp [hpc, Pc.Visits]) hex'
  | pop t e v s m rest hpc hq => exact h.pop hex hpc hq
  | empty t e v s hpc hq =>
    exact h.stay hex σ.policy (fun p => by rw [hpc]; rfl) (by rw [hpc]; rfl)
  | push t e v s m target m' todo hpc => exact h.push hex hpc
  | account t e v s m target todo hpc =>
    exact h.stay hex _ (fun p => by rw [hpc]; rfl) (by rw [hpc]; rfl)
  | returns t e v s m hpc =>
    exact h.stay hex σ.policy (fun p => by rw [hpc]; rfl) (by rw [hpc]; rfl)
  | batchEnd t e v s info hpc =>
    refine h.update hex rfl h.fifo (fun _ _ _ hb => ⟨hb.children, hb.arrived⟩)
      (fun p hv => hv.elim) fun p hv _ => ?_
    have hb := h.visited t p hv
    rw [hpc] at hb
    exact ⟨hb.children, hb.arrived⟩
  | throw t s m todo hA hpc => cases hA
  | clientPush c target m hc he => exact h.clientPush c m he
  | clientDone c target hc => exact h.of_eq rfl rfl rfl rfl
  | stop => exact h.of_eq rfl rfl rfl rfl

/-- An invariant that leaves stages one visitor at a time. -/
theorem treeInv_invariant {I : State M tree.application C → Prop}
    (hI : (system M tree.application C).Invariant I) (hex : ∀ σ, I σ → Exclusive σ) :
    (system M tree.application C).Invariant fun σ => I σ ∧ TreeInv σ where
  init σ h := ⟨hI.init σ h, .initial h⟩
  step σ a σ' h hs :=
    have h' := hI.step σ a σ' h.1 hs
    ⟨h', h.2.step (hex σ h.1) (hex σ' h') (step_inv hs)⟩

/-- Each stage has processed, in order, a part of what the dispatches of the clients lead to there,
    and all of it once nothing is left to do. -/
structure FollowsHistory (σ : State M tree.application C) : Prop where
  popped : ∀ s, σ.popped s <+: tree.history σ.arrived s
  idle : Idle σ → ∀ s, σ.popped s = tree.history σ.arrived s

theorem TreeInv.followsHistory (h : TreeInv σ) : FollowsHistory σ :=
  ⟨h.popped_prefix, h.popped_eq⟩

/-- Limits of 0 and 1 leave a stage to one visitor at a time. -/
theorem SlotInv.exclusive {P : StageChooser n T} {concurrency : Fin n → SizeT}
    {A : Application n} {σ : State (P.policy concurrency) A C} (h : SlotInv σ)
    (hlimit : ∀ s, concurrency s = 0 ∨ concurrency s = 1) : Exclusive σ := by
  intro s t u ht hu
  rcases hlimit s with hzero | hone
  · exact (h.not_visits hzero t ht).elim
  · exact h.visitor_unique hone ht hu

theorem threadPerStage_treeInv {σ : State (ThreadPerStage n) tree.application C}
    (hσ : (system _ _ C).Reachable σ) : TreeInv σ := by
  refine ((treeInv_invariant (threadPerStage_invariant _) fun σ h s t u ht hu => ?_).holds hσ).2
  exact (h t s ht).symm.trans (h u s hu)

theorem assignment_treeInv {concurrency : Fin n → SizeT}
    (hlimit : ∀ s, concurrency s = 0 ∨ concurrency s = 1) {p : AssignmentPolicy}
    {σ : State ((p.chooser n T).policy concurrency) tree.application C}
    (hσ : (system _ _ C).Reachable σ) : TreeInv σ :=
  ((treeInv_invariant slotInv_invariant fun _ h => h.exclusive hlimit).holds hσ).2

/-- In a tree of stages whatever is processed at a stage, and in what order, is determined by what
    the clients have dispatched in what order: under `ThreadPerStage`, and under every policy with a
    `ThreadAssignments` table but `Color` and limits of 0 and 1, for any number of threads and any
    interleaving.  `Color` hands `NumberOfEntries` to `tryAssign` when the work queue is empty, and
    that writes past the counters, where the limits are. -/
theorem tree_followsHistory (tree : StageTree n Message) (concurrency : Fin n → SizeT)
    (hlimit : ∀ s, concurrency s = 0 ∨ concurrency s = 1) :
    (∀ σ : State (ThreadPerStage n) tree.application C,
      (system _ _ C).Reachable σ → FollowsHistory σ) ∧
    ∀ p : AssignmentPolicy, p ≠ .color →
      ∀ (T : Nat) (σ : State ((p.chooser n T).policy concurrency) _ C),
        (system _ tree.application C).Reachable σ → FollowsHistory σ :=
  ⟨fun _ hσ => (threadPerStage_treeInv hσ).followsHistory,
    fun _ _ _ _ hσ => (assignment_treeInv hlimit hσ).followsHistory⟩

/-- The first stage sends every message to the two others. -/
def fork : StageTree 3 Nat where
  Later a b := a < b
  acyclic s h := by
    rw [Relation.transGen_eq_self] at h
    exact lt_irrefl s h
  functor s m := if s = 0 then [(1, m), (2, m)] else []
  later s m d h := by
    split at h
    · rename_i hs
      subst s
      rcases List.mem_pair.mp h with rfl | rfl <;> exact Nat.succ_pos _
    · cases h
  parent s := if s = 0 then none else some 0
  parent_later s p h := by
    split at h
    · cases h
    · rename_i hs
      cases h
      exact Fin.pos_of_ne_zero hs
  parent_eq s m d h := by
    split at h
    · rename_i hs
      subst s
      rcases List.mem_pair.mp h with rfl | rfl <;> rfl
    · cases h

/-- Two messages are dispatched; the second stage has processed the first of them. -/
theorem tree_followsHistory_fork :
    ∃ σ : State (ThreadPerStage 3) fork.application 1,
      (system _ _ 1).Reachable σ ∧ σ.popped 1 = [7] ∧ FollowsHistory σ := by
  obtain ⟨σ, hσ, hpopped⟩ := Lts.exists_reachable_of_run
    (system (ThreadPerStage 3) fork.application 1) (State.fresh ())
    (.push 0 0 (7 : Nat) :: .dispatched 0 :: .push 0 0 (8 : Nat) ::
      List.replicate 12 (.thread 0 () ()) ++ List.replicate 3 (.thread 1 () ()))
    (fun σ => σ.popped 1 = [7]) (State.fresh_initial trivial) (by decide)
  exact ⟨σ, hσ, hpopped, (tree_followsHistory fork (fun _ => 1) fun _ => .inr rfl).1 σ hσ⟩

end SchedulerBase

end Wield
