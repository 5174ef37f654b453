import Wield.SchedulerBase.StageTree

/-!
# Stopping an application with a poison pill

`exampleDemonstrateUseOfPoisonPillToStopDataflowApp`: a client dispatches its lines to the first
stage and then a pill.  Each functor sends both on to all stages downstream, and calls
`PoisonPill::done` when it gets the pill; the call that has counted all stages stops the scheduler.
By then every stage has processed every line, and when nothing is left to do the scheduler has been
stopped.
-/

namespace Wield.PoisonPill

open Theory SchedulerBase StageChooser

variable {n T : Nat}

/-- `LineMessage` and `PoisonPill`. -/
inductive Message (Line : Type) where
  | line (line_ : Line)
  | pill

def Message.isPill {Line : Type} : Message Line → Bool
  | .line _ => false
  | .pill => true

/-- The stages that each functor dispatches to: none (`BaseProcessingFunctor`), one
    (`ProcessingFunctorWithDispatcherAndNextStage`) or several (`FanoutProcessingFunctor`). -/
structure Stages (n : Nat) where
  next : Fin n → List (Fin n)
  first : Fin n
  parent : Fin n → Option (Fin n)
  acyclic : ∀ s, ¬ Relation.TransGen (fun a b => b ∈ next a) s s
  parent_eq_some : ∀ s p, parent s = some p ↔ s ∈ next p
  parent_eq_none : ∀ s, parent s = none ↔ s = first
  nodup : ∀ p, (next p).Nodup

/-- Every functor dispatches its message as it is. -/
def Stages.tree (stages : Stages n) (Line : Type) : StageTree n (Message Line) where
  Later a b := b ∈ stages.next a
  acyclic := stages.acyclic
  functor s m := (stages.next s).map fun target => (target, m)
  later s m d h := by
    obtain ⟨target, htarget, rfl⟩ := List.mem_map.mp h
    exact htarget
  parent := stages.parent
  parent_later s p h := (stages.parent_eq_some s p).mp h
  parent_eq s m d h := by
    obtain ⟨target, htarget, rfl⟩ := List.mem_map.mp h
    exact (stages.parent_eq_some target s).mpr htarget

variable (M : SchedulingPolicy n T) (stages : Stages n) (Line : Type) (C : Nat)

structure State where
  base : SchedulerBase.State M (stages.tree Line).application C
  /-- `count_` of the pill. -/
  count : Nat
  /-- The thread is in a functor that is about to call `done` on the pill. -/
  calling : Fin T → Bool

inductive Action where
  | scheduler (a : SchedulerBase.Action M (stages.tree Line).application C)
  /-- `PoisonPill::done`. -/
  | done (t : Fin T)

variable {M stages Line C}

/-- The action pops the pill, in thread `u`. -/
def takesPill (σ : SchedulerBase.State M (stages.tree Line).application C) (u : Fin T) :
    SchedulerBase.Action M (stages.tree Line).application C → Bool
  | .thread t _ _ =>
    match σ.pc t with
    | .poll s => decide (t = u) && (σ.queue s).head?.any Message.isPill
    | _ => false
  | .throw _ | .push _ _ _ | .dispatched _ | .stop => false

/-- What may happen besides the calls of `done`: threads that are not about to make one go on, and
    clients dispatch until one of them has dispatched the pill.  Nobody else stops the
    scheduler. -/
def State.allows (σ : State M stages Line C) :
    SchedulerBase.Action M (stages.tree Line).application C → Bool
  | .thread t _ _ => !σ.calling t
  | .push _ _ _ => !(σ.base.arrived stages.first).any Message.isPill
  | .throw _ | .dispatched _ => true
  | .stop => false

def step (σ : State M stages Line C) : Action M stages Line C → Option (State M stages Line C)
  | .scheduler a =>
    if σ.allows a then
      (SchedulerBase.step σ.base a).map fun base =>
        { σ with
          base := base
          calling := fun u => σ.calling u || takesPill σ.base u a }
    else none
  | .done t =>
    if σ.calling t then
      some
        { base := if σ.count + 1 = n then { σ.base with done := true } else σ.base
          count := σ.count + 1
          calling := Function.update σ.calling t false }
    else none

/-- Nothing has been dispatched, and the pill has counted nothing. -/
structure Initial (σ : State M stages Line C) : Prop where
  base : SchedulerBase.Initial σ.base
  count : σ.count = 0
  calling : ∀ t, σ.calling t = false

variable (M stages Line C) in
def system : Lts (State M stages Line C) (Action M stages Line C) where
  init := Initial
  step := step

/-! ## What the stages receive -/

theorem toStage_map {l : List (Fin n)} (h : l.Nodup) {s : Fin n} (hs : s ∈ l) (m : Message Line) :
    toStage s (l.map fun target => (target, m)) = [m] := by
  induction l with
  | nil => cases hs
  | cons target l ih =>
    obtain ⟨hnot, hl⟩ := List.nodup_cons.mp h
    rw [List.map_cons]
    rcases List.mem_cons.mp hs with rfl | hs
    · -- the stage does not occur again
      have hrest : toStage s (l.map fun target => (target, m)) = [] := by
        rw [toStage, List.filterMap_eq_nil_iff]
        intro d hd
        obtain ⟨target, htarget, rfl⟩ := List.mem_map.mp hd
        exact if_neg fun (heq : target = s) => hnot (heq ▸ htarget)
      rw [toStage_cons_self, hrest]
    · have hne : target ≠ s := by
        rintro rfl
        exact hnot hs
      rw [toStage_cons_of_ne hne, ih hl hs]

/-- Every stage is to process what is dispatched to the first one. -/
theorem history_eq (stages : Stages n) (input : Fin n → List (Message Line)) (s : Fin n) :
    (stages.tree Line).history input s = input stages.first := by
  induction s using (stages.tree Line).earlier_wellFounded.induction with
  | _ s ih =>
    cases hs : stages.parent s with
    | none =>
      rw [(stages.tree Line).history_root hs, (stages.parent_eq_none s).mp hs]
    | some p =>
      have hmem := (stages.parent_eq_some s p).mp hs
      rw [(stages.tree Line).history_child hs, ih p hmem]
      have hone : ∀ m, toStage s ((stages.tree Line).functor p m) = [m] := fun m =>
        toStage_map (stages.nodup p) hmem m
      simp only [hone, List.flatMap_singleton']

/-! ## What the pill counts -/

variable {σ σ' : State M stages Line C}
  {base base' : SchedulerBase.State M (stages.tree Line).application C}
  {a : SchedulerBase.Action M (stages.tree Line).application C}

/-- The stage has popped the pill. -/
def State.stamped (σ : State M stages Line C) (s : Fin n) : Bool :=
  (σ.base.popped s).any Message.isPill

structure Inv (σ : State M stages Line C) : Prop where
  /-- A pill is the last message dispatched from outside. -/
  input : ∃ lines : List (Message Line), lines.any Message.isPill = false ∧
    (σ.base.arrived stages.first = lines ∨ σ.base.arrived stages.first = lines ++ [.pill])
  count : σ.count + ∑ t, (σ.calling t).toNat = ∑ s, (σ.stamped s).toNat
  done : σ.base.done = true ↔ σ.count = n

/-- Functors do not dispatch to the first stage. -/
theorem arrived_first_of_step (h : TreeInv base) (hs : Step base a base') :
    base'.arrived stages.first = base.arrived stages.first ∨
      ∃ c target m, a = .push c target m ∧
        base'.arrived stages.first = base.arrived stages.first ++ [m] := by
  cases hs with
  | push t e v s m target m' todo hpc =>
    left
    have hb := h.visited t s (by rw [hpc]; rfl)
    rw [hpc] at hb
    have hparent := hb.children (target, m') List.mem_cons_self
    have hne : stages.first ≠ target := by
      rintro rfl
      cases hparent.symm.trans ((stages.parent_eq_none _).mpr rfl)
    exact Function.update_of_ne hne _ _
  | clientPush c target m hc he =>
    right
    refine ⟨c, target, m, rfl, ?_⟩
    have htarget := (stages.parent_eq_none target).mp (Option.isNone_iff_eq_none.mp he)
    subst target
    exact Function.update_self _ _ _
  | _ => exact .inl rfl

theorem done_of_step (hs : Step base a base') (ha : a ≠ .stop) : base'.done = base.done := by
  cases hs <;> first | rfl | exact absurd rfl ha

/-- A step pops a message in some thread, or it pops nothing. -/
theorem popped_of_step (hs : Step base a base') :
    (base'.popped = base.popped ∧ ∀ u, takesPill base u a = false) ∨
      ∃ t e v s m rest, a = .thread t e v ∧ base.queue s = m :: rest ∧
        base'.popped = Function.update base.popped s (base.popped s ++ [m]) ∧
        ∀ u, takesPill base u a = (decide (t = u) && m.isPill) := by
  cases hs with
  | pop t e v s m rest hpc hq =>
    refine .inr ⟨t, e, v, s, m, rest, rfl, hq, rfl, fun u => ?_⟩
    simp only [takesPill, hpc, hq, List.head?_cons, Option.any_some]
  | empty t e v s hpc hq =>
    refine .inl ⟨rfl, fun u => ?_⟩
    simp only [takesPill, hpc, hq, List.head?_nil, Option.any_none, Bool.and_false]
  | leave t e v hpc | enter t e v hpc | call t e v p policy p' hpc | visit t e v p policy s hpc
  | push t e v s m target m' todo hpc | account t e v s m target todo hpc | returns t e v s m hpc
  | batchEnd t e v s info hpc => exact .inl ⟨rfl, fun u => by simp only [takesPill, hpc]⟩
  | throw t s m todo hA hpc => exact .inl ⟨rfl, fun _ => rfl⟩
  | clientPush c target m hc he => exact .inl ⟨rfl, fun _ => rfl⟩
  | clientDone c target hc => exact .inl ⟨rfl, fun _ => rfl⟩
  | stop => exact .inl ⟨rfl, fun _ => rfl⟩

/-- The input ends with its only pill, so a stage that is about to pop the pill has not popped it
    before. -/
theorem Inv.not_stamped (h : Inv σ) (htree : TreeInv σ.base) {s : Fin n}
    {rest : List (Message Line)} (hq : σ.base.queue s = .pill :: rest) : σ.stamped s = false := by
  have hprefix := htree.arrived_prefix s
  rw [history_eq, htree.fifo s, hq] at hprefix
  -- the pills that have arrived at `s` are among those of the input, of which there is one
  have hle := hprefix.sublist.countP_le (p := Message.isPill)
  have hone : (σ.base.arrived stages.first).countP Message.isPill ≤ 1 := by
    obtain ⟨lines, hlines, harrived⟩ := h.input
    have hzero : lines.countP Message.isPill = 0 := by
      rw [List.countP_eq_zero]
      exact fun m hm => Bool.not_eq_true _ ▸ List.any_eq_false.mp hlines m hm
    rcases harrived with harrived | harrived
    · rw [harrived, hzero]
      exact Nat.zero_le _
    · rw [harrived, List.countP_append, hzero]
      exact le_rfl
  rw [List.countP_append, List.countP_cons_of_pos rfl] at hle
  rw [State.stamped, List.any_eq_false]
  have hzero : (σ.base.popped s).countP Message.isPill = 0 := by omega
  exact fun m hm => List.countP_eq_zero.mp hzero m hm

theorem Inv.initial (h : Initial σ) : Inv σ where
  input := ⟨[], rfl, .inl (h.base.arrived _)⟩
  count := by
    have hcalling : ∑ t, (σ.calling t).toNat = 0 :=
      Finset.sum_eq_zero fun t _ => by rw [h.calling t]; rfl
    have hstamped : ∑ s, (σ.stamped s).toNat = 0 :=
      Finset.sum_eq_zero fun s _ => by rw [State.stamped, h.base.popped s]; rfl
    rw [h.count, hcalling, hstamped]
  done := by
    have hn : 0 < n := Nat.zero_lt_of_lt stages.first.isLt
    rw [h.base.done, h.count]
    exact iff_of_false Bool.false_ne_true hn.ne

/-- The input goes on, up to the pill. -/
theorem Inv.input_step (h : Inv σ) (htree : TreeInv σ.base) (hallows : σ.allows a = true)
    (hs : Step σ.base a base') : ∃ lines : List (Message Line),
      lines.any Message.isPill = false ∧ (base'.arrived stages.first = lines ∨
        base'.arrived stages.first = lines ++ [.pill]) := by
  obtain ⟨lines, hlines, harrived⟩ := h.input
  rcases arrived_first_of_step htree hs with heq | ⟨c, target, m, rfl, heq⟩
  · exact ⟨lines, hlines, by rw [heq]; exact harrived⟩
  · -- the pill has not been dispatched yet
    have hopen : (σ.base.arrived stages.first).any Message.isPill = false := by
      simpa [State.allows] using hallows
    have harrived : σ.base.arrived stages.first = lines := by
      refine harrived.resolve_right fun hpill => ?_
      rw [hpill, List.any_append] at hopen
      simp [Message.isPill] at hopen
    rw [heq, harrived]
    cases m with
    | line l => exact ⟨lines ++ [.line l], by rw [List.any_append, hlines]; rfl, .inl rfl⟩
    | pill => exact ⟨lines, hlines, .inr rfl⟩

/-- Every thread that takes the pill is to count its stage. -/
theorem Inv.count_step (h : Inv σ) (htree : TreeInv σ.base) (hallows : σ.allows a = true)
    (hs : Step σ.base a base') :
    σ.count + ∑ t, (σ.calling t || takesPill σ.base t a).toNat =
      ∑ s, ((base'.popped s).any Message.isPill).toNat := by
  rcases popped_of_step hs with ⟨hpopped, htakes⟩ | ⟨t, e, v, s, m, rest, rfl, hq, hpopped, htakes⟩
  · simp only [htakes, Bool.or_false, hpopped]
    exact h.count
  cases m with
  | line l =>
    have hsame : ∀ r, (base'.popped r).any Message.isPill = σ.stamped r := by
      intro r
      rw [hpopped]
      by_cases hr : r = s
      · subst r
        rw [Function.update_self, List.any_append]
        exact Bool.or_false _
      · rw [Function.update_of_ne hr]
        rfl
    simp only [htakes, hsame, Message.isPill, Bool.and_false, Bool.or_false]
    exact h.count
  | pill =>
    have hcalling : σ.calling t = false := by simpa [State.allows] using hallows
    have hstamped := h.not_stamped htree hq
    have hcallings : (fun u => σ.calling u || takesPill σ.base u (.thread t e v)) =
        Function.update σ.calling t true := by
      funext u
      rw [htakes u]
      by_cases hu : u = t
      · subst u
        rw [Function.update_self, decide_eq_true rfl]
        exact Bool.or_true _
      · rw [Function.update_of_ne hu, decide_eq_false (Ne.symm hu), Bool.false_and, Bool.or_false]
    have hstampeds : (fun r => (base'.popped r).any Message.isPill) =
        Function.update σ.stamped s true := by
      funext r
      rw [hpopped]
      by_cases hr : r = s
      · subst r
        rw [Function.update_self, Function.update_self, List.any_append]
        exact Bool.or_true _
      · rw [Function.update_of_ne hr, Function.update_of_ne hr]
        rfl
    have hcallingSum := sum_update_add (fun _ b => Bool.toNat b) σ.calling t true
    have hstampedSum := sum_update_add (fun _ b => Bool.toNat b) σ.stamped s true
    have hcount := h.count
    rw [hcalling, ← hcallings] at hcallingSum
    rw [hstamped, ← hstampeds] at hstampedSum
    simp only [Bool.toNat_true, Bool.toNat_false] at hcallingSum hstampedSum
    omega

theorem Inv.sum_stamped_le (σ : State M stages Line C) : ∑ s, (σ.stamped s).toNat ≤ n := by
  calc ∑ s, (σ.stamped s).toNat ≤ ∑ _s : Fin n, 1 := Finset.sum_le_sum fun s _ => Bool.toNat_le _
    _ = n := by simp

/-- A thread counts its stage. -/
theorem Inv.doneCall (h : Inv σ) {t : Fin T} (ht : σ.calling t = true) :
    Inv (State.mk (if σ.count + 1 = n then { σ.base with done := true } else σ.base)
      (σ.count + 1) (Function.update σ.calling t false) : State M stages Line C) := by
  have hsum := sum_update_add (fun _ b => Bool.toNat b) σ.calling t false
  rw [ht] at hsum
  simp only [Bool.toNat_true, Bool.toNat_false] at hsum
  have hcount := h.count
  have hle := Inv.sum_stamped_le σ
  -- the stage of this thread has not been counted, so the scheduler has not been stopped
  have hdone : ¬ σ.base.done = true := by
    rw [h.done]
    omega
  have hnew : σ.count + 1 + ∑ u, (Function.update σ.calling t false u).toNat =
      ∑ s, (σ.stamped s).toNat := by omega
  split
  · rename_i hlast
    exact ⟨h.input, hnew, iff_of_true rfl hlast⟩
  · rename_i hlast
    exact ⟨h.input, hnew, iff_of_false hdone hlast⟩

/-- Every state of the example is one of the scheduler under it, which the pill may stop. -/
theorem reachable_base (h : (system M stages Line C).Reachable σ) :
    (SchedulerBase.system M (stages.tree Line).application C).Reachable σ.base := by
  induction h with
  | init h => exact .init h.base
  | step a _ hs ih =>
    cases a with
    | scheduler a =>
      simp only [system, step, Option.ite_none_right_eq_some, Option.map_eq_some_iff] at hs
      obtain ⟨_, base, hbase, rfl⟩ := hs
      exact .step a ih hbase
    | done t =>
      simp only [system, step, Option.ite_none_right_eq_some, Option.some.injEq] at hs
      obtain ⟨_, rfl⟩ := hs
      dsimp only
      split
      · exact .step .stop ih rfl
      · exact ih

theorem inv_of_reachable (htree : ∀ base : SchedulerBase.State M (stages.tree Line).application C,
      (SchedulerBase.system M _ C).Reachable base → TreeInv base)
    (h : (system M stages Line C).Reachable σ) : Inv σ := by
  induction h with
  | init h => exact .initial h
  | step a hσ hs ih =>
    cases a with
    | scheduler a =>
      simp only [system, step, Option.ite_none_right_eq_some, Option.map_eq_some_iff] at hs
      obtain ⟨hallows, base, hbase, rfl⟩ := hs
      have hstep := step_inv hbase
      have ht := htree _ (reachable_base hσ)
      have hdone := done_of_step hstep (by rintro rfl; cases hallows)
      exact ⟨ih.input_step ht hallows hstep, ih.count_step ht hallows hstep,
        by rw [hdone]; exact ih.done⟩
    | done t =>
      simp only [system, step, Option.ite_none_right_eq_some, Option.some.injEq] at hs
      obtain ⟨ht, rfl⟩ := hs
      exact ih.doneCall ht

/-- When the scheduler is stopped, and whether it is. -/
structure StopsAtEnd (σ : State M stages Line C) : Prop where
  /-- Once it has been stopped, all stages have processed all lines and then the pill. -/
  processed : σ.base.done = true → Idle σ.base ∧ ∃ lines : List (Message Line),
    lines.any Message.isPill = false ∧ ∀ s, σ.base.popped s = lines ++ [.pill]
  /-- Once the pill has been dispatched and nothing is left to do, it has been stopped. -/
  stopped : (σ.base.arrived stages.first).any Message.isPill = true → Idle σ.base →
    (∀ t, σ.calling t = false) → σ.base.done = true

theorem Inv.stamped_of_done (h : Inv σ) (hdone : σ.base.done = true) (s : Fin n) :
    σ.stamped s = true := by
  have hcount := h.count
  have hle := Inv.sum_stamped_le σ
  rw [h.done.mp hdone] at hcount
  have hall : ∑ s, (σ.stamped s).toNat = ∑ _s : Fin n, 1 := by
    rw [show ∑ _s : Fin n, 1 = n by simp]
    omega
  have hone := (Finset.sum_eq_sum_iff_of_le fun s _ => Bool.toNat_le (σ.stamped s)).mp hall s
    (Finset.mem_univ s)
  exact Bool.toNat_eq_one.mp hone

/-- A stage that has popped the pill has popped all of the input. -/
theorem Inv.popped_of_stamped (h : Inv σ) (htree : TreeInv σ.base) {s : Fin n}
    (hs : σ.stamped s = true) : ∃ lines : List (Message Line), lines.any Message.isPill = false ∧
      σ.base.arrived stages.first = lines ++ [.pill] ∧ σ.base.popped s = lines ++ [.pill] := by
  obtain ⟨lines, hlines, harrived⟩ := h.input
  have hprefix := htree.popped_prefix s
  rw [history_eq] at hprefix
  have hnot : ¬ σ.base.popped s <+: lines := by
    intro hsub
    obtain ⟨m, hm, hpill⟩ := List.any_eq_true.mp hs
    exact List.any_eq_false.mp hlines m (hsub.subset hm) hpill
  rcases harrived with harrived | harrived
  · rw [harrived] at hprefix
    exact (hnot hprefix).elim
  · rw [harrived] at hprefix
    exact ⟨lines, hlines, harrived, (List.prefix_concat_iff.mp hprefix).resolve_right hnot⟩

theorem mem_toStage {ds : List (Fin n × Message Line)} {d : Fin n × Message Line} (hd : d ∈ ds) :
    d.2 ∈ toStage d.1 ds :=
  List.mem_filterMap.mpr ⟨d, hd, if_pos rfl⟩

theorem todo_of_not_visits {A : Application n} {pc : Pc M A} (h : ∀ p, ¬ pc.Visits p) :
    pc.todo = [] := by
  cases pc with
  | running s m todo => exact (h s rfl).elim
  | pushed s m target todo => exact (h s rfl).elim
  | _ => rfl

/-- Where all stages have popped the whole input, nothing is left to do. -/
theorem idle_of_popped (htree : TreeInv base)
    (hpopped : ∀ s, base.popped s = base.arrived stages.first) : Idle base := by
  have hqueue : ∀ s, base.queue s = [] := by
    intro s
    have hprefix := htree.arrived_prefix s
    rw [history_eq, htree.fifo s, hpopped s] at hprefix
    have hlength := hprefix.length_le
    rw [List.length_append] at hlength
    exact List.length_eq_zero_iff.mp (by omega)
  refine ⟨hqueue, fun t => ?_⟩
  by_cases hv : ∃ p, (base.pc t).Visits p
  · obtain ⟨p, hv⟩ := hv
    have hb := htree.visited t p hv
    rw [List.eq_nil_iff_forall_not_mem]
    intro d hd
    have hparent := hb.children d hd
    -- the child has received everything, so there is nothing left for it
    have harrived := hb.arrived d.1 hparent
    have hone : ∀ m, toStage d.1 ((stages.tree Line).functor p m) = [m] := fun m =>
      toStage_map (stages.nodup p) ((stages.parent_eq_some d.1 p).mp hparent) m
    simp only [hone, List.flatMap_singleton', htree.fifo d.1, hqueue d.1, hpopped,
      List.append_nil] at harrived
    have hmem := mem_toStage hd
    rw [List.append_right_eq_self.mp harrived] at hmem
    cases hmem
  · exact todo_of_not_visits fun p hp => hv ⟨p, hp⟩

theorem Inv.stopsAtEnd (h : Inv σ) (htree : TreeInv σ.base) : StopsAtEnd σ where
  processed hdone := by
    have hall := fun s => h.popped_of_stamped htree (h.stamped_of_done hdone s)
    obtain ⟨lines, hlines, harrived, _⟩ := hall stages.first
    have hpopped : ∀ s, σ.base.popped s = σ.base.arrived stages.first := by
      intro s
      obtain ⟨lines', _, harrived', hpopped'⟩ := hall s
      rw [harrived', hpopped']
    exact ⟨idle_of_popped htree hpopped, lines, hlines, fun s => (hpopped s).trans harrived⟩
  stopped hpill hidle hcalling := by
    have hstamped : ∀ s, σ.stamped s = true := by
      intro s
      rw [State.stamped, htree.popped_eq hidle s, history_eq]
      exact hpill
    have hcount := h.count
    rw [show σ.calling = fun _ => false from funext hcalling,
      show σ.stamped = fun _ => true from funext hstamped] at hcount
    have hcount : σ.count = n := by simpa using hcount
    exact h.done.mpr hcount

/-- The pill stops the scheduler only when all stages have processed all lines, and it does stop it
    then: under `ThreadPerStage`, and under every policy with a `ThreadAssignments` table but
    `Color` and limits of 0 and 1, for any number of threads and any interleaving. -/
theorem pill_stopsAtEnd (stages : Stages n) (Line : Type) (concurrency : Fin n → SizeT)
    (hlimit : ∀ s, concurrency s = 0 ∨ concurrency s = 1) {C : Nat} :
    (∀ σ : State (ThreadPerStage n) stages Line C,
      (system (ThreadPerStage n) stages Line C).Reachable σ → StopsAtEnd σ) ∧
    ∀ p : AssignmentPolicy, p ≠ .color →
      ∀ (T : Nat) (σ : State ((p.chooser n T).policy concurrency) stages Line C),
        (system ((p.chooser n T).policy concurrency) stages Line C).Reachable σ → StopsAtEnd σ :=
  ⟨fun _ hσ => (inv_of_reachable (fun _ => threadPerStage_treeInv) hσ).stopsAtEnd
      (threadPerStage_treeInv (reachable_base hσ)),
    fun _ _ _ _ hσ => (inv_of_reachable (fun _ => assignment_treeInv hlimit) hσ).stopsAtEnd
      (assignment_treeInv hlimit (reachable_base hσ))⟩

/-- The pipeline of the example: the second of four stages feeds the last two. -/
def forked : Stages 4 where
  next s := if s = 0 then [1] else if s = 1 then [2, 3] else []
  first := 0
  parent s := if s = 0 then none else if s = 1 then some 0 else some 1
  acyclic s h := by
    have hnext : ∀ a b : Fin 4, b ∈ (if a = 0 then [1] else if a = 1 then [2, 3] else []) →
        a < b := by decide
    have hlt := Relation.TransGen.mono hnext s s h
    rw [Relation.transGen_eq_self] at hlt
    exact lt_irrefl s hlt
  parent_eq_some := by decide
  parent_eq_none := by decide
  nodup := by decide

/-- One line and the pill go through the example. -/
def oneLine : List (Action (ThreadPerStage 4) forked Nat 1) :=
  let thread (t : Fin 4) (k : Nat) : List (Action (ThreadPerStage 4) forked Nat 1) :=
    List.replicate k (.scheduler (.thread t () ()))
  List.flatten
    [[.scheduler (.push 0 0 (.line 5)), .scheduler (.dispatched 0), .scheduler (.push 0 0 .pill)],
      thread 0 7, [.done 0], thread 0 1, thread 1 9, [.done 1], thread 1 3, thread 2 5, [.done 2],
      thread 3 5, [.done 3]]

theorem pill_stopsAtEnd_forked :
    ∃ σ : State (ThreadPerStage 4) forked Nat 1,
      (system (ThreadPerStage 4) forked Nat 1).Reachable σ ∧ σ.base.done = true ∧
        StopsAtEnd σ := by
  obtain ⟨σ, hσ, hdone⟩ := Lts.exists_reachable_of_run (system (ThreadPerStage 4) forked Nat 1)
    { base := .fresh (), count := 0, calling := fun _ => false } oneLine
    (fun σ => σ.base.done = true) ⟨State.fresh_initial trivial, rfl, fun _ => rfl⟩
    (by decide +kernel)
  exact ⟨σ, hσ, hdone, (pill_stopsAtEnd forked Nat (fun _ => 1) fun _ => .inr rfl).1 σ hσ⟩

end Wield.PoisonPill
