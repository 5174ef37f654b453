import Mathlib.Data.List.Nodup
import Wield.DispatcherBase
import Wield.Theory.Lts

/-!
# Stages in containers that grow

A stage registers its address when it is constructed.  A container that grows moves its stages to
other addresses, and the move constructor does not register them again.
-/

namespace Wield

open Theory

/-- A stage.  Its queue and its functor are references. -/
structure StageBase (n : Nat) (QueueType ProcessingFunctor : Type) where
  processingFunctor : ProcessingFunctor
  queue : QueueType
  stageName : Fin n

namespace StageBase

variable {n : Nat} {QueueType ProcessingFunctor : Type}

/-- `StageBase(StageBase&& stage)`. -/
def move (stage : StageBase n QueueType ProcessingFunctor) :
    StageBase n QueueType ProcessingFunctor where
  processingFunctor := stage.processingFunctor
  queue := stage.queue
  stageName := stage.stageName

/-- A dispatcher whose stages live in numbered slots of storage. -/
structure State (n : Nat) (QueueType ProcessingFunctor : Type) where
  dispatcher : DispatcherBase n Nat
  storage : Nat → Option (StageBase n QueueType ProcessingFunctor)
  /-- The slots of the elements of each container, in order. -/
  containers : Nat → List Nat
  /-- History: the stage of each name as its constructor left it. -/
  constructed : Fin n → Option (StageBase n QueueType ProcessingFunctor)

namespace State

variable (σ : State n QueueType ProcessingFunctor)

/-- `container.emplace_back(stageName, dispatcher, queue, processingFunctor)` at `slot`.  If the
    registration throws, there is no object. -/
def construct (container slot : Nat) (stage : StageBase n QueueType ProcessingFunctor) :
    State n QueueType ProcessingFunctor :=
  match σ.dispatcher.registerStage stage.stageName slot with
  | .error _ => σ
  | .ok dispatcher =>
    { dispatcher := dispatcher
      storage := Function.update σ.storage slot (some stage)
      containers := Function.update σ.containers container (σ.containers container ++ [slot])
      constructed := Function.update σ.constructed stage.stageName (some stage) }

/-- Where an element at `slot` is once the one at `source` has moved to `target`. -/
def redirect (source target slot : Nat) : Nat :=
  if slot = source then target else slot

/-- Move-construct one element into its new slot and destroy the source. -/
def relocate (container : Nat) (slots : Nat × Nat) : State n QueueType ProcessingFunctor :=
  { σ with
    storage := Function.update (Function.update σ.storage slots.2 ((σ.storage slots.1).map move))
      slots.1 none
    containers := Function.update σ.containers container
      ((σ.containers container).map (redirect slots.1 slots.2)) }

/-- The container takes `newSlots` for its elements, one after the other.  As they are free, it
    makes no difference whether the sources are destroyed at once or at the end. -/
def grow (container : Nat) (newSlots : List Nat) : State n QueueType ProcessingFunctor :=
  ((σ.containers container).zip newSlots).foldl (fun σ => σ.relocate container) σ

end State

inductive Action (n : Nat) (QueueType ProcessingFunctor : Type) where
  | construct (container slot : Nat) (stageName : Fin n) (queue : QueueType)
      (processingFunctor : ProcessingFunctor)
  | grow (container : Nat) (newSlots : List Nat)

open State

/-- New objects are put into free slots only. -/
def step (σ : State n QueueType ProcessingFunctor) :
    Action n QueueType ProcessingFunctor → Option (State n QueueType ProcessingFunctor)
  | .construct container slot stageName queue processingFunctor =>
    if (σ.storage slot).isNone then
      some (σ.construct container slot ⟨processingFunctor, queue, stageName⟩)
    else none
  | .grow container newSlots =>
    if newSlots.length = (σ.containers container).length ∧ newSlots.Nodup ∧
        ∀ slot ∈ newSlots, (σ.storage slot).isNone then
      some (σ.grow container newSlots)
    else none

/-- No stage has been constructed yet. -/
def empty : State n QueueType ProcessingFunctor where
  dispatcher := { stages := fun _ => none }
  storage _ := none
  containers _ := []
  constructed _ := none

variable (n QueueType ProcessingFunctor) in
def system : Lts (State n QueueType ProcessingFunctor) (Action n QueueType ProcessingFunctor) where
  init := (· = empty)
  step := step

/-- Every entry of the table refers to a live stage of its name, with the queue and the functor that
    the stage was constructed with. -/
def Reaches (σ : State n QueueType ProcessingFunctor) : Prop :=
  ∀ stageName slot, σ.dispatcher.stages stageName = some slot →
    ∃ stage, σ.storage slot = some stage ∧ stage.stageName = stageName ∧
      σ.constructed stageName = some stage

/-- A container that grows has no elements yet. -/
def GrowsEmpty (σ : State n QueueType ProcessingFunctor) :
    Action n QueueType ProcessingFunctor → Prop
  | .construct .. => True
  | .grow container _ => σ.containers container = []

/-- The live stages are where the containers have them, and all are registered. -/
structure Placed (σ : State n QueueType ProcessingFunctor) : Prop where
  live : ∀ container, ∀ slot ∈ σ.containers container, σ.storage slot ≠ none
  nodup : ∀ container, (σ.containers container).Nodup
  disjoint : ∀ container container' slot, slot ∈ σ.containers container →
    slot ∈ σ.containers container' → container = container'
  distinct : ∀ slot slot' stage stage', σ.storage slot = some stage →
    σ.storage slot' = some stage' → stage.stageName = stage'.stageName → slot = slot'
  registered : ∀ slot stage, σ.storage slot = some stage →
    σ.dispatcher.stages stage.stageName ≠ none ∧ σ.constructed stage.stageName = some stage

variable {σ : State n QueueType ProcessingFunctor} {container source target slot : Nat}
  {stage : StageBase n QueueType ProcessingFunctor}

theorem placed_empty : Placed (empty : State n QueueType ProcessingFunctor) where
  live _ _ hslot := by cases hslot
  nodup _ := List.nodup_nil
  disjoint _ _ _ hslot := by cases hslot
  distinct _ _ _ _ hslot := by cases hslot
  registered _ _ hslot := by cases hslot

/-! ## Construction -/

/-- The constructor of `stage` has returned, in an element that the container has put at `slot`. -/
structure Constructs (σ : State n QueueType ProcessingFunctor) (container slot : Nat)
    (stage : StageBase n QueueType ProcessingFunctor)
    (σ' : State n QueueType ProcessingFunctor) : Prop where
  nameFree : σ.dispatcher.stages stage.stageName = none
  stages : σ'.dispatcher.stages =
    Function.update σ.dispatcher.stages stage.stageName (some slot)
  storage : σ'.storage = Function.update σ.storage slot (some stage)
  containers : σ'.containers =
    Function.update σ.containers container (σ.containers container ++ [slot])
  constructed : σ'.constructed = Function.update σ.constructed stage.stageName (some stage)

theorem construct_cases (σ : State n QueueType ProcessingFunctor) (container slot : Nat)
    (stage : StageBase n QueueType ProcessingFunctor) :
    σ.construct container slot stage = σ ∨
      Constructs σ container slot stage (σ.construct container slot stage) := by
  unfold construct
  split
  · exact .inl rfl
  · rename_i dispatcher hok
    obtain ⟨hnone, hstages⟩ := DispatcherBase.registerStage_eq_ok hok
    exact .inr ⟨hnone, hstages, rfl, rfl, rfl⟩

variable {σ' : State n QueueType ProcessingFunctor}

theorem Constructs.storage_cases (h : Constructs σ container slot stage σ') {a : Nat}
    {s : StageBase n QueueType ProcessingFunctor} (ha : σ'.storage a = some s) :
    σ.storage a = some s ∨ a = slot ∧ s = stage := by
  rw [h.storage] at ha
  by_cases hslot : a = slot
  · subst a
    rw [Function.update_self] at ha
    exact .inr ⟨rfl, (Option.some.inj ha).symm⟩
  · rw [Function.update_of_ne hslot] at ha
    exact .inl ha

theorem Constructs.mem_cases (h : Constructs σ container slot stage σ') {c a : Nat}
    (ha : a ∈ σ'.containers c) : a ∈ σ.containers c ∨ c = container ∧ a = slot := by
  rw [h.containers] at ha
  by_cases hc : c = container
  · subst c
    rw [Function.update_self, List.mem_append, List.mem_singleton] at ha
    exact ha.imp_right fun ha => ⟨rfl, ha⟩
  · rw [Function.update_of_ne hc] at ha
    exact .inl ha

theorem Constructs.placed (h : Constructs σ container slot stage σ') (hσ : Placed σ)
    (hfree : σ.storage slot = none) : Placed σ' := by
  have hunused : ∀ c, slot ∉ σ.containers c := fun c hmem => hσ.live c slot hmem hfree
  -- the stages that are there already have other names
  have hother : ∀ a s, σ.storage a = some s → s.stageName ≠ stage.stageName :=
    fun a s ha hname => (hσ.registered a s ha).1 (hname ▸ h.nameFree)
  refine ⟨fun c a ha => ?_, fun c => ?_, fun c c' a ha ha' => ?_, fun a b s s' ha hb hname => ?_,
    fun a s ha => ?_⟩
  · rw [h.storage]
    rcases h.mem_cases ha with ha | ⟨_, rfl⟩
    · have hslot : a ≠ slot := fun heq => hunused c (heq ▸ ha)
      rw [Function.update_of_ne hslot]
      exact hσ.live c a ha
    · rw [Function.update_self]
      simp
  · rw [h.containers]
    by_cases hc : c = container
    · subst c
      rw [Function.update_self, List.nodup_append]
      refine ⟨hσ.nodup container, List.nodup_singleton slot, fun a ha b hb heq => ?_⟩
      rw [heq, List.mem_singleton.mp hb] at ha
      exact hunused container ha
    · rw [Function.update_of_ne hc]
      exact hσ.nodup c
  · rcases h.mem_cases ha with ha | ⟨hc, rfl⟩
    · rcases h.mem_cases ha' with ha' | ⟨_, rfl⟩
      · exact hσ.disjoint c c' a ha ha'
      · exact absurd ha (hunused c)
    · rcases h.mem_cases ha' with ha' | ⟨hc', _⟩
      · exact absurd ha' (hunused c')
      · rw [hc, hc']
  · rcases h.storage_cases ha with ha | ⟨rfl, rfl⟩
    · rcases h.storage_cases hb with hb | ⟨_, rfl⟩
      · exact hσ.distinct a b s s' ha hb hname
      · exact absurd hname (hother a s ha)
    · rcases h.storage_cases hb with hb | ⟨rfl, _⟩
      · exact absurd hname.symm (hother b s' hb)
      · rfl
  · rw [h.stages, h.constructed]
    rcases h.storage_cases ha with ha | ⟨_, rfl⟩
    · rw [Function.update_of_ne (hother a s ha), Function.update_of_ne (hother a s ha)]
      exact hσ.registered a s ha
    · rw [Function.update_self, Function.update_self]
      exact ⟨by simp, rfl⟩

theorem Constructs.reaches (h : Constructs σ container slot stage σ') (hσ : Reaches σ)
    (hfree : σ.storage slot = none) : Reaches σ' := by
  intro name a ha
  rw [h.stages] at ha
  rw [h.storage, h.constructed]
  by_cases hname : name = stage.stageName
  · subst name
    rw [Function.update_self] at ha
    cases ha
    exact ⟨stage, Function.update_self _ _ _, rfl, Function.update_self _ _ _⟩
  · rw [Function.update_of_ne hname] at ha
    obtain ⟨s, hs, hsname, hconstructed⟩ := hσ name a ha
    have hslot : a ≠ slot := by
      rintro rfl
      rw [hfree] at hs
      cases hs
    rw [Function.update_of_ne hslot, Function.update_of_ne hname]
    exact ⟨s, hs, hsname, hconstructed⟩

/-! ## Growth -/

theorem redirect_inj {a b : Nat} (ha : a ≠ target) (hb : b ≠ target)
    (h : redirect source target a = redirect source target b) : a = b := by
  unfold redirect at h
  split at h <;> split at h <;> omega

theorem relocate_storage (σ : State n QueueType ProcessingFunctor) (container source target : Nat) :
    (σ.relocate container (source, target)).storage =
      Function.update (Function.update σ.storage target (σ.storage source)) source none :=
  congrArg (fun moved => Function.update (Function.update σ.storage target moved) source none)
    Option.map_id'

theorem relocate_containers (σ : State n QueueType ProcessingFunctor)
    (container source target : Nat) :
    (σ.relocate container (source, target)).containers =
      Function.update σ.containers container
        ((σ.containers container).map (redirect source target)) :=
  rfl

/-- A relocation moves the one stage and keeps the others. -/
theorem relocate_storage_eq_some_iff (htarget : σ.storage target = none) :
    (σ.relocate container (source, target)).storage slot = some stage ↔
      ∃ origin, σ.storage origin = some stage ∧ redirect source target origin = slot := by
  rw [relocate_storage]
  unfold redirect
  constructor
  · intro h
    by_cases hsource : slot = source
    · subst slot
      rw [Function.update_self] at h
      cases h
    rw [Function.update_of_ne hsource] at h
    by_cases hslot : slot = target
    · subst slot
      rw [Function.update_self] at h
      exact ⟨source, h, if_pos rfl⟩
    · rw [Function.update_of_ne hslot] at h
      exact ⟨slot, h, if_neg hsource⟩
  · rintro ⟨origin, horigin, rfl⟩
    have hne : origin ≠ target := by
      rintro rfl
      rw [htarget] at horigin
      cases horigin
    by_cases hsource : origin = source
    · subst origin
      rw [if_pos rfl, Function.update_of_ne (Ne.symm hne), Function.update_self]
      exact horigin
    · rw [if_neg hsource, Function.update_of_ne hsource, Function.update_of_ne hne]
      exact horigin

theorem Placed.mem_relocate_iff (h : Placed σ) (hsource : source ∈ σ.containers container)
    (c : Nat) : slot ∈ (σ.relocate container (source, target)).containers c ↔
      ∃ origin ∈ σ.containers c, redirect source target origin = slot := by
  rw [relocate_containers]
  by_cases hc : c = container
  · subst c
    rw [Function.update_self, List.mem_map]
  · -- the element that moves is in no other container
    have hkept : ∀ origin ∈ σ.containers c, redirect source target origin = origin := by
      intro origin hmem
      have hne : origin ≠ source := by
        rintro rfl
        exact hc (h.disjoint c container origin hmem hsource)
      exact if_neg hne
    rw [Function.update_of_ne hc]
    constructor
    · exact fun hmem => ⟨slot, hmem, hkept slot hmem⟩
    · rintro ⟨origin, hmem, rfl⟩
      rw [hkept origin hmem]
      exact hmem

theorem Placed.relocate (h : Placed σ) (hsource : source ∈ σ.containers container)
    (htarget : σ.storage target = none) : Placed (σ.relocate container (source, target)) := by
  have hne : ∀ a s, σ.storage a = some s → a ≠ target := by
    rintro a s ha rfl
    rw [htarget] at ha
    cases ha
  have hmemne : ∀ c, ∀ a ∈ σ.containers c, a ≠ target := by
    rintro c a ha rfl
    exact h.live c a ha htarget
  refine ⟨fun c a ha => ?_, fun c => ?_, fun c c' a ha ha' => ?_, fun a b s s' ha hb hname => ?_,
    fun a s ha => ?_⟩
  · obtain ⟨origin, hmem, horigin⟩ := (h.mem_relocate_iff hsource c).mp ha
    obtain ⟨s, hs⟩ := Option.ne_none_iff_exists'.mp (h.live c origin hmem)
    rw [(relocate_storage_eq_some_iff htarget).mpr ⟨origin, hs, horigin⟩]
    simp
  · rw [relocate_containers]
    by_cases hc : c = container
    · subst c
      rw [Function.update_self]
      exact List.Nodup.map_on
        (fun a ha b hb heq => redirect_inj (hmemne _ a ha) (hmemne _ b hb) heq) (h.nodup _)
    · rw [Function.update_of_ne hc]
      exact h.nodup c
  · obtain ⟨origin, hmem, horigin⟩ := (h.mem_relocate_iff hsource c).mp ha
    obtain ⟨origin', hmem', horigin'⟩ := (h.mem_relocate_iff hsource c').mp ha'
    have heq := redirect_inj (hmemne c origin hmem) (hmemne c' origin' hmem')
      (horigin.trans horigin'.symm)
    subst heq
    exact h.disjoint c c' origin hmem hmem'
  · obtain ⟨origin, hs, horigin⟩ := (relocate_storage_eq_some_iff htarget).mp ha
    obtain ⟨origin', hs', horigin'⟩ := (relocate_storage_eq_some_iff htarget).mp hb
    have heq := h.distinct origin origin' s s' hs hs' hname
    rw [← horigin, ← horigin', heq]
  · obtain ⟨origin, hs, _⟩ := (relocate_storage_eq_some_iff htarget).mp ha
    exact h.registered origin s hs

/-- The relocations of `slots` are still to come: the sources are elements of the container, and the
    targets are free. -/
structure Relocatable (σ : State n QueueType ProcessingFunctor) (container : Nat)
    (slots : List (Nat × Nat)) : Prop where
  sources : ∀ p ∈ slots, p.1 ∈ σ.containers container
  sourcesNodup : (slots.map (·.1)).Nodup
  targets : ∀ p ∈ slots, σ.storage p.2 = none
  targetsNodup : (slots.map (·.2)).Nodup

/-- A slot that is free and no target stays free. -/
theorem relocate_storage_eq_none (hfree : slot = source ∨ σ.storage slot = none)
    (hslot : slot ≠ target) : (σ.relocate container (source, target)).storage slot = none := by
  rw [relocate_storage]
  by_cases hsource : slot = source
  · rw [hsource, Function.update_self]
  · rw [Function.update_of_ne hsource, Function.update_of_ne hslot]
    exact hfree.resolve_left hsource

theorem Relocatable.tail {p : Nat × Nat} {slots : List (Nat × Nat)} (hσ : Placed σ)
    (h : Relocatable σ container (p :: slots)) :
    Relocatable (σ.relocate container p) container slots := by
  obtain ⟨source, target⟩ := p
  have hsource := h.sources _ List.mem_cons_self
  have hsources := List.nodup_cons.mp h.sourcesNodup
  have htargets := List.nodup_cons.mp h.targetsNodup
  refine ⟨fun q hq => ?_, hsources.2, fun q hq => ?_, htargets.2⟩
  · have hne : q.1 ≠ source := fun heq => hsources.1 (List.mem_map.mpr ⟨q, hq, heq⟩)
    exact (hσ.mem_relocate_iff hsource container).mpr
      ⟨q.1, h.sources q (List.mem_cons_of_mem _ hq), if_neg hne⟩
  · have hne : q.2 ≠ target := fun heq => htargets.1 (List.mem_map.mpr ⟨q, hq, heq⟩)
    exact relocate_storage_eq_none (.inr (h.targets q (List.mem_cons_of_mem _ hq))) hne

theorem Placed.foldl_relocate {slots : List (Nat × Nat)} (hσ : Placed σ)
    (h : Relocatable σ container slots) :
    Placed (slots.foldl (fun σ => σ.relocate container) σ) := by
  induction slots generalizing σ with
  | nil => exact hσ
  | cons p slots ih =>
    have hp := hσ.relocate (h.sources p List.mem_cons_self) (h.targets p List.mem_cons_self)
    exact ih hp (h.tail hσ)

/-- At the end the sources are free. -/
theorem foldl_relocate_storage_eq_none {slots : List (Nat × Nat)}
    (hfree : slot ∈ slots.map (·.1) ∨ σ.storage slot = none) (hslot : ∀ p ∈ slots, slot ≠ p.2) :
    (slots.foldl (fun σ => σ.relocate container) σ).storage slot = none := by
  induction slots generalizing σ with
  | nil => exact hfree.resolve_left List.not_mem_nil
  | cons p slots ih =>
    refine ih ?_ fun q hq => hslot q (List.mem_cons_of_mem _ hq)
    have hp := hslot p List.mem_cons_self
    rw [List.map_cons, List.mem_cons] at hfree
    obtain (hsource | hlater) | hfree := hfree
    · exact .inr (relocate_storage_eq_none (.inl hsource) hp)
    · exact .inl hlater
    · exact .inr (relocate_storage_eq_none (.inr hfree) hp)

theorem foldl_relocate_dispatcher (slots : List (Nat × Nat)) :
    (slots.foldl (fun σ => σ.relocate container) σ).dispatcher = σ.dispatcher := by
  induction slots generalizing σ with
  | nil => rfl
  | cons p slots ih => exact ih

theorem relocatable_zip {newSlots : List Nat} (hσ : Placed σ)
    (hlength : newSlots.length = (σ.containers container).length) (hnodup : newSlots.Nodup)
    (hfree : ∀ slot ∈ newSlots, σ.storage slot = none) :
    Relocatable σ container ((σ.containers container).zip newSlots) where
  sources p hp := (List.of_mem_zip hp).1
  sourcesNodup := by
    rw [List.map_fst_zip hlength.ge]
    exact hσ.nodup container
  targets p hp := hfree p.2 (List.of_mem_zip hp).2
  targetsNodup := by
    rw [List.map_snd_zip hlength.le]
    exact hnodup

/-- A container that grows leaves the entries of its elements behind. -/
theorem not_reaches_grow {newSlots : List Nat} (hσ : Placed σ) (hreaches : Reaches σ)
    (hlength : newSlots.length = (σ.containers container).length)
    (hfree : ∀ slot ∈ newSlots, σ.storage slot = none) (hne : σ.containers container ≠ []) :
    ¬ Reaches (σ.grow container newSlots) := by
  obtain ⟨source, hsource⟩ := List.exists_mem_of_ne_nil _ hne
  obtain ⟨stage, hstage⟩ := Option.ne_none_iff_exists'.mp (hσ.live container source hsource)
  -- the table refers to the stage where it was
  have hentry : σ.dispatcher.stages stage.stageName = some source := by
    obtain ⟨slot, hslot⟩ :=
      Option.ne_none_iff_exists'.mp (hσ.registered source stage hstage).1
    obtain ⟨stage', hstage', hname, _⟩ := hreaches _ slot hslot
    rw [hslot, hσ.distinct slot source stage' stage hstage' hstage hname]
  have hgone : (σ.grow container newSlots).storage source = none := by
    refine foldl_relocate_storage_eq_none (.inl ?_) fun p hp heq => ?_
    · rw [List.map_fst_zip hlength.ge]
      exact hsource
    · rw [heq, hfree p.2 (List.of_mem_zip hp).2] at hstage
      cases hstage
  intro hafter
  obtain ⟨stage', hstage', _⟩ := hafter stage.stageName source
    ((congrArg (·.stages stage.stageName) (foldl_relocate_dispatcher _)).trans hentry)
  rw [hgone] at hstage'
  cases hstage'

/-! ## Runs -/

theorem placed_invariant : (system n QueueType ProcessingFunctor).Invariant Placed where
  init σ h := h ▸ placed_empty
  step σ a σ' h hs := by
    cases a with
    | construct container slot stageName queue processingFunctor =>
      obtain ⟨hfree, hσ'⟩ := Option.ite_none_right_eq_some.mp hs
      cases hσ'
      rcases construct_cases σ container slot ⟨processingFunctor, queue, stageName⟩ with heq | hnew
      · rw [heq]
        exact h
      · exact hnew.placed h (Option.isNone_iff_eq_none.mp hfree)
    | grow container newSlots =>
      obtain ⟨⟨hlength, hnodup, hfree⟩, hσ'⟩ := Option.ite_none_right_eq_some.mp hs
      cases hσ'
      exact h.foldl_relocate (relocatable_zip h hlength hnodup
        fun slot hslot => Option.isNone_iff_eq_none.mp (hfree slot hslot))

theorem reaches_step_iff {a : Action n QueueType ProcessingFunctor}
    {σ' : State n QueueType ProcessingFunctor} (h : Placed σ) (hreaches : Reaches σ)
    (hs : step σ a = some σ') : Reaches σ' ↔ GrowsEmpty σ a := by
  cases a with
  | construct container slot stageName queue processingFunctor =>
    obtain ⟨hfree, hσ'⟩ := Option.ite_none_right_eq_some.mp hs
    cases hσ'
    refine iff_of_true ?_ trivial
    rcases construct_cases σ container slot ⟨processingFunctor, queue, stageName⟩ with heq | hnew
    · rw [heq]
      exact hreaches
    · exact hnew.reaches hreaches (Option.isNone_iff_eq_none.mp hfree)
  | grow container newSlots =>
    obtain ⟨⟨hlength, _, hfree⟩, hσ'⟩ := Option.ite_none_right_eq_some.mp hs
    cases hσ'
    by_cases hempty : σ.containers container = []
    · have hgrow : σ.grow container newSlots = σ := by
        rw [grow, hempty, List.zip_nil_left, List.foldl_nil]
      rw [hgrow]
      exact iff_of_true hreaches hempty
    · refine iff_of_false (not_reaches_grow h hreaches hlength ?_ hempty) hempty
      exact fun slot hslot => Option.isNone_iff_eq_none.mp (hfree slot hslot)

/-- The runs in which the table always refers to the stages it was given are the ones in which no
    container grows that has elements. -/
theorem reaches_always_iff (as : List (Action n QueueType ProcessingFunctor)) :
    (system n QueueType ProcessingFunctor).Always Reaches empty as ↔
      (system n QueueType ProcessingFunctor).Steps GrowsEmpty empty as :=
  Lts.always_iff_steps placed_invariant (fun _ _ _ h hreaches hs => reaches_step_iff h hreaches hs)
    placed_empty (fun _ _ h => by cases h) as

/-- A container of one stage grows, and the entry refers to the slot that the stage has left. -/
theorem entry_dangles_after_growth :
    ∃ σ : State 1 Nat Nat, (system 1 Nat Nat).Reachable σ ∧
      σ.dispatcher.stages 0 = some 0 ∧ σ.storage 0 = none ∧ ¬ Reaches σ := by
  obtain ⟨σ, hσ, hentry, hgone⟩ := Lts.exists_reachable_of_run (system 1 Nat Nat) empty
    [.construct 0 0 0 7 9, .grow 0 [1]]
    (fun σ => σ.dispatcher.stages 0 = some 0 ∧ (σ.storage 0).isNone) rfl (by decide)
  have hgone : σ.storage 0 = none := Option.isNone_iff_eq_none.mp hgone
  refine ⟨σ, hσ, hentry, hgone, fun hreaches => ?_⟩
  obtain ⟨stage, hstage, _⟩ := hreaches 0 0 hentry
  rw [hgone] at hstage
  cases hstage

end StageBase

end Wield
