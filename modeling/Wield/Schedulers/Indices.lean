import Wield.Schedulers.Calls
import Wield.Schedulers.RandomVisit.Tables
import Wield.Theory.Ranked

/-!
# The indices that `nextStage` uses

`nextStage` goes with stage values to arrays of `NumberOfEntries` elements, which the marker
`NumberOfEntries` itself would overrun.  `RoundRobin`, `SRPT`, `RandomVisit` and `ColorMinus` only
choose stages, so that none of them hands the marker to `tryAssign`.
-/

namespace Wield

open Theory StageChooser

variable {n T : Nat}

namespace StageChooser

variable {P : StageChooser n T}

/-- The index of the thread's next access to `threadsPerStage_`, `maximumConcurrency_` or the
    dispatcher's `stages_`. -/
def Pc.index : P.Pc → Option SizeT
  | .decrement current => some (StageEnum.toSizeT (some current))
  | .load next _ => some next.toSizeT
  | .exchange next _ _ | .assigned next => some (StageEnum.toSizeT (some next))
  | .enter | .clear _ | .start _ | .choose _ | .record _ | .refused _ _ => none

/-- The next access of the thread is to an element that is there. -/
def Caller.InBounds : P.Caller → Prop
  | .outside _ => True
  | .inside pc => pc.index.all fun i => i.toNat < n

instance (caller : P.Caller) : Decidable caller.InBounds :=
  match caller with
  | .outside _ => isTrue trivial
  | .inside pc => inferInstanceAs (Decidable (pc.index.all _ = true))

/-- Every thread's next access is in bounds. -/
def Calls.InBounds (σ : Calls P) : Prop :=
  ∀ t, (σ.caller t).InBounds

instance (σ : Calls P) : Decidable σ.InBounds :=
  inferInstanceAs (Decidable (∀ t, (σ.caller t).InBounds))

theorem inBounds_some (hn : n < 2 ^ 64) (s : Fin n) :
    decide ((StageEnum.toSizeT (some s)).toNat < n) = true := by
  rw [StageEnum.toNat_toSizeT_some hn]
  exact decide_eq_true s.isLt

/-- A stage has been chosen, if anything has. -/
def Pc.NamesStage : P.Pc → Prop
  | .load next _ | .refused next _ => next ≠ StageEnum.NumberOfEntries
  | .enter | .decrement _ | .clear _ | .start _ | .choose _ | .exchange _ _ _ | .record _
  | .assigned _ => True

def Caller.NamesStage : P.Caller → Prop
  | .outside _ => True
  | .inside pc => pc.NamesStage

theorem Caller.NamesStage.inBounds (hn : n < 2 ^ 64) {caller : P.Caller} (h : caller.NamesStage) :
    caller.InBounds := by
  cases caller with
  | outside last => trivial
  | inside pc =>
    cases pc with
    | load next c =>
      obtain ⟨s, rfl⟩ := Option.ne_none_iff_exists'.mp (h : next ≠ none)
      exact inBounds_some hn s
    | decrement s | exchange s seen c | assigned s => exact inBounds_some hn s
    | enter | clear s | start original | choose c | record s | refused next c => rfl

/-- Only a choice can bring in the marker. -/
theorem Pc.NamesStage.step {σ σ' : P.Shared} {t : Fin T} {e : P.Entropy} {pc pc' : P.Pc}
    (h : pc.NamesStage) (hchoose : ∀ c, pc = .choose c → (P.choose σ.own t c e).1 ≠ none)
    (hs : Call.step σ t e pc = (σ', .inl pc')) : pc'.NamesStage := by
  cases pc with
  | choose c =>
    cases hs
    exact hchoose c rfl
  | load next c =>
    cases next with
    | none => exact absurd rfl (h : StageEnum.NumberOfEntries ≠ none)
    | some s =>
      simp only [Call.step] at hs
      split at hs <;> cases hs
      · trivial
      · exact Option.some_ne_none s
  | exchange s seen c =>
    simp only [Call.step] at hs
    split at hs <;> cases hs
    · trivial
    · exact Option.some_ne_none s
  | enter =>
    simp only [Call.step] at hs
    split at hs <;> cases hs <;> trivial
  | assigned s => cases hs
  | decrement s | clear s | start original | record s | refused next c =>
    cases hs
    trivial

/-- The policy keeps its data valid, and then it chooses stages only. -/
structure ChoosesStages (P : StageChooser n T) (concurrency : Fin n → SizeT)
    (valid : P.State → Prop) : Prop extends P.Keeps valid where
  init : ∀ own, P.init concurrency own → valid own
  choose_ne : ∀ own t c e, valid own → (P.choose own t c e).1 ≠ none

theorem namesStage_invariant {concurrency : Fin n → SizeT} {valid : P.State → Prop}
    (h : ChoosesStages P concurrency valid) :
    (calls P concurrency).Invariant fun σ =>
      valid σ.shared.own ∧ ∀ t, (σ.caller t).NamesStage where
  init σ hσ := by
    refine ⟨h.init _ hσ.own, fun t => ?_⟩
    rw [hσ.caller t]
    trivial
  step σ a σ' hσ hs := by
    refine ⟨Calls.keeps h.toKeeps hσ.1 hs, ?_⟩
    have move : ∀ {t caller}, σ'.caller = Function.update σ.caller t caller → caller.NamesStage →
        ∀ u, (σ'.caller u).NamesStage := by
      intro t caller hcaller hnames
      rw [hcaller, Function.forall_update_iff σ.caller fun _ caller => caller.NamesStage]
      exact ⟨hnames, fun u _ => hσ.2 u⟩
    cases Calls.step_inv hs with
    | call t last hc => exact move rfl (trivial : (Caller.inside .enter).NamesStage)
    | goOn t e pc shared pc' hpc hr =>
      have hnames : pc.NamesStage := by
        have ht := hσ.2 t
        rwa [hpc] at ht
      refine move rfl (hnames.step (fun c heq => ?_) hr : (Caller.inside pc').NamesStage)
      exact h.choose_ne _ t c e hσ.1
    | returns t e pc shared stage hpc hr =>
      exact move rfl (trivial : (Caller.outside (some stage)).NamesStage)
    | batchEnd hadMessage | dispatched stageName => exact hσ.2

end StageChooser

/-! ## The policies -/

variable {concurrency : Fin n → SizeT}

/-- A walk that comes to every stage chooses stages only. -/
theorem walk_choosesStages {State : Type} {next : StageEnum n → StageEnum n}
    {start : State → StageEnum n → StageEnum n} {batchEnd : State → Bool → State}
    {init : (Fin n → SizeT) → State → Prop} {rank : StageEnum n → Fin n → Nat}
    (hrank : Ranks next rank) (hpos : 0 < n) :
    ChoosesStages (walk (T := T) State next start batchEnd init) concurrency fun _ => True where
  choose _ _ _ _ _ := trivial
  settle _ _ _ := trivial
  batchEnd _ _ _ := trivial
  dispatched _ _ _ := trivial
  init _ _ := trivial
  choose_ne _ _ c _ _ := by
    obtain ⟨s, hs, _⟩ := hrank.exists_next c hpos
    show next c ≠ none
    rw [hs]
    exact Option.some_ne_none s

theorem RandomVisit.choosesStages {TableSizeFactor : Nat} (hsize : 0 < n * TableSizeFactor) :
    ChoosesStages (RandomVisit.chooser n T TableSizeFactor) concurrency
      (RandomVisit.Tables.Valid concurrency) where
  toKeeps := keeps_valid hsize
  init := by
    rintro own ⟨draws, hdraws⟩
    exact initVisitTable_valid hdraws
  choose_ne own t _ randomDevice hvalid := by
    obtain ⟨s, hs, _⟩ := (randomStage_valid hvalid hsize t randomDevice).2
    show (randomStage own t randomDevice).1 ≠ none
    rw [hs]
    exact Option.some_ne_none s

theorem ColorMinus.choosesStages (hpos : 0 < n) :
    ChoosesStages (ColorMinus.chooser n T) concurrency fun _ => True where
  choose _ _ _ _ _ := trivial
  settle _ _ _ := trivial
  batchEnd _ _ _ := trivial
  dispatched _ _ _ := trivial
  init _ _ := trivial
  choose_ne stats _ _ _ _ := by
    obtain ⟨s, hs, _⟩ := stats.highwaterStage_spec hpos
    show stats.highwaterStage ≠ none
    rw [hs]
    exact Option.some_ne_none s

theorem exists_choosesStages (hn : n < 2 ^ 64) (hpos : 0 < n) {p : AssignmentPolicy}
    (hp : p ≠ .color) (concurrency : Fin n → SizeT) :
    ∃ valid, ChoosesStages (p.chooser n T) concurrency valid := by
  cases p with
  | roundRobin => exact ⟨_, walk_choosesStages (RoundRobin.incrementStage_countsUp hn).ranks hpos⟩
  | srpt => exact ⟨_, walk_choosesStages (SRPT.decrementStage_countsDown hn).ranks hpos⟩
  | randomVisit TableSizeFactor =>
    exact ⟨_, RandomVisit.choosesStages (Nat.mul_pos hpos TableSizeFactor.pos)⟩
  | color => exact absurd rfl hp
  | colorMinus => exact ⟨_, ColorMinus.choosesStages hpos⟩

/-- Under every policy but `Color` all accesses of `nextStage` are in bounds, in every interleaving
    of any number of calls, and `updatePrevious` is not called for the marker either. -/
theorem nextStage_inBounds (hn : n < 2 ^ 64) (hpos : 0 < n) {p : AssignmentPolicy}
    (hp : p ≠ .color) (concurrency : Fin n → SizeT) {σ : Calls (p.chooser n T)}
    (hσ : (calls (p.chooser n T) concurrency).Reachable σ) :
    σ.InBounds ∧
      ∀ t c, σ.caller t ≠ .inside (.refused StageEnum.NumberOfEntries c) := by
  obtain ⟨valid, hvalid⟩ := exists_choosesStages (T := T) hn hpos hp concurrency
  have hnames := ((namesStage_invariant hvalid).holds hσ).2
  refine ⟨fun t => (hnames t).inBounds hn, fun t c hc => ?_⟩
  have ht := hnames t
  rw [hc] at ht
  exact absurd rfl (ht : StageEnum.NumberOfEntries ≠ none)

/-- Under `ColorMinus`, with nothing dispatched, the first of two stages is tried. -/
theorem nextStage_inBounds_two :
    ∃ σ : Calls (AssignmentPolicy.colorMinus.chooser 2 1),
      (calls (AssignmentPolicy.colorMinus.chooser 2 1) fun _ => 1).Reachable σ ∧
        σ.caller 0 = .inside (.load (some 0) ()) ∧ σ.InBounds := by
  let σ : Calls (AssignmentPolicy.colorMinus.chooser 2 1) :=
    { shared := .fresh (fun _ => 1) MessageCount.reset, caller := fun _ => .outside none }
  obtain ⟨σ', hrun, hload⟩ : ∃ σ', (calls (AssignmentPolicy.colorMinus.chooser 2 1)
      fun _ => 1).run σ [.call 0, .access 0 (), .access 0 (), .access 0 ()] = some σ' ∧
        σ'.caller 0 = .inside (.load (some 0) ()) := ⟨_, rfl, rfl⟩
  have hσ' := (Lts.Reachable.init (L := calls (AssignmentPolicy.colorMinus.chooser 2 1)
    fun _ => 1) ⟨rfl, fun _ => rfl, rfl, fun _ => rfl⟩).run hrun
  exact ⟨σ', hσ', hload,
    (nextStage_inBounds (by decide) (by decide) (by simp) (fun _ => 1) hσ').1⟩

end Wield
