import Wield.Schedulers.NextStage
import Wield.Theory.Lts
import Wield.Theory.Ranked

/-!
# Calls that do not overlap

Threads call `nextStage` one after the other, each call undivided, and between the calls batches end
and messages are dispatched.  `serialised` is the system of such calls for any stage chooser.
-/

namespace Wield.StageChooser

open Theory

variable {n T : Nat}

/-- What is left by one call for the next. -/
structure Serialised (P : StageChooser n T) where
  own : P.State
  ta : ThreadAssignments n T

inductive Serialised.Action (P : StageChooser n T) where
  /-- A call that returns within `fuel` rounds of its loop. -/
  | nextStage (t : Fin T) (fuel : Nat) (entropy : Nat → P.Entropy)
  | batchEnd (hadMessage : Bool)
  | dispatched (stageName : Fin n)

variable {P : StageChooser n T} {concurrency : Fin n → SizeT}

def Serialised.step (σ : Serialised P) : Serialised.Action P → Option (Serialised P)
  | .nextStage t fuel entropy =>
    (P.nextStage fuel entropy t σ.own σ.ta).map fun (_, own, ta) => { own := own, ta := ta }
  | .batchEnd hadMessage => some { σ with own := P.batchEnd σ.own hadMessage }
  | .dispatched stageName => some { σ with own := P.dispatched σ.own stageName }

/-- The action is a call of `nextStage(t)`. -/
def Serialised.Action.calls (t : Fin T) : Serialised.Action P → Bool
  | .nextStage u _ _ => u = t
  | _ => false

/-- A policy that no thread has called yet. -/
structure Serialised.Initial (concurrency : Fin n → SizeT) (σ : Serialised P) : Prop where
  ta : σ.ta = ThreadAssignments.init concurrency
  own : P.init concurrency σ.own

variable (P) in
def serialised (concurrency : Fin n → SizeT) : Lts (Serialised P) (Serialised.Action P) where
  init := Serialised.Initial concurrency
  step := Serialised.step

/-- A finished call moves the thread to the stage it returns. -/
theorem nextStage_moves {fuel : Nat} {entropy : Nat → P.Entropy} {t : Fin T}
    {own own' : P.State} {ta ta' : ThreadAssignments n T} {s : Fin n}
    (h : P.nextStage fuel entropy t own ta = some (s, own', ta')) : ta.Moves t s ta' := by
  obtain ⟨hroom, rfl⟩ := assignLoop_eq_some h
  exact ThreadAssignments.moves_of_hasRoom hroom

/-- What is kept between the calls: the table is consistent, and the limits are those of the
    constructor. -/
structure Serialised.Inv (concurrency : Fin n → SizeT) (σ : Serialised P) : Prop where
  counted : σ.ta.Counted
  limit : σ.ta.maximumConcurrency = concurrency

theorem serialised_invariant :
    (serialised P concurrency).Invariant (Serialised.Inv concurrency) where
  init σ h := by
    refine ⟨?_, ?_⟩ <;> rw [h.ta]
    · exact .init concurrency
    · rfl
  step σ a σ' h hs := by
    cases a with
    | nextStage t fuel entropy =>
      obtain ⟨⟨s, own, ta⟩, hnext, rfl⟩ := Option.map_eq_some_iff.mp hs
      exact ⟨(nextStage_counted h.counted hnext).1,
        (nextStage_moves hnext).maximumConcurrency.trans h.limit⟩
    | batchEnd hadMessage =>
      cases hs
      exact ⟨h.counted, h.limit⟩
    | dispatched stageName =>
      cases hs
      exact ⟨h.counted, h.limit⟩

/-- Only its own calls of `nextStage` change the assignment of a thread. -/
theorem Serialised.step_threadAssignment {σ σ' : Serialised P} {a : Serialised.Action P}
    {t : Fin T} (hs : Serialised.step σ a = some σ') (ha : a.calls t = false) :
    σ'.ta.threadAssignment t = σ.ta.threadAssignment t := by
  cases a with
  | nextStage u fuel entropy =>
    obtain ⟨⟨s, own, ta⟩, hnext, rfl⟩ := Option.map_eq_some_iff.mp hs
    exact (nextStage_moves hnext).others t (Ne.symm (of_decide_eq_false ha))
  | batchEnd hadMessage =>
    cases hs
    rfl
  | dispatched stageName =>
    cases hs
    rfl

/-- Some number of calls of thread `t`, with nobody else moving, ends with one that returns `s`. -/
inductive CanReturn (P : StageChooser n T) (t : Fin T) (s : Fin n) :
    P.State → ThreadAssignments n T → Prop where
  | now {fuel : Nat} {entropy : Nat → P.Entropy} {own own' : P.State}
      {ta ta' : ThreadAssignments n T} :
      P.nextStage fuel entropy t own ta = some (s, own', ta') → CanReturn P t s own ta
  | later {fuel : Nat} {entropy : Nat → P.Entropy} {r : Fin n} {own own' : P.State}
      {ta ta' : ThreadAssignments n T} :
      P.nextStage fuel entropy t own ta = some (r, own', ta') → CanReturn P t s own' ta' →
        CanReturn P t s own ta

/-- Only the first call depends on where the calls start. -/
theorem CanReturn.of_nextStage {t : Fin T} {s : Fin n} {own own' : P.State}
    {ta ta' : ThreadAssignments n T} (h : CanReturn P t s own' ta')
    (hcall : ∀ fuel entropy result, P.nextStage fuel entropy t own' ta' = some result →
      ∃ fuel entropy, P.nextStage fuel entropy t own ta = some result) :
    CanReturn P t s own ta := by
  cases h with
  | now hnext =>
    obtain ⟨_, _, hnext⟩ := hcall _ _ _ hnext
    exact .now hnext
  | later hnext h =>
    obtain ⟨_, _, hnext⟩ := hcall _ _ _ hnext
    exact .later hnext h

/-! ## Walks that come to every stage -/

section Walk

variable {State : Type} {next : StageEnum n → StageEnum n}
  {start : State → StageEnum n → StageEnum n} {batchEnd : State → Bool → State}
  {init : (Fin n → SizeT) → State → Prop} {rank : StageEnum n → Fin n → Nat}
  {t : Fin T} {ta ta' : ThreadAssignments n T} {own own' : State} {s : Fin n}

/-- A call returns the stage with room that is first in the order of the walk. -/
theorem nextStage_walk (hrank : Ranks next rank) (own : State)
    (hs : MinimalFor (ta.removeCurrentAssignment t).2.HasRoom
      (rank (start own (ta.threadAssignment t))) s) (entropy : Nat → Unit) :
    (walk State next start batchEnd init).nextStage n entropy t own ta =
      some (s, own, ((ta.removeCurrentAssignment t).2.tryAssign t (some s)).2) := by
  rw [nextStage]
  dsimp only
  rw [ThreadAssignments.removeCurrentAssignment_fst]
  exact assignLoop_walk_of_firstHit (hrank.firstHit_iff.mpr ⟨rfl, hs⟩) (hrank.lt _ _)

theorem minimalFor_of_nextStage_walk (hrank : Ranks next rank) {fuel : Nat}
    {entropy : Nat → Unit}
    (h : (walk State next start batchEnd init).nextStage fuel entropy t own ta =
      some (s, own', ta')) :
    MinimalFor (ta.removeCurrentAssignment t).2.HasRoom
      (rank (start own (ta.threadAssignment t))) s := by
  rw [← ThreadAssignments.removeCurrentAssignment_fst]
  obtain ⟨_, k, hk⟩ := firstHit_of_assignLoop_walk h
  exact (hrank.firstHit_iff.mp hk).2

/-- Whenever some stage has room, a call returns within as many rounds as there are stages. -/
theorem exists_nextStage_walk (hrank : Ranks next rank) (own : State)
    (hroom : ∃ s, (ta.removeCurrentAssignment t).2.HasRoom s) : ∃ s ta',
    (∀ entropy, (walk State next start batchEnd init).nextStage n entropy t own ta =
      some (s, own, ta')) ∧
    MinimalFor (ta.removeCurrentAssignment t).2.HasRoom
      (rank (start own (ta.threadAssignment t))) s ∧ ta.Moves t s ta' := by
  obtain ⟨s, hs⟩ := exists_minimalFor_of_wellFoundedLT _
    (rank (start own (ta.threadAssignment t))) hroom
  exact ⟨s, _, nextStage_walk hrank own hs, hs, ThreadAssignments.moves_of_hasRoom hs.1⟩

end Walk

end Wield.StageChooser
