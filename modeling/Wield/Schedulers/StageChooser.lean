import Wield.Utils.ThreadAssignments

/-!
# The assign-and-retry loop of `nextStage`

`RoundRobin`, `SRPT`, `RandomVisit`, `Color` and `ColorMinus` share the shape of `nextStage`: give
up the current assignment, then choose stages until `tryAssign` accepts one.  A `StageChooser` is
what a policy contributes to that loop.  The loop is given twice: `nextStage` is the call run
without interference, and `Call.step` takes the same call one shared access at a time, so that the
calls of several threads can be interleaved.
-/

namespace Wield

/-- The part of a `ThreadAssignments`-based policy that is its own: its shared data, the local
    variables of one `nextStage` call, and where they are read and written. -/
structure StageChooser (n T : Nat) where
  State : Type
  Cursor : Type
  /-- What a choice may draw from outside the program. -/
  Entropy : Type
  /-- Before the loop: the local variables, from the assignment that was given up. -/
  start : State → StageEnum n → Cursor
  /-- At the top of the loop body: the stage to try next. -/
  choose : State → Fin T → Cursor → Entropy → StageEnum n × Cursor × State
  /-- After `tryAssign`, whatever its answer. -/
  settle : State → StageEnum n → State
  /-- `batchEnd`, with `pollingInfo.hadMessage()`. -/
  batchEnd : State → Bool → State
  /-- What the policy's dispatcher does after it has pushed a message. -/
  dispatched : State → Fin n → State
  /-- The states a constructor leaves, by concurrency map. -/
  init : (Fin n → SizeT) → State → Prop

namespace StageChooser

variable {n T : Nat} (P : StageChooser n T)

/-- A policy whose loop only walks over the stages by `next`. -/
@[reducible] def walk (State : Type) (next : StageEnum n → StageEnum n)
    (start : State → StageEnum n → StageEnum n) (batchEnd : State → Bool → State)
    (init : (Fin n → SizeT) → State → Prop) : StageChooser n T where
  State := State
  Cursor := StageEnum n
  Entropy := Unit
  start := start
  choose own _ stage _ := (next stage, next stage, own)
  settle own _ := own
  batchEnd := batchEnd
  dispatched own _ := own
  init := init

/-! ## The call without interference -/

/-- The `do … while(!hasAssignment)` loop. -/
def assignLoop (threadId : Fin T) :
    Nat → (Nat → P.Entropy) → P.Cursor → P.State → ThreadAssignments n T →
      Option (Fin n × P.State × ThreadAssignments n T)
  | 0, _, _, _, _ => none
  | fuel + 1, entropy, cursor, own, ta =>
    let (next, cursor, own) := P.choose own threadId cursor (entropy 0)
    let (success, ta) := ta.tryAssign threadId next
    -- `ColorMinus` settles here whether or not `tryAssign` has accepted
    let own := P.settle own next
    match next, success with
    | some stage, true => some (stage, own, ta)
    | _, _ => assignLoop threadId fuel (fun i => entropy (i + 1)) cursor own ta

/-- `nextStage(threadId)`, if it returns within `fuel` iterations of its loop. -/
def nextStage (fuel : Nat) (entropy : Nat → P.Entropy) (threadId : Fin T) (own : P.State)
    (ta : ThreadAssignments n T) : Option (Fin n × P.State × ThreadAssignments n T) :=
  let (original, ta) := ta.removeCurrentAssignment threadId
  P.assignLoop threadId fuel entropy (P.start own original) own ta

/-! ## The call one access at a time -/

/-- Where a thread is inside `nextStage`. -/
inductive Pc where
  /-- About to read its own slot in `removeCurrentAssignment`. -/
  | enter
  | decrement (current : Fin n)
  | clear (current : Fin n)
  | start (original : StageEnum n)
  | choose (cursor : P.Cursor)
  /-- In `tryAssign(threadId, next)`, about to load the counter of `next`. -/
  | load (next : StageEnum n) (cursor : P.Cursor)
  | exchange (next : Fin n) (currentVisitors : SizeT) (cursor : P.Cursor)
  | record (next : Fin n)
  /-- `tryAssign` has returned `false`. -/
  | refused (next : StageEnum n) (cursor : P.Cursor)
  /-- `tryAssign` has returned `true`. -/
  | assigned (next : Fin n)

/-- The data shared by the threads' `nextStage` calls. -/
structure Shared where
  ta : ThreadAssignments n T
  own : P.State
  /-- History: the stage on which the thread's `compare_exchange` succeeded, until the matching
      decrement. -/
  holding : Fin T → Option (Fin n)

variable {P} in
/-- The data a constructor leaves. -/
def Shared.fresh (concurrency : Fin n → SizeT) (own : P.State) : P.Shared where
  ta := ThreadAssignments.init concurrency
  own := own
  holding _ := none

variable {P} in
/-- The next access of a thread inside `nextStage`; `.inr` when the call returns.
    `tryAssign(NumberOfEntries)`, which `Color` calls on an empty work queue, goes past the arrays;
    it is taken to fail and to change nothing. -/
def Call.step (σ : P.Shared) (threadId : Fin T) (entropy : P.Entropy) :
    P.Pc → P.Shared × (P.Pc ⊕ Fin n)
  | .enter =>
    match σ.ta.threadAssignment threadId with
    | some current => (σ, .inl (.decrement current))
    | none => (σ, .inl (.start StageEnum.NumberOfEntries))
  | .decrement current =>
    ({ σ with
        ta := σ.ta.decrement current
        holding := Function.update σ.holding threadId none }, .inl (.clear current))
  | .clear current =>
    ({ σ with ta := σ.ta.setAssignment threadId StageEnum.NumberOfEntries },
      .inl (.start (some current)))
  | .start original => (σ, .inl (.choose (P.start σ.own original)))
  | .choose cursor =>
    let (next, cursor, own) := P.choose σ.own threadId cursor entropy
    ({ σ with own := own }, .inl (.load next cursor))
  | .load none cursor => (σ, .inl (.refused StageEnum.NumberOfEntries cursor))
  | .load (some next) cursor =>
    let currentVisitors := σ.ta.threadsPerStage next
    if currentVisitors < σ.ta.maximumConcurrency next then
      (σ, .inl (.exchange next currentVisitors cursor))
    else (σ, .inl (.refused (some next) cursor))
  | .exchange next currentVisitors cursor =>
    match σ.ta.compareExchange next currentVisitors with
    | some ta =>
      ({ σ with ta := ta, holding := Function.update σ.holding threadId (some next) },
        .inl (.record next))
    | none => (σ, .inl (.refused (some next) cursor))
  | .record next =>
    ({ σ with ta := σ.ta.setAssignment threadId (some next) }, .inl (.assigned next))
  | .refused next cursor => ({ σ with own := P.settle σ.own next }, .inl (.choose cursor))
  | .assigned next => ({ σ with own := P.settle σ.own (some next) }, .inr next)

variable {P} in
/-- A call returns only from the stage that it has been assigned to. -/
theorem Call.step_eq_inr {σ σ' : P.Shared} {t : Fin T} {e : P.Entropy} {pc : P.Pc} {s : Fin n}
    (h : Call.step σ t e pc = (σ', .inr s)) :
    pc = .assigned s ∧ σ' = { σ with own := P.settle σ.own (some s) } := by
  cases pc with
  | assigned next =>
    cases h
    exact ⟨rfl, rfl⟩
  | enter =>
    simp only [Call.step] at h
    split at h <;> cases h
  | load next c =>
    cases next with
    | none => cases h
    | some next =>
      simp only [Call.step] at h
      split at h <;> cases h
  | exchange next seen c =>
    simp only [Call.step] at h
    split at h <;> cases h
  | _ => cases h

variable {P} in
/-- Only the load of a counter leads to an exchange, and it changes nothing. -/
theorem Call.step_eq_exchange {σ σ' : P.Shared} {t : Fin T} {e : P.Entropy} {pc : P.Pc}
    {s : Fin n} {seen : SizeT} {c : P.Cursor}
    (h : Call.step σ t e pc = (σ', .inl (.exchange s seen c))) :
    σ' = σ ∧ σ.ta.threadsPerStage s = seen := by
  cases pc with
  | load next c =>
    cases next with
    | none => cases h
    | some next =>
      simp only [Call.step] at h
      split at h
      · cases h
        exact ⟨rfl, rfl⟩
      · cases h
  | enter =>
    simp only [Call.step] at h
    split at h <;> cases h
  | exchange next seen c =>
    simp only [Call.step] at h
    split at h <;> cases h
  | _ => cases h

/-! ## What holds of the policy's own data -/

/-- Nothing that the policy does to its own data breaks `valid`. -/
structure Keeps (valid : P.State → Prop) : Prop where
  choose : ∀ own t c e, valid own → valid (P.choose own t c e).2.2
  settle : ∀ own next, valid own → valid (P.settle own next)
  batchEnd : ∀ own b, valid own → valid (P.batchEnd own b)
  dispatched : ∀ own s, valid own → valid (P.dispatched own s)

variable {P} in
theorem Keeps.call {valid : P.State → Prop} (h : P.Keeps valid) {σ : P.Shared}
    (hown : valid σ.own) (t : Fin T) (e : P.Entropy) (pc : P.Pc) :
    valid (Call.step σ t e pc).1.own := by
  cases pc with
  | enter =>
    simp only [Call.step]
    split <;> exact hown
  | choose c => exact h.choose _ t c e hown
  | load next c =>
    cases next with
    | none => exact hown
    | some next =>
      simp only [Call.step]
      split <;> exact hown
  | exchange next seen c =>
    simp only [Call.step]
    split <;> exact hown
  | refused next c => exact h.settle _ next hown
  | assigned next => exact h.settle _ (some next) hown
  | _ => exact hown

end StageChooser

end Wield
