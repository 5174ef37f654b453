import Mathlib.Logic.Function.Basic

/-!
# Registration of stages

The dispatcher's table holds a pointer for each stage name, null until a stage of that name is
constructed.  What a pointer refers to is left to the users of the table.
-/

namespace Wield

/-- What `registerStage` throws. -/
inductive RuntimeError where
  | DuplicateStageRegistrationException
  deriving DecidableEq

/-- `DispatcherBase` for `n` stages. -/
structure DispatcherBase (n : Nat) (StagePtr : Type) where
  stages : Fin n → Option StagePtr

namespace DispatcherBase

variable {n : Nat} {StagePtr : Type}

def registerStage (dispatcher : DispatcherBase n StagePtr) (stageName : Fin n)
    (stage : StagePtr) : Except RuntimeError (DispatcherBase n StagePtr) :=
  match dispatcher.stages stageName with
  | some _ => .error .DuplicateStageRegistrationException
  | none => .ok { stages := Function.update dispatcher.stages stageName (some stage) }

theorem registerStage_eq_ok {dispatcher dispatcher' : DispatcherBase n StagePtr}
    {stageName : Fin n} {stage : StagePtr}
    (h : dispatcher.registerStage stageName stage = .ok dispatcher') :
    dispatcher.stages stageName = none ∧
      dispatcher'.stages = Function.update dispatcher.stages stageName (some stage) := by
  unfold registerStage at h
  split at h
  · cases h
  · rename_i hnone
    cases h
    exact ⟨hnone, rfl⟩

/-- Registration throws for the names that are taken. -/
theorem registerStage_eq_error_iff {dispatcher : DispatcherBase n StagePtr} {stageName : Fin n}
    {stage : StagePtr} {e : RuntimeError} :
    dispatcher.registerStage stageName stage = .error e ↔
      dispatcher.stages stageName ≠ none ∧ e = .DuplicateStageRegistrationException := by
  unfold registerStage
  split
  · rename_i hsome
    simp [hsome, eq_comm]
  · rename_i hnone
    simp [hnone]

end DispatcherBase

end Wield
