import Mathlib.Logic.Function.Basic

/-!
# Calls that return whatever is read

A program reads an input in each step, and a call is over when `back` holds again.  `runCall` and
`runCalls` follow one sequence of inputs; `Returns` says that the call returns for every sequence,
and is proved one step at a time.
-/

namespace Theory

variable {S I : Type*} (step : S → I → Option S) (back : S → Bool)

/-- One call, within `fuel` steps; the result carries the inputs that have not been read. -/
def runCall : Nat → (Nat → I) → S → Option ((Nat → I) × S)
  | 0, _, _ => none
  | fuel + 1, inputs, s =>
    (step s (inputs 0)).bind fun s' =>
      if back s' then some (fun i => inputs (i + 1), s')
      else runCall fuel (fun i => inputs (i + 1)) s'

/-- A number of calls one after the other, each within `fuel` steps. -/
def runCalls (fuel : Nat) : Nat → (Nat → I) → S → Option S
  | 0, _, s => some s
  | calls + 1, inputs, s =>
    (runCall step back fuel inputs s).bind fun (inputs, s') => runCalls fuel calls inputs s'

/-- Whatever the program reads, the call returns and then `Q` holds. -/
inductive Returns (Q : S → Prop) : S → Prop where
  | intro {s : S} (f : I → S) : (∀ i, step s i = some (f i)) →
      (∀ i, back (f i) = true → Q (f i)) → (∀ i, back (f i) = false → Returns Q (f i)) →
      Returns Q s

variable {step back} {Q : S → Prop} {s : S}

theorem Returns.last (f : I → S) (hstep : ∀ i, step s i = some (f i))
    (hback : ∀ i, back (f i) = true) (hQ : ∀ i, Q (f i)) : Returns step back Q s :=
  .intro f hstep (fun i _ => hQ i) fun i hnot => by rw [hback i] at hnot; cases hnot

theorem Returns.next (f : I → S) (hstep : ∀ i, step s i = some (f i))
    (hback : ∀ i, back (f i) = false) (hreturns : ∀ i, Returns step back Q (f i)) :
    Returns step back Q s :=
  .intro f hstep (fun i hb => by rw [hback i] at hb; cases hb) fun i _ => hreturns i

theorem runCall_of_le {fuel fuel' : Nat} (hle : fuel ≤ fuel') {inputs : Nat → I}
    {result : (Nat → I) × S} (h : runCall step back fuel inputs s = some result) :
    runCall step back fuel' inputs s = some result := by
  induction fuel generalizing fuel' inputs s with
  | zero => cases h
  | succ fuel ih =>
    obtain ⟨fuel', rfl⟩ : ∃ k, fuel' = k + 1 := ⟨fuel' - 1, by omega⟩
    rw [runCall, Option.bind_eq_some_iff] at h ⊢
    obtain ⟨s', hs', h⟩ := h
    refine ⟨s', hs', ?_⟩
    split at h
    · rename_i hback
      rwa [if_pos hback]
    · rename_i hback
      rw [if_neg hback]
      exact ih (by omega) h

theorem runCalls_of_le {fuel fuel' : Nat} (hle : fuel ≤ fuel') {calls : Nat} {inputs : Nat → I}
    {s' : S} (h : runCalls step back fuel calls inputs s = some s') :
    runCalls step back fuel' calls inputs s = some s' := by
  induction calls generalizing inputs s with
  | zero => exact h
  | succ calls ih =>
    rw [runCalls, Option.bind_eq_some_iff] at h ⊢
    obtain ⟨result, hcall, h⟩ := h
    exact ⟨result, runCall_of_le hle hcall, ih h⟩

theorem Returns.exists_runCall (h : Returns step back Q s) (inputs : Nat → I) :
    ∃ fuel rest s', runCall step back fuel inputs s = some (rest, s') ∧ Q s' := by
  induction h generalizing inputs with
  | @intro s f hstep hQ _ ih =>
    cases hback : back (f (inputs 0)) with
    | true =>
      refine ⟨1, fun i => inputs (i + 1), f (inputs 0), ?_, hQ _ hback⟩
      rw [runCall, hstep, Option.bind_some, if_pos hback]
    | false =>
      obtain ⟨fuel, rest, s', hrun, hs'⟩ := ih (inputs 0) hback fun i => inputs (i + 1)
      refine ⟨fuel + 1, rest, s', ?_, hs'⟩
      rw [runCall, hstep, Option.bind_some, if_neg (by rw [hback]; exact Bool.false_ne_true)]
      exact hrun

/-- Calls that each lead from one of the predicates `R` to the next. -/
theorem exists_runCalls {R : Nat → S → Prop} {calls k : Nat}
    (h : ∀ j s, k ≤ j → j < k + calls → R j s → Returns step back (R (j + 1)) s) (hs : R k s)
    (inputs : Nat → I) :
    ∃ fuel s', runCalls step back fuel calls inputs s = some s' ∧ R (k + calls) s' := by
  induction calls generalizing k s inputs with
  | zero => exact ⟨0, s, rfl, hs⟩
  | succ calls ih =>
    obtain ⟨fuel₁, rest, s₁, hcall, hs₁⟩ :=
      (h k s (Nat.le_refl k) (by omega) hs).exists_runCall inputs
    obtain ⟨fuel₂, s', hcalls, hs'⟩ :=
      ih (k := k + 1) (fun j s hle hlt => h j s (by omega) (by omega)) hs₁ rest
    -- enough fuel for the first call and for the others
    refine ⟨max fuel₁ fuel₂, s', ?_, ?_⟩
    · rw [runCalls, runCall_of_le (Nat.le_max_left _ _) hcall, Option.bind_some]
      exact runCalls_of_le (Nat.le_max_right _ _) hcalls
    · rwa [show k + (calls + 1) = k + 1 + calls by omega]

end Theory
