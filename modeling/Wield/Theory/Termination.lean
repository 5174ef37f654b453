import Mathlib.Logic.Relation

/-!
# Steps that come to an end

`Terminates r a` says that every sequence of `r`-steps from `a` is finite, whatever is chosen on the
way.
-/

namespace Theory

variable {α : Type*} {r : α → α → Prop} {a b : α}

def Terminates (r : α → α → Prop) (a : α) : Prop :=
  Acc (fun b a => r a b) a

theorem Terminates.intro (h : ∀ b, r a b → Terminates r b) : Terminates r a :=
  Acc.intro a h

theorem Terminates.step (h : Terminates r a) (hab : r a b) : Terminates r b :=
  Acc.inv h hab

theorem terminates_iff : Terminates r a ↔ ∀ b, r a b → Terminates r b :=
  ⟨fun h _ => h.step, .intro⟩

/-- Steps that keep `I` lower `μ`, unless they lead to a place from which the steps end anyhow. -/
theorem terminates_of_measure {I : α → Prop} (μ : α → Nat)
    (h : ∀ a b, I a → r a b → Terminates r b ∨ I b ∧ μ b < μ a) (ha : I a) : Terminates r a := by
  -- the induction is on the value of `μ`
  induction hμ : μ a using Nat.strongRecOn generalizing a with
  | ind m ih =>
    refine .intro fun b hab => ?_
    rcases h a b ha hab with hb | ⟨hb, hlt⟩
    · exact hb
    · exact ih (μ b) (hμ ▸ hlt) hb rfl

/-- Where there is always a step that keeps `K`, the steps need not end. -/
theorem not_terminates_of_forever {K : α → Prop} (h : ∀ a, K a → ∃ b, r a b ∧ K b) (ha : K a) :
    ¬ Terminates r a := by
  intro ht
  induction ht with
  | intro a _ ih =>
    obtain ⟨b, hab, hb⟩ := h a ha
    exact ih b hab hb

/-- Steps that are each matched by steps of a process that terminates come to an end. -/
theorem Terminates.of_simulation {β : Type*} {r' : β → β → Prop} {R : α → β → Prop}
    (h : ∀ a x y, R a x → r' x y → ∃ b, Relation.TransGen r a b ∧ R b y) {x : β}
    (ha : Terminates r a) (hR : R a x) : Terminates r' x := by
  -- one step of `r'` may be several of `r`, so the induction is along `TransGen r`
  have htrans := Acc.transGen ha
  clear ha
  induction htrans generalizing x with
  | intro a _ ih =>
    refine .intro fun y hxy => ?_
    obtain ⟨b, hab, hb⟩ := h a x y hR hxy
    exact ih b (Relation.transGen_swap.mpr hab) hb

end Theory
