import Mathlib.Data.Fintype.EquivFin
import Mathlib.Order.Lattice.Nat
import Mathlib.Order.Minimal
import Wield.Theory.Search

/-!
# Walks that come to every number

A walk over the numbers below `n` that comes to each of them within `n` steps puts them in an order
for every place it can start from: `rank c s` is how many numbers the walk from `c` passes before it
is at `s`.  A search along the walk stops at the acceptable number of least rank.  `upFrom` and
`downFrom` are the ranks of the two cyclic walks.
-/

namespace Theory

variable {n : Nat} {next : Option (Fin n) → Option (Fin n)} {rank : Option (Fin n) → Fin n → Nat}
  {ok : Fin n → Prop} {c : Option (Fin n)} {s r : Fin n} {j k : Nat}

/-- The walk from `c` is at `s` after `rank c s + 1` steps, of which there are at most `n`. -/
structure Ranks (next : Option (Fin n) → Option (Fin n)) (rank : Option (Fin n) → Fin n → Nat) :
    Prop where
  lt : ∀ c s, rank c s < n
  iterate : ∀ c s, next^[rank c s + 1] c = some s

namespace Ranks

theorem injective (h : Ranks next rank) (c : Option (Fin n)) : Function.Injective (rank c) := by
  intro s r heq
  have hs := h.iterate c s
  rw [heq, h.iterate c r] at hs
  exact (Option.some.inj hs).symm

/-- Each of the first `n` steps leads to a number. -/
theorem exists_rank_eq (h : Ranks next rank) (c : Option (Fin n)) (hj : j < n) :
    ∃ s, rank c s = j := by
  -- an injection of the `n` numbers into the `n` ranks
  have hinj : Function.Injective fun s => (⟨rank c s, h.lt c s⟩ : Fin n) := by
    intro s r heq
    exact h.injective c (Fin.mk.inj heq)
  obtain ⟨s, hs⟩ := Finite.injective_iff_surjective.mp hinj ⟨j, hj⟩
  exact ⟨s, Fin.mk.inj hs⟩

theorem eq_of_iterate (h : Ranks next rank) (hj : j < n) (hs : next^[j + 1] c = some s) :
    rank c s = j := by
  obtain ⟨r, hr⟩ := h.exists_rank_eq c hj
  have hiter := h.iterate c r
  rw [hr, hs] at hiter
  rw [Option.some.inj hiter, hr]

theorem firstHit_iff (h : Ranks next rank) :
    FirstHit next (At ok) c k (some s) ↔ k = rank c s ∧ MinimalFor ok (rank c) s := by
  rw [Theory.firstHit_iff, minimalFor_iff_forall_lt]
  constructor
  · rintro ⟨hs, hok, hmiss⟩
    have hk : k = rank c s := by
      rcases Nat.lt_or_ge k (rank c s) with hlt | hge
      · exact (h.eq_of_iterate (hlt.trans (h.lt c s)) hs).symm
      -- the search does not go past `s`, which it would have accepted
      · by_contra hne
        apply hmiss (rank c s) (by omega)
        rw [h.iterate c s]
        exact hok
    refine ⟨hk, hok, fun r hr hokr => ?_⟩
    apply hmiss (rank c r) (by omega)
    rw [h.iterate c r]
    exact hokr
  · rintro ⟨rfl, hok, hmin⟩
    refine ⟨h.iterate c s, hok, fun j hj => ?_⟩
    obtain ⟨r, rfl⟩ := h.exists_rank_eq c (hj.trans (h.lt c s))
    rw [h.iterate c r]
    exact hmin hj

/-- A walk that goes on from a number before `s` is nearer to `s`. -/
theorem lt_of_lt (h : Ranks next rank) (hlt : rank c r < rank c s) :
    rank (some r) s < rank c s := by
  have hiter : next^[rank c s - rank c r - 1 + 1] (some r) = some s := by
    rw [← h.iterate c r, ← Function.iterate_add_apply, ← h.iterate c s]
    congr 1
    omega
  have hs := h.lt c s
  rw [h.eq_of_iterate (by omega) hiter]
  omega

theorem exists_next (h : Ranks next rank) (c : Option (Fin n)) (hn : 0 < n) :
    ∃ r, next c = some r ∧ rank c r = 0 := by
  obtain ⟨r, hr⟩ := h.exists_rank_eq c hn
  have hiter := h.iterate c r
  rw [hr] at hiter
  exact ⟨r, hiter, hr⟩

/-- A step of the walk leads to `s` or nearer to it. -/
theorem rank_next (h : Ranks next rank) (c : Option (Fin n)) (s : Fin n) :
    next c = some s ∨ rank (next c) s < rank c s := by
  obtain ⟨r, hnext, hr⟩ := h.exists_next c (Nat.zero_lt_of_lt s.isLt)
  rw [hnext]
  by_cases hrs : r = s
  · exact .inl (congrArg some hrs)
  · -- `s` lies beyond `r`, which is the first number
    have hlt : rank c r < rank c s := by
      rw [hr, Nat.pos_iff_ne_zero]
      intro hzero
      exact hrs (h.injective c (hr.trans hzero.symm))
    exact .inr (h.lt_of_lt hlt)

end Ranks

/-! ## The distance to what is searched -/

/-- How many numbers the walk from `c` passes before it is at an acceptable one. -/
noncomputable def distance (rank : Option (Fin n) → Fin n → Nat) (ok : Fin n → Prop)
    (c : Option (Fin n)) : Nat :=
  sInf (rank c '' {s | ok s})

namespace Ranks

theorem exists_distance (rank : Option (Fin n) → Fin n → Nat) (hok : ∃ s, ok s)
    (c : Option (Fin n)) : ∃ s, ok s ∧ rank c s = distance rank ok c := by
  obtain ⟨s, hs⟩ := hok
  obtain ⟨r, hr, heq⟩ := Nat.sInf_mem (Set.Nonempty.image (rank c) ⟨s, hs⟩)
  exact ⟨r, hr, heq⟩

theorem distance_le (h : Ranks next rank) (ok : Fin n → Prop) (c : Option (Fin n)) :
    distance rank ok c ≤ n := by
  by_cases hok : ∃ s, ok s
  · obtain ⟨s, _, heq⟩ := exists_distance rank hok c
    rw [← heq]
    exact (h.lt c s).le
  · have hempty : rank c '' {s | ok s} = ∅ := by
      rw [Set.image_eq_empty, Set.eq_empty_iff_forall_notMem]
      exact fun s hs => hok ⟨s, hs⟩
    rw [distance, hempty, Nat.sInf_empty]
    exact Nat.zero_le n

/-- A step of the walk leads to an acceptable number or nearer to one. -/
theorem distance_next (h : Ranks next rank) (hok : ∃ s, ok s) (c : Option (Fin n)) :
    At ok (next c) ∨ distance rank ok (next c) < distance rank ok c := by
  obtain ⟨s, hs, heq⟩ := exists_distance rank hok c
  rw [← heq]
  rcases h.rank_next c s with hnext | hnearer
  · rw [hnext]
    exact .inl hs
  · exact .inr (Nat.lt_of_le_of_lt (Nat.sInf_le ⟨s, hs, rfl⟩) hnearer)

end Ranks

/-! ## The cyclic walks -/

/-- The place of `s` among the numbers above `c` and then those from `0` on; from nowhere the order
    starts with `0`. -/
def upFrom : Option (Fin n) → Fin n → Nat
  | none, s => s
  | some p, s => if p < s then s - p - 1 else n - 1 - p + s

/-- The place of `s` among the numbers below `c` and then those from the last one down; from nowhere
    the order starts with the last one. -/
def downFrom : Option (Fin n) → Fin n → Nat
  | none, s => n - 1 - s
  | some p, s => if s < p then p - 1 - s else p + (n - 1 - s)

theorem CountsUp.ranks (hnext : CountsUp next) : Ranks next upFrom where
  lt c s := by
    have hs := s.isLt
    cases c with
    | none => exact hs
    | some p =>
      simp only [upFrom, Fin.lt_def]
      split <;> omega
  iterate c s := by
    cases c with
    | none => exact hnext.iterate_none s s.isLt
    | some p =>
      simp only [upFrom, Fin.lt_def]
      split
      · rename_i hlt
        rw [show s.val - p.val - 1 + 1 = s.val - p.val by omega,
          hnext.iterate_some p _ (by omega)]
        exact congrArg some (Fin.ext (by dsimp only; omega))
      · rw [Nat.add_assoc, hnext.iterate_wrap p s]
        exact hnext.iterate_none s s.isLt

theorem CountsDown.ranks (hnext : CountsDown next) : Ranks next downFrom where
  lt c s := by
    have hs := s.isLt
    cases c with
    | none =>
      simp only [downFrom]
      omega
    | some p =>
      simp only [downFrom, Fin.lt_def]
      split <;> omega
  iterate c s := by
    have hnone : next^[n - 1 - s.val + 1] none = some s := by
      rw [hnext.iterate_none _ (by omega)]
      exact congrArg some (Fin.ext (by dsimp only; omega))
    cases c with
    | none => exact hnone
    | some p =>
      simp only [downFrom, Fin.lt_def]
      split
      · rename_i hlt
        rw [hnext.iterate_some p _ (by omega)]
        exact congrArg some (Fin.ext (by dsimp only; omega))
      · rw [Nat.add_assoc, hnext.iterate_wrap p]
        exact hnone

end Theory
