import Mathlib.Logic.Function.Iterate
import Mathlib.Data.Nat.Find
import Mathlib.Data.Set.Finite.Lemmas
import Mathlib.Order.Bounds.Basic

/-!
# Searching along a walk

A loop that moves by `next` until it finds something acceptable stops at the first acceptable
iterate.  `FirstHit` is that loop; `firstHit_iff` says it by iterates, so that closed forms of the
walk give the place where it stops.  The two cyclic walks over the numbers below `n` are treated
here, with `none` for the place before the first step.
-/

namespace Theory

variable {α : Type*} {next : α → α} {accept : α → Prop}

/-- The walk from `a` refuses `k` places and accepts the one after them. -/
inductive FirstHit (next : α → α) (accept : α → Prop) : α → Nat → α → Prop where
  | hit {a : α} : accept (next a) → FirstHit next accept a 0 (next a)
  | miss {a b : α} {k : Nat} : ¬ accept (next a) → FirstHit next accept (next a) k b →
      FirstHit next accept a (k + 1) b

theorem firstHit_iff {a b : α} {k : Nat} : FirstHit next accept a k b ↔
    next^[k + 1] a = b ∧ accept b ∧ ∀ j, j < k → ¬ accept (next^[j + 1] a) := by
  constructor
  · intro h
    -- a refused place shifts the iterates by one
    induction h with
    | hit h => exact ⟨rfl, h, fun _ hj => absurd hj (Nat.not_lt_zero _)⟩
    | @miss a b k hmiss _ ih =>
      refine ⟨ih.1, ih.2.1, fun j hj => ?_⟩
      cases j with
      | zero => exact hmiss
      | succ j => exact ih.2.2 j (Nat.lt_of_succ_lt_succ hj)
  · rintro ⟨rfl, hb, hmiss⟩
    -- the other way the induction is on the number of refusals
    induction k generalizing a with
    | zero => exact .hit hb
    | succ k ih =>
      exact .miss (hmiss 0 (Nat.succ_pos k)) (ih hb fun j hj => hmiss (j + 1) (Nat.succ_lt_succ hj))

theorem FirstHit.unique {a b b' : α} {k k' : Nat} (h : FirstHit next accept a k b)
    (h' : FirstHit next accept a k' b') : b = b' := by
  -- from one place both searches accept or both refuse
  induction h generalizing k' with
  | hit h =>
    cases h' with
    | hit => rfl
    | miss hmiss => exact absurd h hmiss
  | miss hmiss _ ih =>
    cases h' with
    | hit h => exact absurd h hmiss
    | miss _ h' => exact ih h'

/-- A search that has an acceptable place ahead stops. -/
theorem exists_firstHit {a : α} {k : Nat} (h : accept (next^[k + 1] a)) :
    ∃ j b, j ≤ k ∧ FirstHit next accept a j b := by
  classical
  -- the least acceptable iterate is the first hit
  have hex : ∃ j, accept (next^[j + 1] a) := ⟨k, h⟩
  exact ⟨Nat.find hex, _, Nat.find_min' hex h,
    firstHit_iff.mpr ⟨rfl, Nat.find_spec hex, fun j hj => Nat.find_min hex hj⟩⟩

variable {n : Nat} {next : Option (Fin n) → Option (Fin n)} {ok : Fin n → Prop}

/-- A place with a number that is acceptable. -/
def At (ok : Fin n → Prop) : Option (Fin n) → Prop
  | none => False
  | some s => ok s

instance [DecidablePred ok] : DecidablePred (At ok)
  | none => isFalse id
  | some s => inferInstanceAs (Decidable (ok s))

theorem exists_firstHit_of_reaches {c : Option (Fin n)} {s : Fin n} {j : Nat}
    (h : next^[j + 1] c = some s) (hs : ok s) : ∃ k b, FirstHit next (At ok) c k b := by
  have hat : At ok (next^[j + 1] c) := by
    rw [h]
    exact hs
  obtain ⟨k, b, _, hk⟩ := exists_firstHit hat
  exact ⟨k, b, hk⟩

variable (ok) in
theorem exists_isGreatest (hex : ∃ s, ok s) : ∃ m, IsGreatest {s | ok s} m := by
  obtain ⟨m, hm, hmax⟩ := Set.exists_max_image {s | ok s} id (Set.toFinite _) hex
  exact ⟨m, hm, hmax⟩

/-! ## Walking up -/

/-- `next` counts up and goes from the last number, and from nowhere, to the first one. -/
structure CountsUp (next : Option (Fin n) → Option (Fin n)) : Prop where
  up : ∀ s s' : Fin n, s'.val = s.val + 1 → next (some s) = some s'
  wrap : ∀ first : Fin n, first.val = 0 →
    next none = some first ∧ ∀ z : Fin n, z.val + 1 = n → next (some z) = some first

namespace CountsUp

variable (hnext : CountsUp next)
include hnext

theorem iterate_none (j : Nat) (hj : j < n) : next^[j + 1] none = some ⟨j, hj⟩ := by
  induction j with
  | zero => exact (hnext.wrap ⟨0, hj⟩ rfl).1
  | succ j ih =>
    rw [Function.iterate_succ_apply', ih (by omega)]
    exact hnext.up _ _ rfl

theorem iterate_some (p : Fin n) (j : Nat) (hj : p.val + j < n) :
    next^[j] (some p) = some ⟨p.val + j, hj⟩ := by
  induction j with
  | zero => rfl
  | succ j ih =>
    rw [Function.iterate_succ_apply', ih (by omega)]
    exact hnext.up _ _ rfl

/-- Above the last number the walk goes on as from nowhere. -/
theorem iterate_wrap (p : Fin n) (j : Nat) :
    next^[n - 1 - p.val + (j + 1)] (some p) = next^[j + 1] none := by
  have hp := p.isLt
  have hfirst := hnext.wrap ⟨0, by omega⟩ rfl
  -- `n - 1 - p` steps lead to the last number, whose successor is the first one
  rw [Nat.add_comm, Function.iterate_add_apply, hnext.iterate_some p _ (by omega),
    Function.iterate_succ_apply, Function.iterate_succ_apply, hfirst.1,
    hfirst.2 _ (by dsimp only; omega)]

/-- The walk from any place comes to every number. -/
theorem reaches (c : Option (Fin n)) (s : Fin n) : ∃ j, next^[j + 1] c = some s := by
  have hs := hnext.iterate_none s.val s.isLt
  cases c with
  | none => exact ⟨s.val, hs⟩
  | some p => exact ⟨n - 1 - p.val + s.val, (hnext.iterate_wrap p s.val).trans hs⟩

end CountsUp

/-! ## Walking down -/

/-- `next` counts down and goes from the first number, and from nowhere, to the last one. -/
structure CountsDown (next : Option (Fin n) → Option (Fin n)) : Prop where
  down : ∀ s s' : Fin n, s'.val + 1 = s.val → next (some s) = some s'
  wrap : ∀ last : Fin n, last.val + 1 = n →
    next none = some last ∧ ∀ z : Fin n, z.val = 0 → next (some z) = some last

namespace CountsDown

variable (hnext : CountsDown next)
include hnext

theorem iterate_none (j : Nat) (hj : j < n) :
    next^[j + 1] none = some ⟨n - 1 - j, by omega⟩ := by
  induction j with
  | zero => exact (hnext.wrap ⟨n - 1, by omega⟩ (by dsimp only; omega)).1
  | succ j ih =>
    rw [Function.iterate_succ_apply', ih (by omega)]
    exact hnext.down _ _ (by dsimp only; omega)

theorem iterate_some (p : Fin n) (j : Nat) (hj : j < p.val) :
    next^[j + 1] (some p) = some ⟨p.val - 1 - j, by omega⟩ := by
  induction j with
  | zero => exact hnext.down _ _ (by dsimp only; omega)
  | succ j ih =>
    rw [Function.iterate_succ_apply', ih (by omega)]
    exact hnext.down _ _ (by dsimp only; omega)

/-- Below the first number the walk goes on as from nowhere. -/
theorem iterate_wrap (p : Fin n) (j : Nat) :
    next^[p.val + (j + 1)] (some p) = next^[j + 1] none := by
  have hn : 0 < n := Nat.zero_lt_of_lt p.isLt
  have hlast := hnext.wrap ⟨n - 1, by omega⟩ (by dsimp only; omega)
  -- the number `0` and nowhere have the same successor
  have hfirst : next (next^[p.val] (some p)) = next none := by
    rcases Nat.eq_zero_or_pos p.val with hp | hp
    · rw [hp, Function.iterate_zero_apply, hlast.1]
      exact hlast.2 p hp
    · have hz := hnext.iterate_some p (p.val - 1) (by omega)
      rw [show p.val - 1 + 1 = p.val by omega] at hz
      rw [hz, hlast.1]
      exact hlast.2 _ (by dsimp only; omega)
  rw [Nat.add_comm, Function.iterate_add_apply, Function.iterate_succ_apply, hfirst,
    ← Function.iterate_succ_apply]

/-- The walk from any place comes to every number. -/
theorem reaches (c : Option (Fin n)) (s : Fin n) : ∃ j, next^[j + 1] c = some s := by
  have hs : next^[n - 1 - s.val + 1] none = some s := by
    rw [hnext.iterate_none _ (by omega)]
    exact congrArg some (Fin.ext (by dsimp only; omega))
  cases c with
  | none => exact ⟨n - 1 - s.val, hs⟩
  | some p => exact ⟨p.val + (n - 1 - s.val), (hnext.iterate_wrap p _).trans hs⟩

/-- A search from nowhere finds the greatest acceptable number. -/
theorem firstHit_none {s : Fin n} (hs : ok s) (hmax : ∀ s', ok s' → s' ≤ s) :
    FirstHit next (At ok) none (n - 1 - s.val) (some s) := by
  refine firstHit_iff.mpr ⟨?_, hs, fun j hj => ?_⟩
  · rw [hnext.iterate_none _ (by omega)]
    exact congrArg some (Fin.ext (by dsimp only; omega))
  · rw [hnext.iterate_none j (by omega)]
    -- an acceptable place before that would be greater
    intro hok
    have hle : n - 1 - j ≤ s.val := hmax _ hok
    omega

/-- A search from `p` finds the greatest acceptable number below `p`, if there is one. -/
theorem firstHit_below {p s : Fin n} (hs : ok s) (hlt : s < p)
    (hmax : ∀ s', ok s' → s' < p → s' ≤ s) :
    FirstHit next (At ok) (some p) (p.val - 1 - s.val) (some s) := by
  have hsp : s.val < p.val := hlt
  refine firstHit_iff.mpr ⟨?_, hs, fun j hj => ?_⟩
  · rw [hnext.iterate_some p _ (by omega)]
    exact congrArg some (Fin.ext (by dsimp only; omega))
  · rw [hnext.iterate_some p j (by omega)]
    intro hok
    have hle : p.val - 1 - j ≤ s.val := hmax _ hok (by
      rw [Fin.lt_def]
      dsimp only
      omega)
    omega

/-- A search from `p` with nothing acceptable below `p` ends as one from nowhere. -/
theorem firstHit_wrap {p : Fin n} (hnone : ∀ s', s' < p → ¬ ok s') {k : Nat} {b : Option (Fin n)}
    (h : FirstHit next (At ok) none k b) : FirstHit next (At ok) (some p) (p.val + k) b := by
  rw [firstHit_iff] at h ⊢
  refine ⟨by rw [Nat.add_assoc, hnext.iterate_wrap]; exact h.1, h.2.1, fun j hj => ?_⟩
  by_cases hjp : j < p.val
  -- the first `p` places are below `p`, the others are those of the search from nowhere
  · rw [hnext.iterate_some p j hjp]
    exact hnone _ (by rw [Fin.lt_def]; dsimp only; omega)
  · have hj' := h.2.2 (j - p.val) (by omega)
    rw [← hnext.iterate_wrap p] at hj'
    rwa [show p.val + (j - p.val + 1) = j + 1 by omega] at hj'

/-- What a search from nowhere can find. -/
theorem firstHit_none_iff (hex : ∃ s, ok s) (s : Fin n) :
    (∃ k, FirstHit next (At ok) none k (some s)) ↔ IsGreatest {s | ok s} s := by
  obtain ⟨m, hgreatest⟩ := exists_isGreatest ok hex
  have hfound := hnext.firstHit_none hgreatest.1 hgreatest.2
  constructor
  · rintro ⟨k, hk⟩
    rw [← Option.some.inj (hfound.unique hk)]
    exact hgreatest
  · intro hs
    rw [← hgreatest.unique hs]
    exact ⟨_, hfound⟩

/-- From a number that is itself acceptable a search finds the greatest one exactly if there is
    none below. -/
theorem firstHit_some_greatest_iff {p : Fin n} (hp : ok p) :
    (∃ s, (∃ k, FirstHit next (At ok) (some p) k (some s)) ∧ IsGreatest {s | ok s} s) ↔
      ∀ s, s < p → ¬ ok s := by
  constructor
  -- a search that stops below `p` has not found the greatest, which is at least `p`
  · rintro ⟨s, ⟨k, hk⟩, _, hmax⟩ s' hlt hs'
    obtain ⟨m, ⟨hm, hmp⟩, hgreatest⟩ := exists_isGreatest
      (fun s => ok s ∧ s < p) ⟨s', hs', hlt⟩
    have hbelow := hnext.firstHit_below hm hmp fun r hr hrp => hgreatest ⟨hr, hrp⟩
    rw [Option.some.inj (hk.unique hbelow)] at hmax
    exact absurd hmp (not_lt.mpr (hmax hp))
  · intro hnone
    obtain ⟨m, hm⟩ := exists_isGreatest ok ⟨p, hp⟩
    exact ⟨m, ⟨_, hnext.firstHit_wrap hnone (hnext.firstHit_none hm.1 hm.2)⟩, hm⟩

/-- From a number that is itself acceptable a search ends as one from nowhere exactly if nothing
    below that number is acceptable. -/
theorem firstHit_some_eq_none_iff {p : Fin n} (hp : ok p) :
    (∀ s, (∃ k, FirstHit next (At ok) (some p) k (some s)) ↔
      ∃ k, FirstHit next (At ok) none k (some s)) ↔ ∀ s, s < p → ¬ ok s := by
  rw [← hnext.firstHit_some_greatest_iff hp]
  simp only [hnext.firstHit_none_iff ⟨p, hp⟩]
  constructor
  · intro hiff
    obtain ⟨m, hm⟩ := exists_isGreatest ok ⟨p, hp⟩
    exact ⟨m, (hiff m).mpr hm, hm⟩
  · rintro ⟨m, ⟨k, hk⟩, hm⟩ s
    constructor
    · rintro ⟨k', hk'⟩
      rw [← Option.some.inj (hk.unique hk')]
      exact hm
    · intro hs
      rw [← hm.unique hs]
      exact ⟨k, hk⟩

end CountsDown

end Theory
