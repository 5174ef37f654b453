import Wield.Utils.MessageCount

/-!
# What the estimates say about the calls made

The counters wrap.  An estimate is the sum of the counts added since the stage was last looked at,
unless the counter has wrapped since then: the comparison in `estimatedDepth` takes a counter that
has wrapped for one that has not moved.
-/

namespace Wield.MessageCount

variable {w n : Nat}

/-- A call on a `MessageCount`. -/
inductive Op (w n : Nat) where
  | increment (stage : Fin n) (count : BitVec w)
  | updatePrevious (stage : Fin n)
  | reset

/-- The counters after a history of calls, the latest call first. -/
def after : List (Op w n) → MessageCount w n
  | [] => reset
  | .increment stage count :: ops => (after ops).increment stage count
  | .updatePrevious stage :: ops => (after ops).updatePrevious stage
  | .reset :: _ => reset

/-- The sum of the counts added to `s` since its last `updatePrevious` or `reset`. -/
def sinceSeen (s : Fin n) : List (Op w n) → Nat
  | [] => 0
  | .increment stage count :: ops =>
    if stage = s then sinceSeen s ops + count.toNat else sinceSeen s ops
  | .updatePrevious stage :: ops => if stage = s then 0 else sinceSeen s ops
  | .reset :: _ => 0

/-- The sum of the counts added to `s` between the last `reset` and its last `updatePrevious`. -/
def untilSeen (s : Fin n) : List (Op w n) → Nat
  | [] => 0
  | .increment _ _ :: ops => untilSeen s ops
  | .updatePrevious stage :: ops =>
    if stage = s then untilSeen s ops + sinceSeen s ops else untilSeen s ops
  | .reset :: _ => 0

/-- The estimates are the sums, and `highwaterStage` is the first stage with the largest sum. -/
structure Exact (ops : List (Op w n)) : Prop where
  depth : ∀ s, ((after ops).estimatedDepth s).toNat = sinceSeen s ops
  highwater : ∀ s, (after ops).highwaterStage = some s ↔
    ∀ r, sinceSeen r ops ≤ sinceSeen s ops ∧ (r < s → sinceSeen r ops < sinceSeen s ops)

/-- The counter of `s` has not wrapped since its last `updatePrevious` or `reset`. -/
def NotWrapped (s : Fin n) (ops : List (Op w n)) : Prop :=
  untilSeen s ops % 2 ^ w + sinceSeen s ops < 2 ^ w

/-- The counters are the two sums modulo `2 ^ w`. -/
theorem counters_after (ops : List (Op w n)) (s : Fin n) :
    (after ops).previous s = BitVec.ofNat w (untilSeen s ops) ∧
      (after ops).current s = BitVec.ofNat w (untilSeen s ops + sinceSeen s ops) := by
  induction ops with
  | nil => exact ⟨rfl, rfl⟩
  | cons op ops ih =>
    obtain ⟨hprevious, hcurrent⟩ := ih
    cases op with
    | increment stage count =>
      simp only [after, increment, untilSeen, sinceSeen]
      refine ⟨hprevious, ?_⟩
      by_cases hs : stage = s
      · subst stage
        rw [Function.update_self, hcurrent, if_pos rfl]
        apply BitVec.eq_of_toNat_eq
        rw [BitVec.toNat_add, BitVec.toNat_ofNat, BitVec.toNat_ofNat, Nat.mod_add_mod,
          Nat.add_assoc]
      · rw [Function.update_of_ne (Ne.symm hs), hcurrent, if_neg hs]
    | updatePrevious stage =>
      simp only [after, updatePrevious, untilSeen, sinceSeen]
      by_cases hs : stage = s
      · subst stage
        rw [Function.update_self, hcurrent, if_pos rfl, if_pos rfl]
        exact ⟨rfl, rfl⟩
      · rw [Function.update_of_ne (Ne.symm hs), if_neg hs, if_neg hs]
        exact ⟨hprevious, hcurrent⟩
    | reset => exact ⟨rfl, rfl⟩

/-- A counter that has wrapped is taken for one that has not moved. -/
theorem toNat_estimatedDepth_after {ops : List (Op w n)} {s : Fin n}
    (h : sinceSeen s ops < 2 ^ w) :
    ((after ops).estimatedDepth s).toNat =
      if untilSeen s ops % 2 ^ w + sinceSeen s ops < 2 ^ w then sinceSeen s ops else 0 := by
  obtain ⟨hprevious, hcurrent⟩ := counters_after ops s
  have hmod := Nat.mod_lt (untilSeen s ops) (Nat.two_pow_pos w)
  have hp : ((after ops).previous s).toNat = untilSeen s ops % 2 ^ w := by
    rw [hprevious, BitVec.toNat_ofNat]
  have hc : ((after ops).current s).toNat =
      (untilSeen s ops % 2 ^ w + sinceSeen s ops) % 2 ^ w := by
    rw [hcurrent, BitVec.toNat_ofNat, Nat.mod_add_mod]
  unfold estimatedDepth
  by_cases hwrap : untilSeen s ops % 2 ^ w + sinceSeen s ops < 2 ^ w
  · rw [Nat.mod_eq_of_lt hwrap] at hc
    rw [if_pos hwrap]
    split
    · rename_i hlt
      rw [BitVec.toNat_sub_of_le (BitVec.le_of_lt hlt), hc, hp]
      omega
    · rename_i hnot
      rw [BitVec.lt_def, hc, hp] at hnot
      rw [BitVec.ofNat_eq_ofNat, BitVec.toNat_ofNat, Nat.zero_mod]
      omega
  · -- the counter is below the value that it had when the stage was last looked at
    have hlow : (untilSeen s ops % 2 ^ w + sinceSeen s ops) % 2 ^ w =
        untilSeen s ops % 2 ^ w + sinceSeen s ops - 2 ^ w := by
      rw [Nat.mod_eq_sub_mod (Nat.le_of_not_lt hwrap), Nat.mod_eq_of_lt (by omega)]
    have hnot : ¬ (after ops).previous s < (after ops).current s := by
      rw [BitVec.lt_def, hc, hp, hlow]
      omega
    rw [if_neg hnot, if_neg hwrap, BitVec.ofNat_eq_ofNat, BitVec.toNat_ofNat, Nat.zero_mod]

theorem toNat_estimatedDepth_eq_iff {ops : List (Op w n)} {s : Fin n}
    (h : sinceSeen s ops < 2 ^ w) :
    ((after ops).estimatedDepth s).toNat = sinceSeen s ops ↔ NotWrapped s ops := by
  have hmod := Nat.mod_lt (untilSeen s ops) (Nat.two_pow_pos w)
  rw [toNat_estimatedDepth_after h, NotWrapped]
  split
  · rename_i hlt
    exact iff_of_true rfl hlt
  · rename_i hwrap
    refine iff_of_false ?_ hwrap
    omega

/-- The stage that `highwaterStage` returns is the only one that no other comes before. -/
theorem highwaterStage_eq_some_iff (stats : MessageCount w n) (s : Fin n) :
    stats.highwaterStage = some s ↔ ∀ r, stats.estimatedDepth r ≤ stats.estimatedDepth s ∧
      (r < s → stats.estimatedDepth r < stats.estimatedDepth s) := by
  obtain ⟨best, hbest, hmax⟩ := stats.highwaterStage_spec (Nat.zero_lt_of_lt s.isLt)
  constructor
  · intro h
    cases hbest.symm.trans h
    exact hmax
  · intro h
    rw [hbest]
    -- of two such stages neither is smaller
    rcases lt_trichotomy best s with hlt | heq | hgt
    · exact absurd (hmax s).1 (BitVec.not_le.mpr ((h best).2 hlt))
    · rw [heq]
    · exact absurd (h best).1 (BitVec.not_le.mpr ((hmax s).2 hgt))

/-- As long as no sum reaches `2 ^ w`, the estimates are the sums and `highwaterStage` is the first
    stage with the largest one, exactly if no counter has wrapped since its stage was last looked
    at. -/
theorem exact_iff_notWrapped (ops : List (Op w n)) (h : ∀ s, sinceSeen s ops < 2 ^ w) :
    Exact ops ↔ ∀ s, NotWrapped s ops := by
  constructor
  · intro hexact s
    exact (toNat_estimatedDepth_eq_iff (h s)).mp (hexact.depth s)
  · intro hnot
    have hdepth : ∀ s, ((after ops).estimatedDepth s).toNat = sinceSeen s ops :=
      fun s => (toNat_estimatedDepth_eq_iff (h s)).mpr (hnot s)
    refine ⟨hdepth, fun s => ?_⟩
    rw [highwaterStage_eq_some_iff]
    simp only [BitVec.le_def, BitVec.lt_def, hdepth]

/-- Two stages; the first has been looked at after five messages, and two have come since. -/
theorem exact_iff_notWrapped_two :
    Exact ([.increment 0 2, .updatePrevious 0, .increment 1 1, .increment 0 5] :
        List (Op 64 2)) ↔
      ∀ s, NotWrapped s ([.increment 0 2, .updatePrevious 0, .increment 1 1, .increment 0 5] :
        List (Op 64 2)) :=
  exact_iff_notWrapped _ (by decide)

/-- The counter is looked at just below `2 ^ 64`, and the two messages after that wrap it: the
    estimate is 0. -/
theorem busy_stage_looks_idle :
    ∃ ops : List (Op 64 1), (∀ s, sinceSeen s ops < 2 ^ 64) ∧ sinceSeen 0 ops = 2 ∧
      (after ops).estimatedDepth 0 = 0 ∧ ¬ Exact ops := by
  let ops : List (Op 64 1) :=
    [.increment 0 2, .updatePrevious 0, .increment 0 (BitVec.allOnes 64)]
  have hidle : (after ops).estimatedDepth 0 = 0 := by decide
  refine ⟨ops, by decide, by decide, hidle, fun hexact => ?_⟩
  have hdepth := hexact.depth 0
  rw [hidle] at hdepth
  exact absurd hdepth (by decide)

end Wield.MessageCount
