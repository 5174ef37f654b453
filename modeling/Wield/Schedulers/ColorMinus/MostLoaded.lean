import Wield.Schedulers.ColorMinus.Progress

/-!
# `ColorMinus` picks the most loaded open stage

`highwaterStage` does not ask for room.  The loop of `nextStage` comes to the best stage with room
by counting the work of each full stage before it as seen.
-/

namespace Wield.ColorMinus

open Theory StageChooser

variable {n T : Nat} {t : Fin T} {opened : Fin n → Prop} {stats stats' : Stats n} {r s b : Fin n}

/-- `r` is tried before `s`: greater depth first, then smaller index. -/
def Precedes (stats : Stats n) (r s : Fin n) : Prop :=
  stats.estimatedDepth s < stats.estimatedDepth r ∨
    stats.estimatedDepth r = stats.estimatedDepth s ∧ r < s

/-- A call that returns `s` counts the work of `r` as seen. -/
def Seen (opened : Fin n → Prop) (stats : Stats n) (s r : Fin n) : Prop :=
  r = s ∨ ¬ opened r ∧ 0 < stats.estimatedDepth r ∧ Precedes stats r s

/-- What a call that returns `s` does to the counters, and that `s` is the best of the open
    stages. -/
structure Picks (opened : Fin n → Prop) (stats : Stats n) (s : Fin n) (stats' : Stats n) :
    Prop where
  isOpen : opened s
  greatest : ∀ r, opened r → stats.estimatedDepth r ≤ stats.estimatedDepth s
  smallest : ∀ r, opened r → stats.estimatedDepth r = stats.estimatedDepth s → s ≤ r
  current : ∀ r, stats'.current r = stats.current r
  zeroed : ∀ r, Seen opened stats s r → stats'.estimatedDepth r = 0
  kept : ∀ r, ¬ Seen opened stats s r → stats'.previous r = stats.previous r

/-- What `highwaterStage_spec` says of the stage that is tried first. -/
def IsHighwater (stats : Stats n) (b : Fin n) : Prop :=
  ∀ r, stats.estimatedDepth r ≤ stats.estimatedDepth b ∧
    (r < b → stats.estimatedDepth r < stats.estimatedDepth b)

theorem IsHighwater.not_precedes (h : IsHighwater stats b) (r : Fin n) : ¬ Precedes stats r b := by
  rintro (hdepth | ⟨hdepth, hlt⟩)
  · exact BitVec.not_le.mpr hdepth (h r).1
  · have hless := (h r).2 hlt
    rw [hdepth] at hless
    exact BitVec.lt_irrefl _ hless

theorem IsHighwater.precedes (h : IsHighwater stats b) (hr : r ≠ b) : Precedes stats b r := by
  by_cases hdepth : stats.estimatedDepth b = stats.estimatedDepth r
  · refine .inr ⟨hdepth, lt_of_le_of_ne (not_lt.mp fun hlt => ?_) (Ne.symm hr)⟩
    have hless := (h r).2 hlt
    rw [hdepth] at hless
    exact BitVec.lt_irrefl _ hless
  · exact .inl (BitVec.lt_of_le_ne (h r).1 (Ne.symm hdepth))

theorem precedes_updatePrevious_iff (hr : r ≠ b) (hs : s ≠ b) :
    Precedes (stats.updatePrevious b) r s ↔ Precedes stats r s := by
  simp only [Precedes, MessageCount.estimatedDepth_updatePrevious_of_ne hr,
    MessageCount.estimatedDepth_updatePrevious_of_ne hs]

theorem seen_updatePrevious_iff (hr : r ≠ b) (hs : s ≠ b) :
    Seen opened (stats.updatePrevious b) s r ↔ Seen opened stats s r := by
  simp only [Seen, precedes_updatePrevious_iff hr hs,
    MessageCount.estimatedDepth_updatePrevious_of_ne hr]

/-- The round in which the most loaded stage is open. -/
theorem IsHighwater.picks (h : IsHighwater stats b) (hopen : opened b) :
    Picks opened stats b (stats.updatePrevious b) where
  isOpen := hopen
  greatest r _ := (h r).1
  smallest r _ hdepth := by
    by_contra hlt
    exact h.not_precedes r (.inr ⟨hdepth, not_le.mp hlt⟩)
  current _ := rfl
  zeroed r hseen := by
    rcases hseen with rfl | ⟨_, _, hprecedes⟩
    · exact MessageCount.estimatedDepth_updatePrevious_self r
    · exact absurd hprecedes (h.not_precedes r)
  kept r hseen := Function.update_of_ne (fun heq => hseen (.inl heq)) _ _

/-- A round in which the most loaded stage is full, followed by the rest of the loop. -/
theorem Picks.of_updatePrevious (h : Picks opened (stats.updatePrevious b) s stats')
    (hb : IsHighwater stats b) (hfull : ¬ opened b) (hpos : 0 < stats.estimatedDepth b) :
    Picks opened stats s stats' := by
  have hne : ∀ r, opened r → r ≠ b := fun r hr heq => hfull (heq ▸ hr)
  have hs : s ≠ b := hne s h.isOpen
  have hdepth : ∀ r, r ≠ b → (stats.updatePrevious b).estimatedDepth r = stats.estimatedDepth r :=
    fun r hr => MessageCount.estimatedDepth_updatePrevious_of_ne hr
  -- `b` is not tried again, its depth being 0 now
  have hkept : ¬ Seen opened (stats.updatePrevious b) s b := by
    rintro (heq | ⟨_, hpos', _⟩)
    · exact hs heq.symm
    · rw [MessageCount.estimatedDepth_updatePrevious_self] at hpos'
      exact BitVec.lt_irrefl _ hpos'
  have hseen : Seen opened stats s b := .inr ⟨hfull, hpos, hb.precedes hs⟩
  refine ⟨h.isOpen, fun r hr => ?_, fun r hr heq => ?_, h.current, fun r hr => ?_, fun r hr => ?_⟩
  · rw [← hdepth r (hne r hr), ← hdepth s hs]
    exact h.greatest r hr
  · rw [← hdepth r (hne r hr), ← hdepth s hs] at heq
    exact h.smallest r hr heq
  · by_cases hrb : r = b
    · subst r
      have hprevious : stats'.previous b = stats.current b :=
        (h.kept b hkept).trans (Function.update_self _ _ _)
      rw [MessageCount.estimatedDepth, hprevious, h.current b]
      exact if_neg (BitVec.lt_irrefl _)
    · exact h.zeroed r ((seen_updatePrevious_iff hrb hs).mpr hr)
  · have hrb : r ≠ b := fun heq => hr (heq ▸ hseen)
    rw [h.kept r fun hr' => hr ((seen_updatePrevious_iff hrb hs).mp hr')]
    exact Function.update_of_ne hrb _ _

theorem picks_of_assignLoop {fuel : Nat} {entropy : Nat → Unit} {ta ta' : ThreadAssignments n T}
    (h : (chooser n T).assignLoop t fuel entropy () stats ta = some (s, stats', ta')) :
    Picks ta.HasRoom stats s stats' := by
  induction fuel generalizing entropy stats with
  | zero => cases h
  | succ fuel ih =>
    have hn : 0 < n := Nat.zero_lt_of_lt s.isLt
    obtain ⟨b, hb, hmax⟩ := stats.highwaterStage_spec hn
    have hchoose : (chooser n T).choose stats t () (entropy 0) = (some b, (), stats) :=
      congrArg (·, (), stats) hb
    by_cases hroom : ta.HasRoom b
    · rw [assignLoop_accept hchoose hroom] at h
      cases h
      exact IsHighwater.picks hmax hroom
    · -- the loop is going to end, so a full stage at the top has some work
      have hfinds : Finds ta.HasRoom stats :=
        (terminates_retry_iff hn () stats).mp
          ((exists_assignLoop_iff (P := chooser n T) entropy ta () stats).mp
            ⟨fuel + 1, by rw [h]; rfl⟩)
      rw [assignLoop_refuse hchoose hroom] at h
      exact (ih h).of_updatePrevious hmax hroom (hfinds.pos hmax hroom)

/-- A call run without interference returns the most loaded of the stages with room, the first of
    those, and zeroes the estimates of that stage and of the full ones tried before it. -/
theorem picks_of_nextStage {fuel : Nat} {entropy : Nat → Unit} {ta ta' : ThreadAssignments n T}
    (h : (chooser n T).nextStage fuel entropy t stats ta = some (s, stats', ta')) :
    Picks (ta.removeCurrentAssignment t).2.HasRoom stats s stats' :=
  picks_of_assignLoop h

/-- Three stages with one place each.  The first has most work but is full. -/
theorem picks_of_nextStage_three :
    ∃ (stats : Stats 3) (ta : ThreadAssignments 3 2),
      ¬ (ta.removeCurrentAssignment 0).2.HasRoom 0 ∧
      Picks (ta.removeCurrentAssignment 0).2.HasRoom stats 1
        ((stats.updatePrevious 0).updatePrevious 1) := by
  let ta : ThreadAssignments 3 2 :=
    { threadAssignment := ![none, some 0], threadsPerStage := ![1, 0, 0],
      maximumConcurrency := ![1, 1, 1] }
  let stats : Stats 3 := { previous := ![0, 0, 0], current := ![3, 2, 2] }
  have hfirst : (chooser 3 2).choose stats 0 () () = (some 0, (), stats) :=
    congrArg (·, (), stats) (by decide : stats.highwaterStage = some 0)
  have hsecond : (chooser 3 2).choose (stats.updatePrevious 0) 0 () () =
      (some 1, (), stats.updatePrevious 0) :=
    congrArg (·, (), stats.updatePrevious 0)
      (by decide : (stats.updatePrevious 0).highwaterStage = some 1)
  have hfull : ¬ At ta.HasRoom (some 0) := by decide
  have hroom : ta.HasRoom 1 := by decide
  have hrefused : (chooser 3 2).assignLoop 0 2 (fun _ => ()) () stats ta =
      (chooser 3 2).assignLoop 0 1 (fun _ => ()) () (stats.updatePrevious 0) ta := by
    rw [assignLoop_refuse hfirst hfull]
    rfl
  have hcall : (chooser 3 2).nextStage 2 (fun _ => ()) 0 stats ta =
      some (1, (stats.updatePrevious 0).updatePrevious 1, (ta.tryAssign 0 (some 1)).2) := by
    refine hrefused.trans ?_
    rw [assignLoop_accept hsecond hroom]
    rfl
  exact ⟨stats, ta, hfull, picks_of_nextStage hcall⟩

end Wield.ColorMinus
