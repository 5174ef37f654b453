import Wield.Schedulers.RandomVisit.Occurs

/-!
# What `RandomVisit` draws

A visit table is only ever shuffled, and between two shuffles it is read once from front to back.
So the draws of a thread are passes, each of which returns the entries that the constructor put into
the table, and the passes bound how long a call can miss a stage with room.
-/

namespace Wield.RandomVisit

open Theory StageChooser

variable {n T size TableSizeFactor : Nat} {maxConcurrency : Fin n → SizeT} {t : Fin T}

/-! ## Shuffling -/

/-- The pairs of indices that `randomShuffle` swaps from index `i` down, in order. -/
def swapIndices (randomDevice : Nat → Nat) : Nat → List (Nat × Nat)
  | 0 => []
  | i + 1 => (i + 1, randomDevice (i + 1) % (i + 2)) :: swapIndices randomDevice i

theorem swapIndices_lt {randomDevice : Nat → Nat} {i : Nat} (hi : i < size) {p : Nat × Nat}
    (hp : p ∈ swapIndices randomDevice i) : p.1 < size ∧ p.2 < size := by
  induction i with
  | zero => cases hp
  | succ i ih =>
    obtain rfl | hp := List.mem_cons.mp hp
    · have hmod : randomDevice (i + 1) % (i + 2) < i + 2 := Nat.mod_lt _ (Nat.succ_pos _)
      exact ⟨hi, Nat.lt_of_lt_of_le hmod hi⟩
    · exact ih (Nat.lt_of_succ_lt hi) hp

theorem shuffleFrom_eq_foldl (randomDevice : Nat → Nat) (i : Nat) (hi : i < size)
    (table : VisitTable n size) : shuffleFrom randomDevice i hi table =
      (swapIndices randomDevice i).foldl (fun table p => table.swapIfInBounds p.1 p.2) table := by
  induction i generalizing table with
  | zero => rfl
  | succ i ih =>
    have hmod : randomDevice (i + 1) % (i + 2) < size :=
      Nat.lt_of_lt_of_le (Nat.mod_lt _ (Nat.succ_pos _)) hi
    have hswap : table.swapIfInBounds (i + 1) (randomDevice (i + 1) % (i + 2)) =
        table.swap (i + 1) (randomDevice (i + 1) % (i + 2)) hi hmod := by
      simp [Vector.swapIfInBounds, Vector.swap, Array.swapIfInBounds, hi, hmod]
    rw [shuffleFrom, ih, swapIndices, List.foldl_cons, hswap]

/-- `randomShuffle` swaps these entries, and all of them are inside the table. -/
structure ShufflesInside (randomDevice : Nat → Nat) (table : VisitTable n size) : Prop where
  swaps : randomShuffle randomDevice table = (swapIndices randomDevice (size - 1)).foldl
    (fun table p => table.swapIfInBounds p.1 p.2) table
  inside : ∀ p ∈ swapIndices randomDevice (size - 1), p.1 < size ∧ p.2 < size

theorem shufflesInside (hsize : 0 < size) (randomDevice : Nat → Nat)
    (table : VisitTable n size) : ShufflesInside randomDevice table where
  swaps := by
    rw [randomShuffle, dif_pos hsize]
    exact shuffleFrom_eq_foldl randomDevice _ _ table
  inside _ hp := swapIndices_lt (Nat.sub_lt hsize Nat.one_pos) hp

/-! ## Passes -/

/-- What thread `t` has drawn are passes over the entries of `table`, and the front of the table
    that it reads now. -/
def Passes (table : VisitTable n size) (tables : Tables n T size) (t : Fin T)
    (drawn : List (StageEnum n)) : Prop :=
  ∃ passes : List (List (StageEnum n)), (∀ pass ∈ passes, pass.Perm table.toList) ∧
    drawn = passes.flatten ++ (tables.visitTable t).toList.take (tables.visitIndex t)

theorem ReadsAt.take_succ {tables : Tables n T size} {randomDevice : Nat → Nat} {i : Nat}
    (h : ReadsAt tables t randomDevice i) :
    ((randomStage tables t randomDevice).2.visitTable t).toList.take
        ((randomStage tables t randomDevice).2.visitIndex t) =
      ((randomStage tables t randomDevice).2.visitTable t).toList.take i ++
        [(randomStage tables t randomDevice).1] := by
  have hi : i < ((randomStage tables t randomDevice).2.visitTable t).toList.length := by
    rw [Vector.length_toList]
    exact h.inside
  rw [h.index, List.take_succ_eq_append_getElem hi, Vector.getElem_toList, ← h.entry]

theorem Passes.randomStage {table : VisitTable n size} {tables : Tables n T size}
    {drawn : List (StageEnum n)} (h : Passes table tables t drawn)
    (hperm : (tables.visitTable t).Perm table) (hin : tables.visitIndex t ≤ size)
    (hsize : 0 < size) (randomDevice : Nat → Nat) :
    Passes table (randomStage tables t randomDevice).2 t
      (drawn ++ [(randomStage tables t randomDevice).1]) := by
  obtain ⟨passes, hpasses, rfl⟩ := h
  rcases randomStage_cases hsize hin randomDevice with ⟨hread, htable⟩ | ⟨hend, hread⟩
  · refine ⟨passes, hpasses, ?_⟩
    rw [hread.take_succ, htable, List.append_assoc]
  · -- the table has been read to its end, which completes a pass
    refine ⟨passes ++ [(tables.visitTable t).toList], fun pass hpass => ?_, ?_⟩
    · rcases List.mem_append.mp hpass with hpass | hpass
      · exact hpasses pass hpass
      · rw [List.mem_singleton.mp hpass]
        exact Vector.perm_iff_toList_perm.mp hperm
    · rw [hread.take_succ, hend, List.take_of_length_le (Vector.length_toList).le,
        List.flatten_concat, List.take_zero, List.nil_append]

/-- The stage that thread `t` draws in a step of the callers. -/
def drawn (t : Fin T) (σ : Calls (chooser n T TableSizeFactor)) :
    Calls.Action (chooser n T TableSizeFactor) → List (StageEnum n)
  | .access u randomDevice =>
    match σ.caller u with
    | .inside (.choose _) =>
      if u = t then [(randomStage σ.shared.own u randomDevice).1] else []
    | _ => []
  | _ => []

/-- What thread `t` draws in the steps of the callers. -/
def drawnAlong (t : Fin T) : Calls (chooser n T TableSizeFactor) →
    List (Calls.Action (chooser n T TableSizeFactor)) → List (StageEnum n)
  | _, [] => []
  | σ, a :: as =>
    match Calls.step σ a with
    | some σ' => drawn t σ a ++ drawnAlong t σ' as
    | none => []

/-- Only a read of the visit table changes it. -/
theorem call_step_own {σ : (chooser n T TableSizeFactor).Shared} {u : Fin T}
    {randomDevice : Nat → Nat} {pc : (chooser n T TableSizeFactor).Pc}
    (hpc : ∀ c, pc ≠ .choose c) : (Call.step σ u randomDevice pc).1.own = σ.own := by
  cases pc with
  | enter =>
    simp only [Call.step]
    split <;> rfl
  | choose c => exact absurd rfl (hpc c)
  | load next c =>
    cases next with
    | none => rfl
    | some next =>
      simp only [Call.step]
      split <;> rfl
  | exchange next seen c =>
    simp only [Call.step]
    split <;> rfl
  | _ => rfl

/-- What a step by which the policy's own data become `own` means to thread `t`: its table is left
    alone, or this is a draw of `t`. -/
def Leaves (t : Fin T) (σ : Calls (chooser n T TableSizeFactor))
    (a : Calls.Action (chooser n T TableSizeFactor)) (own : Tables n T (n * TableSizeFactor)) :
    Prop :=
  (drawn t σ a = [] ∧ own.visitTable t = σ.shared.own.visitTable t ∧
    own.visitIndex t = σ.shared.own.visitIndex t) ∨
  ∃ randomDevice, drawn t σ a = [(randomStage σ.shared.own t randomDevice).1] ∧
    own = (randomStage σ.shared.own t randomDevice).2

theorem leaves_access {σ : Calls (chooser n T TableSizeFactor)} {u : Fin T}
    {pc : (chooser n T TableSizeFactor).Pc} (hpc : σ.caller u = .inside pc)
    (randomDevice : Nat → Nat) (t : Fin T) :
    Leaves t σ (.access u randomDevice) (Call.step σ.shared u randomDevice pc).1.own := by
  by_cases hchoose : ∃ c, pc = .choose c
  · obtain ⟨c, rfl⟩ := hchoose
    by_cases hu : u = t
    · subst u
      refine .inr ⟨randomDevice, ?_, rfl⟩
      simp only [drawn, hpc, if_true]
    · refine .inl ⟨?_, randomStage_of_ne _ (Ne.symm hu) randomDevice⟩
      simp only [drawn, hpc, if_neg hu]
  · rw [call_step_own fun c hc => hchoose ⟨c, hc⟩]
    refine .inl ⟨?_, rfl, rfl⟩
    cases pc with
    | choose c => exact absurd ⟨c, rfl⟩ hchoose
    | _ => simp only [drawn, hpc]

theorem leaves_of_step {σ σ' : Calls (chooser n T TableSizeFactor)}
    {a : Calls.Action (chooser n T TableSizeFactor)} (hs : Calls.step σ a = some σ')
    (t : Fin T) : Leaves t σ a σ'.shared.own := by
  cases Calls.step_inv hs with
  | goOn u randomDevice pc shared pc' hpc hr =>
    have haccess := leaves_access hpc randomDevice t
    rwa [hr] at haccess
  | returns u randomDevice pc shared stage hpc hr =>
    have haccess := leaves_access hpc randomDevice t
    rwa [hr] at haccess
  | _ => exact .inl ⟨rfl, rfl, rfl⟩

/-- What holds of the table of thread `t` after it has drawn `drawn`. -/
structure Stable (maxConcurrency : Fin n → SizeT) (initial tables : Tables n T size) (t : Fin T)
    (drawn : List (StageEnum n)) : Prop where
  perm : (tables.visitTable t).Perm (initial.visitTable t)
  allOpen : AllOpen maxConcurrency (tables.visitTable t)
  inside : tables.visitIndex t ≤ size
  reads : ∀ randomDevice, ∃ i, ReadsAt tables t randomDevice i
  shuffles : ∀ randomDevice, ShufflesInside randomDevice (tables.visitTable t)
  passes : Passes (initial.visitTable t) tables t drawn

theorem Stable.of_valid {initial tables : Tables n T size} {drawn : List (StageEnum n)}
    (hsize : 0 < size) (hvalid : tables.Valid maxConcurrency)
    (hperm : (tables.visitTable t).Perm (initial.visitTable t))
    (hpasses : Passes (initial.visitTable t) tables t drawn) :
    Stable maxConcurrency initial tables t drawn where
  perm := hperm
  allOpen := hvalid.allOpen t
  inside := hvalid.inside t
  reads randomDevice := by
    rcases randomStage_cases hsize (hvalid.inside t) randomDevice with ⟨hread, _⟩ | ⟨_, hread⟩
    · exact ⟨_, hread⟩
    · exact ⟨0, hread⟩
  shuffles randomDevice := shufflesInside hsize randomDevice _
  passes := hpasses

/-- A thread that has drawn nothing yet is at the front of its table. -/
theorem passes_nil {tables : Tables n T size} (h : tables.visitIndex t = 0) :
    Passes (tables.visitTable t) tables t [] :=
  ⟨[], List.forall_mem_nil _, by rw [h, List.take_zero]; rfl⟩

theorem Passes.step {initial : Tables n T (n * TableSizeFactor)}
    {σ σ' : Calls (chooser n T TableSizeFactor)} {a : Calls.Action (chooser n T TableSizeFactor)}
    {before : List (StageEnum n)} (hsize : 0 < n * TableSizeFactor)
    (hvalid : σ.shared.own.Valid maxConcurrency) (hperm : Shuffled initial σ.shared.own)
    (h : Passes (initial.visitTable t) σ.shared.own t before) (hs : Calls.step σ a = some σ') :
    Passes (initial.visitTable t) σ'.shared.own t (before ++ drawn t σ a) := by
  rcases leaves_of_step hs t with ⟨hnone, htable, hindex⟩ | ⟨randomDevice, hdrawn, hown⟩
  · rw [hnone, List.append_nil]
    unfold Passes
    rw [htable, hindex]
    exact h
  · rw [hdrawn, hown]
    exact h.randomStage (hperm t) (hvalid.inside t) hsize randomDevice

theorem Passes.run {initial : Tables n T (n * TableSizeFactor)}
    {σ σ' : Calls (chooser n T TableSizeFactor)}
    {as : List (Calls.Action (chooser n T TableSizeFactor))} {before : List (StageEnum n)}
    (hsize : 0 < n * TableSizeFactor) (hvalid : σ.shared.own.Valid maxConcurrency)
    (hperm : Shuffled initial σ.shared.own)
    (h : Passes (initial.visitTable t) σ.shared.own t before)
    (hrun : (calls (chooser n T TableSizeFactor) maxConcurrency).run σ as = some σ') :
    Stable maxConcurrency initial σ'.shared.own t (before ++ drawnAlong t σ as) := by
  induction as generalizing σ before with
  | nil =>
    cases hrun
    rw [drawnAlong, List.append_nil]
    exact .of_valid hsize hvalid (hperm t) h
  | cons a as ih =>
    simp only [Lts.run, Option.bind_eq_some_iff] at hrun
    obtain ⟨τ, hs, hrun⟩ := hrun
    have hs' : Calls.step σ a = some τ := hs
    have hrest := ih (Calls.keeps (keeps_valid hsize) hvalid hs)
      (Calls.keeps (keeps_shuffled initial) hperm hs) (h.step hsize hvalid hperm hs') hrun
    rw [List.append_assoc] at hrest
    simp only [drawnAlong, hs']
    exact hrest

/-! ## How long a call searches -/

/-- The loop ends as long as it may draw the bound, whatever the random values. -/
theorem assignLoop_isSome {tables : Tables n T (n * TableSizeFactor)} {s : Fin n}
    {ta : ThreadAssignments n T} {fuel : Nat} {entropy : Nat → Nat → Nat} (hn : 0 < n)
    (hfactor : 0 < TableSizeFactor) (hvalid : tables.Valid maxConcurrency)
    (hs : some s ∈ tables.visitTable t) (hroom : ta.HasRoom s)
    (hfuel : remaining (tables.visitTable t) (tables.visitIndex t) s ≤ fuel) :
    ((chooser n T TableSizeFactor).assignLoop t fuel entropy () tables ta).isSome := by
  induction fuel generalizing tables entropy with
  | zero => exact absurd hfuel (Nat.not_le.mpr (remaining_pos hs (hvalid.inside t)))
  | succ fuel ih =>
    by_cases haccept : At ta.HasRoom (randomStage tables t (entropy 0)).1
    · cases hread : (randomStage tables t (entropy 0)).1 with
      | none =>
        rw [hread] at haccept
        exact haccept.elim
      | some r =>
        rw [hread] at haccept
        rw [assignLoop_accept (by dsimp only; rw [hread]) haccept]
        rfl
    · have hsize := Nat.mul_pos hn hfactor
      have hs' := (Shuffled.randomStage (fun _ => .rfl) t (entropy 0) t).mem_iff.mpr hs
      have hless := (remaining_randomStage hs (hvalid.inside t) (entropy 0)).resolve_left
        fun hread => by
          rw [hread] at haccept
          exact haccept hroom
      rw [assignLoop_refuse rfl haccept]
      exact ih (randomStage_valid hvalid hsize t (entropy 0)).1 hs'
        (Nat.le_of_lt_succ (Nat.lt_of_lt_of_le hless hfuel))

/-- The visit table of a thread keeps the entries it was built with, all of which can be entered; it
    is read and shuffled inside its bounds, each pass returns every entry as often as it occurs, and
    two passes less one draw are enough to come to a stage with room in it. -/
theorem draws_stable (hn : 0 < n) (hfactor : 0 < TableSizeFactor)
    {σ σ' : Calls (chooser n T TableSizeFactor)} (hσ : Calls.Initial maxConcurrency σ)
    {as : List (Calls.Action (chooser n T TableSizeFactor))}
    (hrun : (calls (chooser n T TableSizeFactor) maxConcurrency).run σ as = some σ') (t : Fin T) :
    Stable maxConcurrency σ.shared.own σ'.shared.own t (drawnAlong t σ as) ∧
      ∀ last s, σ'.caller t = .outside last → some s ∈ σ'.shared.own.visitTable t →
        σ'.shared.ta.HasRoom s ∨ (σ'.shared.ta.removeCurrentAssignment t).2.HasRoom s →
          ∀ entropy, ((chooser n T TableSizeFactor).nextStage (2 * (n * TableSizeFactor) - 1)
            entropy t σ'.shared.own σ'.shared.ta).isSome := by
  have hsize := Nat.mul_pos hn hfactor
  obtain ⟨draws, hdraws⟩ := hσ.own
  have hvalid := initVisitTable_valid hdraws
  have hfront : σ.shared.own.visitIndex t = 0 := by
    obtain ⟨visitTable, _, htables⟩ := Option.map_eq_some_iff.mp hdraws
    rw [← htables]
  refine ⟨Passes.run hsize hvalid (fun _ => .rfl) (passes_nil hfront) hrun,
    fun last s hout hs hroom entropy => ?_⟩
  have hreachable := (Lts.Reachable.init hσ).run hrun
  have hroom' := hroom.elim
    (((calls_invariant maxConcurrency).holds hreachable).hasRoom_removed hout) id
  have hvalid' : σ'.shared.own.Valid maxConcurrency :=
    Lts.run_preserves (I := fun σ => σ.shared.own.Valid maxConcurrency)
      (fun σ a σ' hown hs => Calls.keeps (keeps_valid hsize) hown hs) hvalid hrun
  exact assignLoop_isSome hn hfactor hvalid' hs hroom' (remaining_le hs)

/-- Three calls make a pass, a shuffle and the first read of the next pass; a fourth one ends as
    long as it may make three reads. -/
theorem draws_stable_two : ∃ σ σ' : Calls (chooser 2 1 1), ∃ as,
    Calls.Initial (fun _ => 1) σ ∧ (calls (chooser 2 1 1) fun _ => 1).run σ as = some σ' ∧
      drawnAlong 0 σ as = [some 1, some 0, some 0] ∧
        Stable (fun _ => 1) σ.shared.own σ'.shared.own 0 [some 1, some 0, some 0] ∧
          ∀ entropy,
            ((chooser 2 1 1).nextStage 3 entropy 0 σ'.shared.own σ'.shared.ta).isSome := by
  obtain ⟨σ', hrun, htable, hout, hroom⟩ := threeCalls_run
  let σ : Calls (chooser 2 1 1) := beforeCalls (oneTable #v[some 1, some 0])
  have hinitial : Calls.Initial (fun _ => 1) σ :=
    ⟨rfl, fun _ => rfl, ⟨[1, 0], oneTable_constructed.finishes⟩, fun _ => rfl⟩
  have hdrawn : drawnAlong 0 σ (callOf 0 7 ++ callOf 0 9 ++ callOf 0 9) =
      [some 1, some 0, some 0] := by decide
  obtain ⟨hstable, hends⟩ := draws_stable (by decide) (by decide) hinitial hrun 0
  rw [hdrawn] at hstable
  have hmem : some 1 ∈ σ'.shared.own.visitTable 0 := by
    rw [htable]
    simp
  exact ⟨_, σ', _, hinitial, hrun, hdrawn, hstable, hends _ 1 hout hmem (.inr hroom)⟩

end Wield.RandomVisit
