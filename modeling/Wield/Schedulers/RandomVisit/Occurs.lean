import Wield.Schedulers.Calls
import Wield.Schedulers.RandomVisit.Tables
import Wield.Schedulers.Serialised

/-!
# The stages that `RandomVisit` visits

The constructor fills the visit tables with independent draws, and later a table is only shuffled.
So the tables name exactly the stages that were drawn, and stay that way.
-/

namespace Wield.RandomVisit

open Theory StageChooser

variable {n T size TableSizeFactor : Nat} {maxConcurrency : Fin n → SizeT}

/-! ## The construction -/

/-- The stage is among the first `i` entries. -/
def FilledWith (table : VisitTable n size) (i : Nat) (s : Fin n) : Prop :=
  ∃ j, ∃ hj : j < size, j < i ∧ table[j] = some s

theorem filledWith_of_le {table : VisitTable n size} {i : Nat} (hi : size ≤ i) (s : Fin n) :
    FilledWith table i s ↔ some s ∈ table := by
  rw [Vector.mem_iff_getElem]
  constructor
  · rintro ⟨j, hj, _, heq⟩
    exact ⟨j, hj, heq⟩
  · rintro ⟨j, hj, heq⟩
    exact ⟨j, hj, by omega, heq⟩

theorem filledWith_set {table : VisitTable n size} {i : Nat} (hi : i < size) (v s : Fin n) :
    FilledWith (table.set i (some v)) (i + 1) s ↔ FilledWith table i s ∨ s = v := by
  constructor
  · rintro ⟨j, hj, hji, heq⟩
    by_cases hne : i = j
    · subst j
      rw [Vector.getElem_set_self] at heq
      exact .inr (Option.some.inj heq).symm
    · rw [Vector.getElem_set_ne _ _ hne] at heq
      exact .inl ⟨j, hj, by omega, heq⟩
  · rintro (⟨j, hj, hji, heq⟩ | rfl)
    · exact ⟨j, hj, by omega, by rw [Vector.getElem_set_ne _ _ (by omega)]; exact heq⟩
    · exact ⟨i, hi, by omega, Vector.getElem_set_self _⟩

/-- A full table is left as it is. -/
theorem fillTable_full {i : Nat} (hi : ¬ i < size) (draws : List (Fin n))
    (table : VisitTable n size) :
    fillTable maxConcurrency draws i table = some (table, draws) := by
  cases draws <;> rw [fillTable, dif_neg hi]

theorem fillTable_cons {i : Nat} (hi : i < size) (v : Fin n) (draws : List (Fin n))
    (table : VisitTable n size) : fillTable maxConcurrency (v :: draws) i table =
      if maxConcurrency v ≠ 0 then fillTable maxConcurrency draws (i + 1) (table.set i (some v))
      else fillTable maxConcurrency draws i table := by
  rw [fillTable, dif_pos hi]

/-- What the loop over one table has done with the draws. -/
structure Filled (maxConcurrency : Fin n → SizeT) (draws rest : List (Fin n)) (i : Nat)
    (table table' : VisitTable n size) (used : List (Fin n)) : Prop where
  split : draws = used ++ rest
  /-- The draws after the used ones are not looked at. -/
  anyRest : ∀ rest, fillTable maxConcurrency (used ++ rest) i table = some (table', rest)
  mem : ∀ s, some s ∈ table' ↔ FilledWith table i s ∨ s ∈ used ∧ maxConcurrency s ≠ 0

theorem Filled.full {i : Nat} (hi : ¬ i < size) (rest : List (Fin n))
    (table : VisitTable n size) : Filled maxConcurrency rest rest i table table [] where
  split := rfl
  anyRest rest := fillTable_full hi rest table
  mem s := by simp [filledWith_of_le (Nat.not_lt.mp hi)]

/-- A draw of an open stage is kept. -/
theorem Filled.keep {draws rest used : List (Fin n)} {i : Nat} {table table' : VisitTable n size}
    {v : Fin n} (hi : i < size) (hv : maxConcurrency v ≠ 0)
    (h : Filled maxConcurrency draws rest (i + 1) (table.set i (some v)) table' used) :
    Filled maxConcurrency (v :: draws) rest i table table' (v :: used) where
  split := congrArg (v :: ·) h.split
  anyRest rest := by
    rw [List.cons_append, fillTable_cons hi, if_pos hv]
    exact h.anyRest rest
  mem s := by
    rw [h.mem, filledWith_set, List.mem_cons]
    constructor
    · rintro ((hs | rfl) | hs)
      · exact .inl hs
      · exact .inr ⟨.inl rfl, hv⟩
      · exact .inr ⟨.inr hs.1, hs.2⟩
    · rintro (hs | ⟨rfl | hs, hopen⟩)
      · exact .inl (.inl hs)
      · exact .inl (.inr rfl)
      · exact .inr ⟨hs, hopen⟩

/-- A draw of a closed stage is used up, but it is in no entry. -/
theorem Filled.drop {draws rest used : List (Fin n)} {i : Nat} {table table' : VisitTable n size}
    {v : Fin n} (hi : i < size) (hv : ¬ maxConcurrency v ≠ 0)
    (h : Filled maxConcurrency draws rest i table table' used) :
    Filled maxConcurrency (v :: draws) rest i table table' (v :: used) where
  split := congrArg (v :: ·) h.split
  anyRest rest := by
    rw [List.cons_append, fillTable_cons hi, if_neg hv]
    exact h.anyRest rest
  mem s := by
    rw [h.mem, List.mem_cons]
    refine or_congr_right (and_congr_left fun hopen => ?_)
    refine ⟨.inr, fun hs => hs.resolve_left ?_⟩
    rintro rfl
    exact hv hopen

theorem exists_filled {draws rest : List (Fin n)} {i : Nat} {table table' : VisitTable n size}
    (h : fillTable maxConcurrency draws i table = some (table', rest)) :
    ∃ used, Filled maxConcurrency draws rest i table table' used := by
  induction draws generalizing i table with
  | nil =>
    by_cases hi : i < size
    · rw [fillTable, dif_pos hi] at h
      cases h
    · rw [fillTable_full hi] at h
      cases h
      exact ⟨[], .full hi _ _⟩
  | cons v draws ih =>
    by_cases hi : i < size
    · rw [fillTable_cons hi] at h
      by_cases hv : maxConcurrency v ≠ 0
      · rw [if_pos hv] at h
        obtain ⟨used, hused⟩ := ih h
        exact ⟨v :: used, hused.keep hi hv⟩
      · rw [if_neg hv] at h
        obtain ⟨used, hused⟩ := ih h
        exact ⟨v :: used, hused.drop hi hv⟩
    · rw [fillTable_full hi] at h
      cases h
      exact ⟨[], .full hi _ _⟩

theorem fillTables_eq_some {draws : List (Fin n)} {ts : List (Fin T)} (hts : ts.Nodup)
    {tables tables' : Fin T → VisitTable n size}
    (h : fillTables maxConcurrency draws ts tables = some tables') :
    ∃ used, used <+: draws ∧
      (∀ rest, fillTables maxConcurrency (used ++ rest) ts tables = some tables') ∧
      (∀ t, t ∉ ts → tables' t = tables t) ∧
      ∀ s, (∃ t ∈ ts, some s ∈ tables' t) ↔ s ∈ used ∧ maxConcurrency s ≠ 0 := by
  induction ts generalizing draws tables with
  | nil =>
    cases h
    exact ⟨[], List.nil_prefix, fun _ => rfl, fun _ _ => rfl, fun s => by simp⟩
  | cons u ts ih =>
    obtain ⟨hu, hts⟩ := List.nodup_cons.mp hts
    simp only [fillTables] at h
    split at h
    · cases h
    · rename_i table draws' hfill
      obtain ⟨first, hfirst⟩ := exists_filled hfill
      obtain ⟨later, hbegins, hlater, hother, hmemLater⟩ := ih hts h
      have htable : tables' u = table := (hother u hu).trans (Function.update_self _ _ _)
      refine ⟨first ++ later, ?_, fun rest => ?_, fun t ht => ?_, fun s => ?_⟩
      · rw [hfirst.split]
        exact (List.prefix_append_right_inj first).mpr hbegins
      · rw [fillTables, List.append_assoc, hfirst.anyRest]
        exact hlater rest
      · rw [List.mem_cons, not_or] at ht
        rw [hother t ht.2, Function.update_of_ne ht.1]
      · have hempty : ¬ FilledWith (tables u) 0 s := by
          rintro ⟨j, _, hj, _⟩
          exact absurd hj (Nat.not_lt_zero j)
        rw [List.mem_append, or_and_right, ← hmemLater s]
        simp only [List.mem_cons, or_and_right, exists_or, exists_eq_left, htable, hfirst.mem,
          hempty, false_or]

/-- The construction finishes on these draws and uses all of them up. -/
structure Constructed (maxConcurrency : Fin n → SizeT) (draws : List (Fin n))
    (tables : Tables n T size) : Prop where
  finishes : initVisitTable maxConcurrency draws = some tables
  usedUp : ∀ used, used <+: draws → used ≠ draws →
    (initVisitTable maxConcurrency used : Option (Tables n T size)) = none

/-- A construction that finishes has used up a prefix of the draws. -/
theorem exists_constructed {draws : List (Fin n)} {tables : Tables n T size}
    (h : initVisitTable maxConcurrency draws = some tables) :
    ∃ used, used <+: draws ∧ Constructed maxConcurrency used tables := by
  classical
  -- the shortest prefix on which it finishes
  have hex : ∃ k, (initVisitTable maxConcurrency (draws.take k) :
      Option (Tables n T size)).isSome :=
    ⟨draws.length, by rw [List.take_length, h]; rfl⟩
  obtain ⟨tables', htables'⟩ := Option.isSome_iff_exists.mp (Nat.find_spec hex)
  refine ⟨draws.take (Nat.find hex), List.take_prefix _ _, ?_, fun used hbegins hne => ?_⟩
  · -- the draws after it would not have been looked at
    obtain ⟨visitTable, hfill, rfl⟩ := Option.map_eq_some_iff.mp htables'
    obtain ⟨used, hbegins, hused, _⟩ := fillTables_eq_some (List.nodup_finRange T) hfill
    obtain ⟨rest, hrest⟩ := hbegins.trans (List.take_prefix _ draws)
    have hall := hused rest
    rw [hrest] at hall
    rw [initVisitTable, hall] at h
    rw [htables', ← h]
    rfl
  · have hlength : used.length < Nat.find hex := by
      have hlt := lt_of_le_of_ne hbegins.length_le fun heq => hne (hbegins.eq_of_length heq)
      exact hlt.trans_le (List.length_take_le _ _)
    have hmin := Nat.find_min hex hlength
    rw [Option.not_isSome_iff_eq_none] at hmin
    rwa [← List.prefix_iff_eq_take.mp (hbegins.trans (List.take_prefix _ draws))] at hmin

/-- The tables name exactly the stages that were drawn and are open. -/
theorem Constructed.mem_iff {draws : List (Fin n)} {tables : Tables n T size}
    (h : Constructed maxConcurrency draws tables) (s : Fin n) :
    (∃ t, some s ∈ tables.visitTable t) ↔ s ∈ draws ∧ maxConcurrency s ≠ 0 := by
  obtain ⟨visitTable, hfill, rfl⟩ := Option.map_eq_some_iff.mp h.finishes
  obtain ⟨used, hbegins, hused, _, hmem⟩ := fillTables_eq_some (List.nodup_finRange T) hfill
  have hall : used = draws := by
    by_contra hne
    have hnone := h.usedUp used hbegins hne
    have hsome := hused []
    rw [List.append_nil] at hsome
    rw [initVisitTable, hsome] at hnone
    cases hnone
  rw [← hall, ← hmem s]
  simp only [List.mem_finRange, true_and]

/-! ## The calls -/

/-- A refused read only delays what the calls from the tables after it can return. -/
theorem canReturn_of_refused {t : Fin T} {s : Fin n} {own : Tables n T (n * TableSizeFactor)}
    {ta : ThreadAssignments n T} {randomDevice : Nat → Nat}
    (hrefused : ¬ At (ta.removeCurrentAssignment t).2.HasRoom
      (randomStage own t randomDevice).1)
    (h : CanReturn (chooser n T TableSizeFactor) t s (randomStage own t randomDevice).2 ta) :
    CanReturn (chooser n T TableSizeFactor) t s own ta := by
  apply h.of_nextStage
  intro fuel entropy result hcall
  -- the first of the calls makes the refused read in one more round
  refine ⟨fuel + 1, fun i => if i = 0 then randomDevice else entropy (i - 1), ?_⟩
  rw [nextStage] at hcall ⊢
  dsimp only at hcall ⊢
  rw [assignLoop_refuse rfl hrefused]
  exact hcall

/-- A thread with `s` in its table comes to `s` if nobody else moves and `s` has room. -/
theorem canReturn_of_mem {t : Fin T} {s : Fin n} {own : Tables n T (n * TableSizeFactor)}
    (hs : some s ∈ own.visitTable t) (hown : own.Valid maxConcurrency) {ta : ThreadAssignments n T}
    (hroom : (ta.removeCurrentAssignment t).2.HasRoom s) :
    CanReturn (chooser n T TableSizeFactor) t s own ta := by
  have hsize : 0 < n * TableSizeFactor := by
    obtain ⟨j, hj, _⟩ := Vector.mem_iff_getElem.mp hs
    exact Nat.zero_lt_of_lt hj
  -- the induction is on the bound on the reads until `s`
  induction hk : remaining (own.visitTable t) (own.visitIndex t) s using Nat.strongRecOn
    generalizing own ta with
  | ind k ih =>
    let randomDevice : Nat → Nat := fun _ => 0
    have hs' := ((Shuffled.randomStage (fun _ => .rfl) t randomDevice :
      Shuffled own (randomStage own t randomDevice).2) t).mem_iff.mpr hs
    have hvalid := (randomStage_valid hown hsize t randomDevice).1
    have hdraw := remaining_randomStage hs (hown.inside t) randomDevice
    by_cases haccept : At (ta.removeCurrentAssignment t).2.HasRoom
        (randomStage own t randomDevice).1
    · cases hread : (randomStage own t randomDevice).1 with
      | none =>
        rw [hread] at haccept
        exact haccept.elim
      | some r =>
        rw [hread] at haccept
        have hcall : (chooser n T TableSizeFactor).nextStage 1 (fun _ => randomDevice) t own ta =
            some (r, (randomStage own t randomDevice).2,
              ((ta.removeCurrentAssignment t).2.tryAssign t (some r)).2) := by
          rw [nextStage]
          exact assignLoop_accept (by dsimp only; rw [hread]) haccept
        by_cases hr : r = s
        · subst r
          exact .now hcall
        · -- the call returns another stage, and the next one goes on reading
          have hlt := hdraw.resolve_left fun heq => hr (Option.some.inj (hread.symm.trans heq))
          refine .later hcall (ih _ (hk ▸ hlt) hs' hvalid ?_ rfl)
          rw [ThreadAssignments.removeCurrentAssignment_tryAssign
            (ThreadAssignments.removeCurrentAssignment_self ta t) haccept]
          exact hroom
    · have hlt := hdraw.resolve_left fun hread => by
        rw [hread] at haccept
        exact haccept hroom
      exact canReturn_of_refused haccept (ih _ (hk ▸ hlt) hs' hvalid hroom rfl)

theorem Constructed.valid {draws : List (Fin n)} {tables : Tables n T size}
    (h : Constructed maxConcurrency draws tables) : tables.Valid maxConcurrency :=
  initVisitTable_valid h.finishes

/-- The entries of the tables after any steps of the callers. -/
theorem Constructed.run {draws : List (Fin n)} {tables : Tables n T (n * TableSizeFactor)}
    (h : Constructed maxConcurrency draws tables) {σ σ' : Calls (chooser n T TableSizeFactor)}
    (hσ : σ.shared.own = tables) {as : List (Calls.Action (chooser n T TableSizeFactor))}
    (hrun : (calls (chooser n T TableSizeFactor) maxConcurrency).run σ as = some σ') (s : Fin n) :
    (∃ t, some s ∈ σ'.shared.own.visitTable t) ↔ s ∈ draws ∧ maxConcurrency s ≠ 0 := by
  have hshuffled : Shuffled tables σ'.shared.own := by
    apply Lts.run_preserves (I := fun σ => Shuffled tables σ.shared.own) _ _ hrun
    · exact fun σ a σ' hown hs => Calls.keeps (keeps_shuffled tables) hown hs
    · rw [hσ]
      exact fun _ => .rfl
  rw [← h.mem_iff s]
  exact exists_congr fun t => (hshuffled t).mem_iff

/-- A stage that can be entered occurs in the visit tables, after the construction and after any
    steps of the callers, exactly if it was drawn during the construction; and a thread with the
    stage in its table can come to it. -/
theorem occurs_iff_drawn {draws : List (Fin n)} {tables : Tables n T (n * TableSizeFactor)}
    (h : Constructed maxConcurrency draws tables) {σ σ' : Calls (chooser n T TableSizeFactor)}
    (hσ : σ.shared.own = tables) {as : List (Calls.Action (chooser n T TableSizeFactor))}
    (hrun : (calls (chooser n T TableSizeFactor) maxConcurrency).run σ as = some σ') (s : Fin n)
    (hs : maxConcurrency s ≠ 0) :
    ((∃ t, some s ∈ σ'.shared.own.visitTable t) ↔ s ∈ draws) ∧
      ∀ t ta, some s ∈ σ'.shared.own.visitTable t →
        (ta.removeCurrentAssignment t).2.HasRoom s →
          CanReturn (chooser n T TableSizeFactor) t s σ'.shared.own ta := by
  constructor
  · rw [h.run hσ hrun s]
    exact and_iff_left hs
  · intro t ta hmem hroom
    have hsize : 0 < n * TableSizeFactor := by
      obtain ⟨j, hj, _⟩ := Vector.mem_iff_getElem.mp hmem
      exact Nat.zero_lt_of_lt hj
    have hvalid : σ'.shared.own.Valid maxConcurrency := by
      apply Lts.run_preserves (I := fun σ => σ.shared.own.Valid maxConcurrency) _ _ hrun
      · exact fun σ a σ' hown hs => Calls.keeps (keeps_valid hsize) hown hs
      · rw [hσ]
        exact h.valid
    exact canReturn_of_mem hmem hvalid hroom

/-! ## Two stages -/

/-- The tables of a single thread that has read nothing yet. -/
def oneTable (table : VisitTable n size) : Tables n 1 size where
  visitTable _ := table
  visitIndex _ := 0

theorem oneTable_constructed :
    Constructed (fun _ => 1) [1, 0] (oneTable #v[some 1, some 0] : Tables 2 1 (2 * 1)) where
  finishes := by
    have hfill : fillTable (fun _ => 1) [1, 0] 0
        (Vector.replicate (2 * 1) (StageEnum.ofSizeT 2 0)) = some (#v[some 1, some 0], []) := by
      rw [fillTable_cons (by decide), if_pos (by decide), fillTable_cons (by decide),
        if_pos (by decide), fillTable_full (by decide)]
      rfl
    rw [initVisitTable, List.finRange_succ, List.finRange_zero, List.map_nil, fillTables, hfill]
    simp only [fillTables, Option.map_some, oneTable, Option.some.injEq, Tables.mk.injEq, and_true]
    funext t
    rw [Subsingleton.elim t 0, Function.update_self]
  usedUp used hbegins hne := by
    have hused : used = [] ∨ used = [1] := by
      rcases List.prefix_cons_iff.mp hbegins with rfl | ⟨used, rfl, hrest⟩
      · exact .inl rfl
      · rcases List.prefix_cons_iff.mp hrest with rfl | ⟨_, rfl, hlast⟩
        · exact .inr rfl
        · rw [List.prefix_nil.mp hlast] at hne
          exact absurd rfl hne
    rcases hused with rfl | rfl <;>
      simp [initVisitTable, fillTables, fillTable, List.finRange_succ]

/-- No thread has made a call, and every limit is 1. -/
def beforeCalls (tables : Tables n T (n * TableSizeFactor)) :
    Calls (chooser n T TableSizeFactor) where
  shared := .fresh (fun _ => 1) tables
  caller _ := .outside StageEnum.NumberOfEntries

/-- A call of a thread to which the random source delivers 0. -/
def callOf (t : Fin T) (accesses : Nat) : List (Calls.Action (chooser n T TableSizeFactor)) :=
  .call t :: List.replicate accesses (.access t fun _ => 0)

/-- Two calls read the table to its end, and a third one shuffles it. -/
theorem threeCalls_run : ∃ σ, (calls (chooser 2 1 1) fun _ => 1).run
      (beforeCalls (oneTable #v[some 1, some 0])) (callOf 0 7 ++ callOf 0 9 ++ callOf 0 9) =
        some σ ∧
    σ.shared.own.visitTable 0 = #v[some 0, some 1] ∧ σ.caller 0 = .outside (some 0) ∧
      (σ.shared.ta.removeCurrentAssignment 0).2.HasRoom 1 := by
  refine ⟨_, rfl, rfl, rfl, ?_⟩
  decide

/-- After the shuffle the second stage is in the table still, and the thread can come to it. -/
theorem occurs_iff_drawn_two : ∃ σ, (calls (chooser 2 1 1) fun _ => 1).run
      (beforeCalls (oneTable #v[some 1, some 0])) (callOf 0 7 ++ callOf 0 9 ++ callOf 0 9) =
        some σ ∧
    σ.shared.own.visitTable 0 = #v[some 0, some 1] ∧
      ((∃ t, some 1 ∈ σ.shared.own.visitTable t) ↔ (1 : Fin 2) ∈ [1, 0]) ∧
        CanReturn (chooser 2 1 1) 0 1 σ.shared.own σ.shared.ta := by
  obtain ⟨σ, hrun, htable, _, hroom⟩ := threeCalls_run
  obtain ⟨hoccurs, hreturn⟩ := occurs_iff_drawn oneTable_constructed rfl hrun 1 (by decide)
  refine ⟨σ, hrun, htable, hoccurs, hreturn 0 _ ?_ hroom⟩
  rw [htable]
  simp

/-- All eight draws are the first stage: no table names the second one, now or later. -/
theorem stage_left_out :
    ∃ (draws : List (Fin 2)) (tables : Tables 2 1 (2 * 4)),
      Constructed (fun _ => 1) draws tables ∧
        ∀ (σ σ' : Calls (chooser 2 1 4)) as, σ.shared.own = tables →
          (calls (chooser 2 1 4) fun _ => 1).run σ as = some σ' →
            ∀ t, some 1 ∉ σ'.shared.own.visitTable t := by
  obtain ⟨tables, htables⟩ := Option.isSome_iff_exists.mp
    (by simp [initVisitTable, fillTables, fillTable, List.finRange_succ] :
      (initVisitTable (fun _ => 1) (List.replicate 8 0) : Option (Tables 2 1 (2 * 4))).isSome)
  obtain ⟨draws, hbegins, hdraws⟩ := exists_constructed htables
  refine ⟨draws, tables, hdraws, fun σ σ' as hσ hrun t hmem => ?_⟩
  have hdrawn := ((hdraws.run hσ hrun 1).mp ⟨t, hmem⟩).1
  exact absurd (List.eq_of_mem_replicate (hbegins.subset hdrawn)) (by decide)

end Wield.RandomVisit
