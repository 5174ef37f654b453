import Wield.Schedulers.RandomVisit

/-!
# The visit tables of `RandomVisit`

The constructor keeps only draws of stages with a limit above 0, and shuffling moves entries only.
So every entry that `nextStage` reads is a stage that can be entered, and a stage in the table is
read before the end of the next pass.
-/

namespace Wield.RandomVisit

variable {n T size : Nat} {maxConcurrency : Fin n → SizeT}

/-- Every entry of the table is a stage with a limit above 0. -/
def AllOpen (maxConcurrency : Fin n → SizeT) (table : VisitTable n size) : Prop :=
  ∀ i (h : i < size), ∃ s, table[i] = some s ∧ maxConcurrency s ≠ 0

theorem AllOpen.swap {table : VisitTable n size} (h : AllOpen maxConcurrency table) {i j : Nat}
    (hi : i < size) (hj : j < size) : AllOpen maxConcurrency (table.swap i j hi hj) := by
  intro k hk
  rw [Vector.getElem_swap]
  split
  · exact h j hj
  · split
    · exact h i hi
    · exact h k hk

theorem AllOpen.shuffleFrom {table : VisitTable n size} (h : AllOpen maxConcurrency table)
    (randomDevice : Nat → Nat) (i : Nat) (hi : i < size) :
    AllOpen maxConcurrency (shuffleFrom randomDevice i hi table) := by
  induction i generalizing table with
  | zero => exact h
  | succ i ih => exact ih (h.swap _ _) _

theorem AllOpen.randomShuffle {table : VisitTable n size} (h : AllOpen maxConcurrency table)
    (randomDevice : Nat → Nat) : AllOpen maxConcurrency (randomShuffle randomDevice table) := by
  unfold RandomVisit.randomShuffle
  split
  · exact h.shuffleFrom randomDevice _ _
  · exact h

/-- The loop of the constructor keeps what it has filled. -/
theorem fillTable_allOpen {draws draws' : List (Fin n)} {i : Nat} {table table' : VisitTable n size}
    (hfilled : ∀ j (h : j < size), j < i → ∃ s, table[j] = some s ∧ maxConcurrency s ≠ 0)
    (h : fillTable maxConcurrency draws i table = some (table', draws')) :
    AllOpen maxConcurrency table' := by
  induction draws generalizing i table with
  | nil =>
    rw [fillTable] at h
    split at h
    · cases h
    · cases h
      exact fun j hj => hfilled j hj (by omega)
  | cons v draws ih =>
    rw [fillTable] at h
    by_cases hi : i < size
    · rw [dif_pos hi] at h
      dsimp only at h
      -- a draw with limit 0 leaves the table and the index as they are
      by_cases hv : maxConcurrency v ≠ 0
      · rw [if_pos hv] at h
        refine ih (fun j hj hji => ?_) h
        by_cases hjv : i = j
        · subst j
          exact ⟨v, Vector.getElem_set_self _, hv⟩
        · rw [Vector.getElem_set_ne _ _ hjv]
          exact hfilled j hj (by omega)
      · rw [if_neg hv] at h
        exact ih hfilled h
    · rw [dif_neg hi] at h
      cases h
      exact fun j hj => hfilled j hj (by omega)

theorem fillTables_allOpen {draws : List (Fin n)} {ts : List (Fin T)}
    {tables tables' : Fin T → VisitTable n size}
    (h : fillTables maxConcurrency draws ts tables = some tables') (t : Fin T)
    (ht : t ∈ ts ∨ AllOpen maxConcurrency (tables t)) : AllOpen maxConcurrency (tables' t) := by
  induction ts generalizing draws tables with
  | nil =>
    cases h
    exact ht.resolve_left (List.not_mem_nil)
  | cons u ts ih =>
    simp only [fillTables] at h
    split at h
    · cases h
    · rename_i table draws' hfill
      -- the table of `u` is filled now, and later rounds do not touch it
      have htable := fillTable_allOpen (fun _ _ hj => absurd hj (Nat.not_lt_zero _)) hfill
      apply ih h
      by_cases htu : t = u
      · subst u
        rw [Function.update_self]
        exact .inr htable
      · rw [Function.update_of_ne htu]
        exact ht.imp_left fun hmem => (List.mem_cons.mp hmem).resolve_left htu

/-- What the policy keeps of its tables between any two steps. -/
structure Tables.Valid (maxConcurrency : Fin n → SizeT) (tables : Tables n T size) : Prop where
  allOpen : ∀ t, AllOpen maxConcurrency (tables.visitTable t)
  inside : ∀ t, tables.visitIndex t ≤ size

theorem initVisitTable_valid {draws : List (Fin n)} {tables : Tables n T size}
    (h : initVisitTable maxConcurrency draws = some tables) : tables.Valid maxConcurrency := by
  obtain ⟨visitTable, hfill, rfl⟩ := Option.map_eq_some_iff.mp h
  exact ⟨fun t => fillTables_allOpen hfill t (.inl (List.mem_finRange t)),
    fun _ => Nat.zero_le size⟩

/-- A draw leaves valid tables, and it is a stage that can be entered. -/
theorem randomStage_valid {tables : Tables n T size} (h : tables.Valid maxConcurrency)
    (hsize : 0 < size) (t : Fin T) (randomDevice : Nat → Nat) :
    (randomStage tables t randomDevice).2.Valid maxConcurrency ∧
      ∃ s, (randomStage tables t randomDevice).1 = some s ∧ maxConcurrency s ≠ 0 := by
  -- the tables that the draw reads
  obtain ⟨read, hread, hvalid, hlt⟩ : ∃ read : Tables n T size,
      read = (if tables.visitIndex t = size then
        { visitTable := Function.update tables.visitTable t
            (randomShuffle randomDevice (tables.visitTable t))
          visitIndex := Function.update tables.visitIndex t 0 } else tables) ∧
      read.Valid maxConcurrency ∧ read.visitIndex t < size := by
    refine ⟨_, rfl, ?_, ?_⟩
    · split
      · constructor <;> dsimp only
        · rw [Function.forall_update_iff tables.visitTable fun _ => AllOpen maxConcurrency]
          exact ⟨(h.allOpen t).randomShuffle randomDevice, fun u _ => h.allOpen u⟩
        · rw [Function.forall_update_iff tables.visitIndex fun _ i => i ≤ size]
          exact ⟨Nat.zero_le size, fun u _ => h.inside u⟩
      · exact h
    · split
      · dsimp only
        rw [Function.update_self]
        exact hsize
      · exact Nat.lt_of_le_of_ne (h.inside t) ‹_›
  simp only [randomStage, ← hread]
  refine ⟨⟨hvalid.allOpen, ?_⟩, ?_⟩
  · dsimp only
    rw [Function.forall_update_iff read.visitIndex fun _ i => i ≤ size]
    exact ⟨hlt, fun u _ => hvalid.inside u⟩
  · rw [entry, dif_pos hlt]
    exact hvalid.allOpen t _ hlt

/-! ## Shuffling keeps the entries -/

theorem shuffleFrom_perm (randomDevice : Nat → Nat) (i : Nat) (hi : i < size)
    (table : VisitTable n size) : (shuffleFrom randomDevice i hi table).Perm table := by
  induction i generalizing table with
  | zero => exact .rfl
  | succ i ih => exact (ih _ _).trans (Vector.swap_perm _ _)

theorem randomShuffle_perm (randomDevice : Nat → Nat) (table : VisitTable n size) :
    (randomShuffle randomDevice table).Perm table := by
  unfold randomShuffle
  split
  · exact shuffleFrom_perm randomDevice _ _ table
  · exact .rfl

/-- Each table has the entries that the constructor gave it, in some order. -/
def Shuffled (tables tables' : Tables n T size) : Prop :=
  ∀ t, (tables'.visitTable t).Perm (tables.visitTable t)

theorem Shuffled.randomStage {tables tables' : Tables n T size} (h : Shuffled tables tables')
    (t : Fin T) (randomDevice : Nat → Nat) :
    Shuffled tables (randomStage tables' t randomDevice).2 := by
  unfold Shuffled
  simp only [RandomVisit.randomStage]
  split
  · dsimp only
    rw [Function.forall_update_iff tables'.visitTable fun u table =>
      table.Perm (tables.visitTable u)]
    exact ⟨(randomShuffle_perm randomDevice _).trans (h t), fun u _ => h u⟩
  · exact h

/-! ## One draw -/

variable {t : Fin T}

/-- A draw of thread `t` reads the entry at `i` and leaves the index behind it. -/
structure ReadsAt (tables : Tables n T size) (t : Fin T) (randomDevice : Nat → Nat) (i : Nat) :
    Prop where
  inside : i < size
  index : (randomStage tables t randomDevice).2.visitIndex t = i + 1
  entry : (randomStage tables t randomDevice).1 =
    ((randomStage tables t randomDevice).2.visitTable t)[i]

/-- The next entry is read, or the table is used up and shuffled and its first entry is read. -/
theorem randomStage_cases {tables : Tables n T size} (hsize : 0 < size)
    (hin : tables.visitIndex t ≤ size) (randomDevice : Nat → Nat) :
    (ReadsAt tables t randomDevice (tables.visitIndex t) ∧
      (randomStage tables t randomDevice).2.visitTable = tables.visitTable) ∨
    (tables.visitIndex t = size ∧ ReadsAt tables t randomDevice 0) := by
  by_cases hend : tables.visitIndex t = size
  · refine .inr ⟨hend, hsize, ?_, ?_⟩ <;>
      simp only [randomStage, if_pos hend, Function.update_self, RandomVisit.entry, dif_pos hsize]
  · have hlt := Nat.lt_of_le_of_ne hin hend
    refine .inl ⟨⟨hlt, ?_, ?_⟩, ?_⟩ <;>
      simp only [randomStage, if_neg hend, Function.update_self, RandomVisit.entry, dif_pos hlt]

theorem randomStage_of_ne (tables : Tables n T size) {u : Fin T} (hu : t ≠ u)
    (randomDevice : Nat → Nat) :
    (randomStage tables u randomDevice).2.visitTable t = tables.visitTable t ∧
      (randomStage tables u randomDevice).2.visitIndex t = tables.visitIndex t := by
  simp only [randomStage]
  split <;> simp [Function.update_of_ne hu]

/-! ## How far ahead a stage is -/

/-- A bound on the draws until `s` is drawn: up to the end of the table, and if `s` does not come
    there any more, a whole pass after that. -/
def remaining (table : VisitTable n size) (index : Nat) (s : Fin n) : Nat :=
  if (table.toList.drop index).contains (some s) then size - index else 2 * size - index

theorem remaining_of_mem {table : VisitTable n size} {index : Nat} {s : Fin n}
    (h : some s ∈ table.toList.drop index) : remaining table index s = size - index :=
  if_pos (List.contains_iff_mem.mpr h)

theorem remaining_of_notMem {table : VisitTable n size} {index : Nat} {s : Fin n}
    (h : some s ∉ table.toList.drop index) : remaining table index s = 2 * size - index :=
  if_neg fun hmem => h (List.contains_iff_mem.mp hmem)

theorem remaining_pos {table : VisitTable n size} {index : Nat} {s : Fin n}
    (hs : some s ∈ table) (hin : index ≤ size) : 0 < remaining table index s := by
  obtain ⟨j, hj, _⟩ := Vector.mem_iff_getElem.mp hs
  by_cases hahead : some s ∈ table.toList.drop index
  · have hlength := List.length_pos_of_mem hahead
    rw [List.length_drop, Vector.length_toList] at hlength
    rwa [remaining_of_mem hahead]
  · rw [remaining_of_notMem hahead]
    omega

theorem remaining_le {table : VisitTable n size} {index : Nat} {s : Fin n}
    (hs : some s ∈ table) : remaining table index s ≤ 2 * size - 1 := by
  obtain ⟨j, hj, _⟩ := Vector.mem_iff_getElem.mp hs
  by_cases hahead : some s ∈ table.toList.drop index
  · rw [remaining_of_mem hahead]
    omega
  · have hindex : index ≠ 0 := by
      rintro rfl
      exact hahead (Vector.mem_toList_iff.mpr hs)
    rw [remaining_of_notMem hahead]
    omega

/-- Unless it is drawn, `s` is ahead after the draw if it was before. -/
theorem ReadsAt.mem_drop_iff {tables : Tables n T size} {randomDevice : Nat → Nat} {i : Nat}
    (h : ReadsAt tables t randomDevice i) {s : Fin n}
    (hne : (randomStage tables t randomDevice).1 ≠ some s) :
    some s ∈ ((randomStage tables t randomDevice).2.visitTable t).toList.drop (i + 1) ↔
      some s ∈ ((randomStage tables t randomDevice).2.visitTable t).toList.drop i := by
  have hi : i < ((randomStage tables t randomDevice).2.visitTable t).toList.length := by
    rw [Vector.length_toList]
    exact h.inside
  rw [List.drop_eq_getElem_cons hi, Vector.getElem_toList, ← h.entry, List.mem_cons]
  exact (or_iff_right (Ne.symm hne)).symm

/-- A draw is that of `s` or one of those before it. -/
theorem remaining_randomStage {tables : Tables n T size} {s : Fin n}
    (hs : some s ∈ tables.visitTable t) (hin : tables.visitIndex t ≤ size)
    (randomDevice : Nat → Nat) :
    (randomStage tables t randomDevice).1 = some s ∨
      remaining ((randomStage tables t randomDevice).2.visitTable t)
        ((randomStage tables t randomDevice).2.visitIndex t) s <
          remaining (tables.visitTable t) (tables.visitIndex t) s := by
  by_cases hread : (randomStage tables t randomDevice).1 = some s
  · exact .inl hread
  have hsize : 0 < size := by
    obtain ⟨j, hj, _⟩ := Vector.mem_iff_getElem.mp hs
    exact Nat.zero_lt_of_lt hj
  refine .inr ?_
  rcases randomStage_cases hsize hin randomDevice with ⟨hat, htable⟩ | ⟨hend, hat⟩
  · have hinside := hat.inside
    have hiff := hat.mem_drop_iff hread
    rw [htable] at hiff
    rw [hat.index, htable]
    by_cases hahead : some s ∈ (tables.visitTable t).toList.drop (tables.visitIndex t)
    · rw [remaining_of_mem hahead, remaining_of_mem (hiff.mpr hahead)]
      omega
    · rw [remaining_of_notMem hahead, remaining_of_notMem (hiff.not.mpr hahead)]
      omega
  · -- the shuffled table has `s` ahead of its first entry
    have hmem : some s ∈ (randomStage tables t randomDevice).2.visitTable t :=
      (Shuffled.randomStage (fun _ => .rfl) t randomDevice t).mem_iff.mpr hs
    have hahead := (hat.mem_drop_iff hread).mpr (Vector.mem_toList_iff.mpr hmem)
    have hnone : some s ∉ (tables.visitTable t).toList.drop (tables.visitIndex t) := by
      rw [hend, List.drop_of_length_le (Vector.length_toList).le]
      exact List.not_mem_nil
    rw [hat.index, remaining_of_mem hahead, remaining_of_notMem hnone, hend]
    omega

/-! ## What the policy keeps -/

variable {TableSizeFactor : Nat}

theorem keeps_shuffled (tables : Tables n T (n * TableSizeFactor)) :
    (chooser n T TableSizeFactor).Keeps (Shuffled tables) where
  choose _ t _ randomDevice h := h.randomStage t randomDevice
  settle _ _ h := h
  batchEnd _ _ h := h
  dispatched _ _ h := h

theorem keeps_valid (hsize : 0 < n * TableSizeFactor) :
    (chooser n T TableSizeFactor).Keeps (Tables.Valid maxConcurrency) where
  choose _ t _ randomDevice h := (randomStage_valid h hsize t randomDevice).1
  settle _ _ h := h
  batchEnd _ _ h := h
  dispatched _ _ h := h

end Wield.RandomVisit
