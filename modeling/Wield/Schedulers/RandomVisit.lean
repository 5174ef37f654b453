import Mathlib.Data.Fintype.Basic
import Wield.Schedulers.StageChooser

/-!
# The `RandomVisit` policy

Each thread has a table of stages, filled with random draws by the constructor.  `nextStage` reads
the table from front to back and shuffles it at the end.  The random source is an argument: the
list of draws of the construction, and for a shuffle the value drawn at each index.
-/

namespace Wield.RandomVisit

variable {n T size : Nat}

/-- `VisitTable`, with `size = NumberOfEntries * TableSizeFactor`. -/
abbrev VisitTable (n size : Nat) := Vector (StageEnum n) size

/-- The tables and the position of each thread in its table. -/
structure Tables (n T size : Nat) where
  visitTable : Fin T → VisitTable n size
  visitIndex : Fin T → Nat

/-- The loop of `randomShuffle` from index `i` down: swap the entry at `i` with the one at
    `randomDevice_() % (i + 1)`. -/
def shuffleFrom (randomDevice : Nat → Nat) :
    (i : Nat) → i < size → VisitTable n size → VisitTable n size
  | 0, _, table => table
  | i + 1, hi, table =>
    have hr : randomDevice (i + 1) % (i + 2) < size :=
      Nat.lt_of_lt_of_le (Nat.mod_lt _ (Nat.succ_pos _)) hi
    shuffleFrom randomDevice i (Nat.lt_of_succ_lt hi)
      (table.swap (i + 1) (randomDevice (i + 1) % (i + 2)) hi hr)

def randomShuffle (randomDevice : Nat → Nat) (table : VisitTable n size) : VisitTable n size :=
  if h : 0 < size then shuffleFrom randomDevice (size - 1) (Nat.sub_lt h Nat.one_pos) table
  else table

/-- `*visitIndex_[threadId]`; past the end of the table there is nothing to read. -/
def entry (table : VisitTable n size) (index : Nat) : StageEnum n :=
  if h : index < size then table[index] else StageEnum.NumberOfEntries

/-- `randomStage`: the next entry of the thread's table, which is shuffled first if it is used
    up. -/
def randomStage (tables : Tables n T size) (threadId : Fin T) (randomDevice : Nat → Nat) :
    StageEnum n × Tables n T size :=
  let tables :=
    if tables.visitIndex threadId = size then
      { visitTable := Function.update tables.visitTable threadId
          (randomShuffle randomDevice (tables.visitTable threadId))
        visitIndex := Function.update tables.visitIndex threadId 0 }
    else tables
  (entry (tables.visitTable threadId) (tables.visitIndex threadId),
    { tables with
      visitIndex := Function.update tables.visitIndex threadId
        (tables.visitIndex threadId + 1) })

/-- The loop of `initVisitTable` over one table, from index `i`: draws of stages with maximum
    concurrency 0 are dropped.  The result is the table and the draws that are left; there is none
    if the draws run out. -/
def fillTable (maxConcurrency : Fin n → SizeT) :
    List (Fin n) → Nat → VisitTable n size → Option (VisitTable n size × List (Fin n))
  | draws, i, table =>
    if hi : i < size then
      match draws with
      | [] => none
      | v :: draws =>
        -- `i` is only advanced by a draw that is kept
        if maxConcurrency v ≠ 0 then
          fillTable maxConcurrency draws (i + 1) (table.set i (some v))
        else fillTable maxConcurrency draws i table
    else some (table, draws)
termination_by draws => draws.length

/-- The tables of a list of threads, filled one after the other. -/
def fillTables (maxConcurrency : Fin n → SizeT) (draws : List (Fin n)) :
    List (Fin T) → (Fin T → VisitTable n size) → Option (Fin T → VisitTable n size)
  | [], tables => some tables
  | t :: ts, tables =>
    match fillTable maxConcurrency draws 0 (tables t) with
    | none => none
    | some (table, draws) =>
      fillTables maxConcurrency draws ts (Function.update tables t table)

/-- `initVisitTable`, if the construction finishes on these draws of `rand_(randomDevice_)`. -/
def initVisitTable (maxConcurrency : Fin n → SizeT) (draws : List (Fin n)) :
    Option (Tables n T size) :=
  (fillTables maxConcurrency draws (List.finRange T)
    (fun _ => Vector.replicate size (StageEnum.ofSizeT n 0))).map
      fun tables => { visitTable := tables, visitIndex := fun _ => 0 }

/-- `RandomVisit::nextStage`. -/
@[reducible] def chooser (n T TableSizeFactor : Nat) : StageChooser n T where
  State := Tables n T (n * TableSizeFactor)
  Cursor := Unit
  Entropy := Nat → Nat
  start _ _ := ()
  choose tables threadId _ randomDevice :=
    ((randomStage tables threadId randomDevice).1, (),
      (randomStage tables threadId randomDevice).2)
  settle tables _ := tables
  batchEnd tables _ := tables
  dispatched tables _ := tables
  init maxConcurrency tables := ∃ draws, initVisitTable maxConcurrency draws = some tables

end Wield.RandomVisit
