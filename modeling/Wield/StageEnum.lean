import Mathlib.Data.BitVec
import Mathlib.Logic.Function.Basic

/-!
# Stage names and `std::size_t`

A client's stage enum has `n` stages, numbered from `0`, followed by the marker `NumberOfEntries`.
A value of the enum is therefore an `Option (Fin n)`, the marker being `none`; the two casts between
the enum and `std::size_t` that the schedulers use are `toSizeT` and `ofSizeT`.
-/

namespace Wield

/-- `std::size_t`. -/
abbrev SizeT := BitVec 64

theorem SizeT.toNat_add_one {x m : SizeT} (h : x < m) : (x + 1).toNat = x.toNat + 1 := by
  bv_omega

theorem SizeT.toNat_sub_one {x : SizeT} (h : 0 < x.toNat) : (x - 1).toNat = x.toNat - 1 := by
  bv_omega

/-- A value of the stage enum: one of the `n` stages, or `NumberOfEntries`. -/
abbrev StageEnum (n : Nat) := Option (Fin n)

namespace StageEnum

variable {n : Nat}

/-- The last enumerator, which the schedulers use for "no stage". -/
@[match_pattern] abbrev NumberOfEntries : StageEnum n := none

/-- `static_cast<std::size_t>(stage)`. -/
def toSizeT : StageEnum n → SizeT
  | none => BitVec.ofNat 64 n
  | some s => BitVec.ofNat 64 s

/-- `static_cast<StageEnum>(index)`, for an index of at most `NumberOfEntries`. -/
def ofSizeT (n : Nat) (index : SizeT) : StageEnum n :=
  if h : index.toNat < n then some ⟨index.toNat, h⟩ else none

theorem toNat_toSizeT_some (hn : n < 2 ^ 64) (s : Fin n) :
    (toSizeT (some s)).toNat = s := by
  have hs := s.isLt
  simp only [toSizeT, BitVec.toNat_ofNat]
  omega

theorem toNat_toSizeT_none (hn : n < 2 ^ 64) : (toSizeT (none : StageEnum n)).toNat = n := by
  simp only [toSizeT, BitVec.toNat_ofNat]
  omega

theorem ofSizeT_of_lt {index : SizeT} (h : index.toNat < n) :
    ofSizeT n index = some ⟨index.toNat, h⟩ := by
  rw [ofSizeT, dif_pos h]

end StageEnum

end Wield
