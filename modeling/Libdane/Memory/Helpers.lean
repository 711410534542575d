import Libdane.Common
import Libdane.Framework.MaskRounding

/-!
# Alignment helpers of the allocators

Both allocators validate an alignment as a nonzero power of two of at most sixteen and round
sizes with a 64-bit mask. For a power-of-two alignment the mask gives the least multiple.
-/

namespace Libdane

open MaskRounding

def libdMemoryIsPowerOfTwo (offset : UInt64) : Bool := (offset &&& (offset - 1)) == 0

def libdMemoryIsValidAlignment (alignment : UInt8) : Bool :=
  if alignment == 0 then false
  else if !libdMemoryIsPowerOfTwo alignment.toUInt64 || alignment > libdMaxAlign then false
  else true

def libdMemoryAlignUp (value alignment : UInt64) : UInt64 :=
  (value + alignment - 1) &&& ~~~(alignment - 1)

private theorem valid_alignment_table : ∀ n < 256,
    libdMemoryIsValidAlignment (UInt8.ofNat n) = true ↔ ∃ k ≤ 4, n = 2 ^ k := by
  decide +kernel

theorem libdMemoryIsValidAlignment_iff (alignment : UInt8) :
    libdMemoryIsValidAlignment alignment = true ↔ ∃ k ≤ 4, alignment.toNat = 2 ^ k := by
  simpa using valid_alignment_table alignment.toNat alignment.toNat_lt

theorem le_libdMemoryAlignUp {value alignment : UInt64} (ha : 0 < alignment.toNat)
    (hfit : value.toNat + alignment.toNat - 1 < 2 ^ 64) :
    value.toNat ≤ (libdMemoryAlignUp value alignment).toNat :=
  @le_toNat_maskUp 64 value.toBitVec alignment.toBitVec ha hfit

theorem libdMemoryAlignUp_le {value alignment : UInt64} (ha : 0 < alignment.toNat)
    (hfit : value.toNat + alignment.toNat - 1 < 2 ^ 64) :
    (libdMemoryAlignUp value alignment).toNat ≤ value.toNat + alignment.toNat - 1 :=
  @toNat_maskUp_le 64 value.toBitVec alignment.toBitVec ha hfit

theorem libdMemoryAlignUp_toNat {k : Nat} {value alignment : UInt64}
    (ha : alignment.toNat = 2 ^ k) (hfit : value.toNat + alignment.toNat - 1 < 2 ^ 64) :
    (libdMemoryAlignUp value alignment).toNat = roundUp value.toNat alignment.toNat :=
  @toNat_maskUp_two_pow 64 k value.toBitVec alignment.toBitVec ha hfit

theorem libdMemoryAlignUp_eq_roundUp_iff {value alignment : UInt64} (ha : 0 < alignment.toNat)
    (hfit : value.toNat + alignment.toNat - 1 < 2 ^ 64) :
    (libdMemoryAlignUp value alignment).toNat = roundUp value.toNat alignment.toNat ↔
      MaskFits value.toNat alignment.toNat :=
  @toNat_maskUp_eq_roundUp_iff 64 value.toBitVec alignment.toBitVec ha hfit

/-- The bounds hold for every nonzero unit, and a power of two gives the least multiple. -/
theorem libdMemoryAlignUp_bounds (value alignment : UInt64) (ha : 1 ≤ alignment.toNat)
    (hfit : value.toNat + alignment.toNat - 1 < 2 ^ 64) :
    value.toNat ≤ (libdMemoryAlignUp value alignment).toNat ∧
      (libdMemoryAlignUp value alignment).toNat ≤ value.toNat + alignment.toNat - 1 ∧
      ∀ k, alignment.toNat = 2 ^ k →
        IsLeast {m | alignment.toNat ∣ m ∧ value.toNat ≤ m}
          (libdMemoryAlignUp value alignment).toNat := by
  refine ⟨le_libdMemoryAlignUp ha hfit, libdMemoryAlignUp_le ha hfit, ?_⟩
  intro k hk
  rw [libdMemoryAlignUp_toNat hk hfit]
  exact isLeast_roundUp ha value.toNat

/-- Twice the data of two pages is no power of two: 20000 is rounded to 32832, not to 32640. -/
theorem libdMemoryAlignUp_bounds_growth :
    (libdMemoryAlignUp 20000 16320).toNat = 32832 ∧
      20000 ≤ (libdMemoryAlignUp 20000 16320).toNat ∧
      IsLeast {m | 4096 ∣ m ∧ 20000 ≤ m} (libdMemoryAlignUp 20000 4096).toNat :=
  ⟨by decide, (libdMemoryAlignUp_bounds 20000 16320 (by decide) (by decide)).1,
    (libdMemoryAlignUp_bounds 20000 4096 (by decide) (by decide)).2.2 12 rfl⟩

theorem libdMemoryAlignUp_zero (value : UInt64) : libdMemoryAlignUp value 0 = 0 := by
  simp [libdMemoryAlignUp]

end Libdane
