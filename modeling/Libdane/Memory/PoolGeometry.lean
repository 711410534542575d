import Libdane.Memory.PoolAllocator

/-!
# The geometry of a pool

Slot sizes are rounded in 64 bits and stored in 32, and the size of the data region is a 32-bit
product. The slots are disjoint, aligned and inside the block exactly when that product is exact.
-/

namespace Libdane

open MaskRounding

namespace PoolAllocator

/-- The slots, the terminal one included, have distinct 32-bit byte offsets. -/
structure Geometry (pa : PoolAllocator) : Prop where
  slots : 0 < pa.maxAllocations.toNat
  node : 4 ≤ pa.bytesPerAlloc.toNat
  room : (pa.maxAllocations.toNat + 1) * pa.bytesPerAlloc.toNat < 2 ^ 32

/-- The byte distance of slot `i` in exact arithmetic. -/
def slotOffset (pa : PoolAllocator) (i : Nat) : Nat := i * pa.bytesPerAlloc.toNat

theorem Geometry.congr {pa other : PoolAllocator} (h : pa.Geometry)
    (hmax : other.maxAllocations = pa.maxAllocations)
    (hbytes : other.bytesPerAlloc = pa.bytesPerAlloc) : other.Geometry := by
  refine ⟨?_, ?_, ?_⟩
  · rw [hmax]
    exact h.slots
  · rw [hbytes]
    exact h.node
  · rw [hmax, hbytes]
    exact h.room

private theorem Geometry.slotOffset_lt {pa : PoolAllocator} (h : pa.Geometry) {i : Nat}
    (hi : i ≤ pa.maxAllocations.toNat) : pa.slotOffset i < 2 ^ 32 := by
  have hle : pa.slotOffset i ≤ (pa.maxAllocations.toNat + 1) * pa.bytesPerAlloc.toNat :=
    Nat.mul_le_mul_right _ (by omega)
  exact hle.trans_lt h.room

theorem Geometry.ptrToIndex_eq {pa : PoolAllocator} (h : pa.Geometry) {i : UInt32}
    (hi : i.toNat ≤ pa.maxAllocations.toNat) : pa.ptrToIndex i = pa.slotOffset i.toNat := by
  have hlt := h.slotOffset_lt hi
  rw [slotOffset] at hlt
  rw [ptrToIndex, byteIndex, UInt32.toNat_mul, Nat.mod_eq_of_lt hlt, slotOffset]

theorem Geometry.slotOffset_inj {pa : PoolAllocator} (h : pa.Geometry) {i j : Nat} :
    pa.slotOffset i = pa.slotOffset j ↔ i = j := by
  have hpos : 0 < pa.bytesPerAlloc.toNat := by
    have := h.node
    omega
  exact Nat.mul_left_inj hpos.ne'

theorem slotOffset_separate (pa : PoolAllocator) {i j : Nat} (hne : i ≠ j) :
    pa.slotOffset i + pa.bytesPerAlloc.toNat ≤ pa.slotOffset j ∨
      pa.slotOffset j + pa.bytesPerAlloc.toNat ≤ pa.slotOffset i := by
  rcases Nat.lt_or_gt_of_ne hne with hlt | hlt
  · left
    calc pa.slotOffset i + pa.bytesPerAlloc.toNat = (i + 1) * pa.bytesPerAlloc.toNat := by
          rw [slotOffset, Nat.succ_mul]
      _ ≤ pa.slotOffset j := Nat.mul_le_mul_right _ hlt
  · right
    calc pa.slotOffset j + pa.bytesPerAlloc.toNat = (j + 1) * pa.bytesPerAlloc.toNat := by
          rw [slotOffset, Nat.succ_mul]
      _ ≤ pa.slotOffset i := Nat.mul_le_mul_right _ hlt

end PoolAllocator

open PoolAllocator

private theorem alignedSizeofFreeNode_toNat : alignedSizeofFreeNode.toNat = 4 := by decide

private theorem roundUp_le_two_pow {bytes alignment : Nat} {k : Nat} (hk : k ≤ 4)
    (ha : alignment = 2 ^ k) (hb : bytes < 2 ^ 32) : roundUp bytes alignment ≤ 2 ^ 32 := by
  subst ha
  exact roundUp_le (Nat.two_pow_pos k) (pow_dvd_pow 2 (by omega)) hb.le

private theorem alignment_dvd_slot {bytes alignment k : Nat} (hk : k ≤ 4) (ha : alignment = 2 ^ k)
    (hb : 0 < bytes) : alignment ∣ max 4 (roundUp bytes alignment) := by
  have hpos : 0 < alignment := ha ▸ Nat.two_pow_pos k
  by_cases hsmall : roundUp bytes alignment < 4
  · have hle := roundUp_pos hpos hb
    rw [max_eq_left hsmall.le, ha]
    change 2 ^ k ∣ 2 ^ 2
    apply pow_dvd_pow
    by_contra hk2
    have : 2 ^ 2 ≤ 2 ^ k := Nat.pow_le_pow_right (by decide) (by omega)
    omega
  · rw [max_eq_right (by omega)]
    exact dvd_roundUp _ _

theorem alignedBytesPerAlloc_toNat (bytesPerAlloc : UInt32) {alignment : UInt8} {k : Nat}
    (ha : alignment.toNat = 2 ^ k) :
    (alignedBytesPerAlloc bytesPerAlloc alignment).toNat =
      max 4 (roundUp bytesPerAlloc.toNat alignment.toNat % 2 ^ 32) := by
  have hbytes := bytesPerAlloc.toNat_lt
  have halign := alignment.toNat_lt
  have hround : (libdMemoryAlignUp bytesPerAlloc.toUInt64 alignment.toUInt64).toNat =
      roundUp bytesPerAlloc.toNat alignment.toNat := by
    apply libdMemoryAlignUp_toNat (k := k)
    · simpa using ha
    · simp only [UInt32.toNat_toUInt64, UInt8.toNat_toUInt64]
      omega
  have hlt : ((libdMemoryAlignUp bytesPerAlloc.toUInt64 alignment.toUInt64).toUInt32.toUInt64 <
      alignedSizeofFreeNode) ↔ roundUp bytesPerAlloc.toNat alignment.toNat % 2 ^ 32 < 4 := by
    rw [UInt64.lt_iff_toNat_lt, alignedSizeofFreeNode_toNat, UInt32.toNat_toUInt64,
      UInt64.toNat_toUInt32, hround]
  unfold alignedBytesPerAlloc
  by_cases hsmall : roundUp bytesPerAlloc.toNat alignment.toNat % 2 ^ 32 < 4
  · rw [if_pos (hlt.mpr hsmall), max_eq_left hsmall.le]
    decide
  · rw [if_neg (fun h => hsmall (hlt.mp h)), UInt64.toNat_toUInt32, hround, max_eq_right]
    omega

theorem libdPoolAllocatorCreate_ok {malloc : UInt64 → Option (Nat → UInt8)} {outPaNull : Bool}
    {maxAllocations bytesPerAlloc : UInt32} {alignment : UInt8}
    (h : (libdPoolAllocatorCreate malloc outPaNull maxAllocations bytesPerAlloc alignment).result =
      .ok) :
    maxAllocations ≠ 0 ∧ bytesPerAlloc ≠ 0 ∧ libdMemoryIsValidAlignment alignment = true ∧
      maxAllocations ≠ u32Max ∧ ∃ block,
      libdPoolAllocatorCreate malloc outPaNull maxAllocations bytesPerAlloc alignment =
        { result := .ok
          outPa := some (initializeFreeList
            { maxAllocations := maxAllocations
              bytesPerAlloc := alignedBytesPerAlloc bytesPerAlloc alignment
              headIndex := 0, tailIndex := 0, data := block, touched := [] }).pa
          mallocSize := some (sizeofPoolAllocator +
            ((maxAllocations + 1) * alignedBytesPerAlloc bytesPerAlloc alignment).toUInt64 +
            alignment.toUInt64 - 1) } := by
  unfold libdPoolAllocatorCreate at h ⊢
  split at h
  · contradiction
  rename_i hparams
  split at h
  · contradiction
  rename_i halign
  split at h
  · contradiction
  rename_i hmax
  dsimp only at h
  split at h
  · contradiction
  rename_i block hblock
  rw [if_neg hparams, if_neg halign, if_neg hmax]
  simp only [Bool.or_eq_true, beq_iff_eq, not_or] at hparams
  refine ⟨hparams.1.2, hparams.2, by simpa using halign, by simpa using hmax, block, ?_⟩
  simp only [hblock]
  rfl

/-- The requested block has room for every slot, and every slot keeps what was asked for. -/
structure PoolLayoutSound (pa : PoolAllocator) (bytesPerAlloc : UInt32) (alignment : UInt8)
    (base : Nat) (mallocSize : UInt64) : Prop where
  covers : bytesPerAlloc.toNat ≤ pa.bytesPerAlloc.toNat
  multiple : alignment.toNat ∣ pa.bytesPerAlloc.toNat
  holdsNode : sizeofFreeNode.toNat ≤ pa.bytesPerAlloc.toNat
  room : (pa.maxAllocations.toNat + 1) * pa.bytesPerAlloc.toNat ≤
    mallocSize.toNat - sizeofPoolAllocator.toNat
  exact_offset : ∀ i ≤ pa.maxAllocations,
    (pa.byteIndex i).toNat = i.toNat * pa.bytesPerAlloc.toNat
  disjoint : ∀ i ≤ pa.maxAllocations, ∀ j ≤ pa.maxAllocations, i ≠ j →
    (pa.byteIndex i).toNat + pa.bytesPerAlloc.toNat ≤ (pa.byteIndex j).toNat ∨
      (pa.byteIndex j).toNat + pa.bytesPerAlloc.toNat ≤ (pa.byteIndex i).toNat
  aligned : ∀ i ≤ pa.maxAllocations,
    alignment.toNat ∣ base + sizeofPoolAllocator.toNat + (pa.byteIndex i).toNat
  inside : ∀ i ≤ pa.maxAllocations,
    sizeofPoolAllocator.toNat + (pa.byteIndex i).toNat + pa.bytesPerAlloc.toNat ≤ mallocSize.toNat

private theorem PoolLayoutSound.of_geometry {pa : PoolAllocator} {bytesPerAlloc : UInt32}
    {alignment : UInt8} {base k : Nat} {mallocSize : UInt64} (hg : pa.Geometry) (hk : k ≤ 4)
    (ha : alignment.toNat = 2 ^ k) (hbase : libdMaxAlign.toNat ∣ base)
    (hcovers : bytesPerAlloc.toNat ≤ pa.bytesPerAlloc.toNat)
    (hmultiple : alignment.toNat ∣ pa.bytesPerAlloc.toNat)
    (hroom : (pa.maxAllocations.toNat + 1) * pa.bytesPerAlloc.toNat + sizeofPoolAllocator.toNat ≤
      mallocSize.toNat) :
    PoolLayoutSound pa bytesPerAlloc alignment base mallocSize := by
  have hoffset : ∀ i ≤ pa.maxAllocations, (pa.byteIndex i).toNat = pa.slotOffset i.toNat :=
    fun i hi => hg.ptrToIndex_eq (UInt32.le_iff_toNat_le.mp hi)
  have hunit : alignment.toNat ∣ 16 := by
    rw [ha]
    exact pow_dvd_pow 2 hk
  refine ⟨hcovers, hmultiple, hg.node, by omega, hoffset, ?_, ?_, ?_⟩
  · intro i hi j hj hne
    rw [hoffset i hi, hoffset j hj]
    exact pa.slotOffset_separate fun he => hne (UInt32.toNat_inj.mp he)
  · intro i hi
    rw [hoffset i hi]
    exact ((hunit.trans hbase).add hunit).add (hmultiple.mul_left _)
  · intro i hi
    have hle : i.toNat ≤ pa.maxAllocations.toNat := UInt32.le_iff_toNat_le.mp hi
    have hlast : pa.slotOffset i.toNat + pa.bytesPerAlloc.toNat ≤
        (pa.maxAllocations.toNat + 1) * pa.bytesPerAlloc.toNat := by
      rw [slotOffset, ← Nat.succ_mul]
      exact Nat.mul_le_mul_right _ (by omega)
    rw [hoffset i hi]
    omega

private theorem succ_maxAllocations_toNat {maxAllocations : UInt32}
    (hlimit : maxAllocations ≠ u32Max) :
    (maxAllocations + 1).toNat = maxAllocations.toNat + 1 := by
  have hne : maxAllocations.toNat ≠ 2 ^ 32 - 1 := fun he => hlimit (UInt32.toNat_inj.mp he)
  have hlt := maxAllocations.toNat_lt
  rw [UInt32.toNat_add]
  exact Nat.mod_eq_of_lt (by simp only [UInt32.reduceToNat]; omega)

private theorem totalSize_toNat {alignment : UInt8} (hunit : 0 < alignment.toNat)
    (dataSize : UInt32) :
    (sizeofPoolAllocator + dataSize.toUInt64 + alignment.toUInt64 - 1).toNat =
      16 + dataSize.toNat + alignment.toNat - 1 := by
  have hdata := dataSize.toNat_lt
  have halign := alignment.toNat_lt
  have hsum : (sizeofPoolAllocator + dataSize.toUInt64 + alignment.toUInt64).toNat =
      16 + dataSize.toNat + alignment.toNat := by
    simp only [UInt64.toNat_add, UInt32.toNat_toUInt64, UInt8.toNat_toUInt64]
    simp only [sizeofPoolAllocator, UInt64.reduceToNat]
    omega
  rw [UInt64.toNat_sub_of_le, hsum]
  · rfl
  · rw [UInt64.le_iff_toNat_le, hsum]
    simp only [UInt64.reduceToNat]
    omega

/-- The geometry of a created pool is sound exactly when `max_allocations + 1` slots of the rounded
size stay below `2 ^ 32` in exact arithmetic. -/
theorem libdPoolAllocatorCreate_layout_iff (malloc : UInt64 → Option (Nat → UInt8))
    (outPaNull : Bool) (maxAllocations bytesPerAlloc : UInt32) (alignment : UInt8)
    (pa : PoolAllocator) (mallocSize : UInt64) (base : Nat) (hbase : libdMaxAlign.toNat ∣ base)
    (hcreate : libdPoolAllocatorCreate malloc outPaNull maxAllocations bytesPerAlloc alignment =
      { result := .ok, outPa := some pa, mallocSize := some mallocSize }) :
    PoolLayoutSound pa bytesPerAlloc alignment base mallocSize ↔
      (maxAllocations.toNat + 1) * max 4 (roundUp bytesPerAlloc.toNat alignment.toNat) <
        2 ^ 32 := by
  obtain ⟨hmax, hbytes, halign, hlimit, block, heq⟩ :=
    libdPoolAllocatorCreate_ok (congrArg PoolCreateReturn.result hcreate)
  rw [heq] at hcreate
  obtain ⟨k, hk, ha⟩ := (libdMemoryIsValidAlignment_iff alignment).mp halign
  simp only [PoolCreateReturn.mk.injEq, Option.some.injEq, true_and] at hcreate
  obtain ⟨hpa, hsize⟩ := hcreate
  have hslot := alignedBytesPerAlloc_toNat bytesPerAlloc ha
  have hpaMax : pa.maxAllocations = maxAllocations := by simp [← hpa]
  have hpaSlot : pa.bytesPerAlloc = alignedBytesPerAlloc bytesPerAlloc alignment := by simp [← hpa]
  have hpos : 0 < maxAllocations.toNat := by
    rw [Nat.pos_iff_ne_zero]
    exact fun he => hmax (UInt32.toNat_inj.mp he)
  have hbytesLt := bytesPerAlloc.toNat_lt
  have hunit : 0 < alignment.toNat := ha ▸ Nat.two_pow_pos k
  have hunitLe : alignment.toNat ≤ 16 := ha ▸ Nat.pow_le_pow_right (by decide) hk
  have hcover := le_roundUp hunit bytesPerAlloc.toNat
  have hround := roundUp_le_two_pow hk ha hbytesLt
  have hroundLt := roundUp_lt_add hunit bytesPerAlloc.toNat
  let product := (maxAllocations.toNat + 1) * pa.bytesPerAlloc.toNat
  have hdata : ((maxAllocations + 1) * alignedBytesPerAlloc bytesPerAlloc alignment).toNat =
      product % 2 ^ 32 := by
    rw [UInt32.toNat_mul, succ_maxAllocations_toNat hlimit, ← hpaSlot]
  have htotal : mallocSize.toNat = 16 + product % 2 ^ 32 + alignment.toNat - 1 := by
    rw [← hsize, totalSize_toNat hunit, hdata]
  rw [← hpaSlot] at hslot
  constructor
  · intro h
    have hexact : product < 2 ^ 32 := by
      have hroom := h.room
      rw [hpaMax] at hroom
      change product ≤ mallocSize.toNat - 16 at hroom
      omega
    -- a rounding that reaches `2 ^ 32` stores a slot of four bytes, below the request
    have hnarrow : roundUp bytesPerAlloc.toNat alignment.toNat < 2 ^ 32 := by
      by_contra hge
      have heq : roundUp bytesPerAlloc.toNat alignment.toNat = 2 ^ 32 := by omega
      rw [heq] at hslot
      have hcovers := h.covers
      rw [hslot] at hcovers
      omega
    rw [Nat.mod_eq_of_lt hnarrow] at hslot
    rw [← hslot]
    exact hexact
  · intro h
    have hnarrow : roundUp bytesPerAlloc.toNat alignment.toNat < 2 ^ 32 := by
      refine lt_of_le_of_lt ?_ h
      calc roundUp bytesPerAlloc.toNat alignment.toNat
          ≤ 1 * max 4 (roundUp bytesPerAlloc.toNat alignment.toNat) := by
            rw [one_mul]
            exact le_max_right _ _
        _ ≤ _ := Nat.mul_le_mul_right _ (by omega)
    rw [Nat.mod_eq_of_lt hnarrow] at hslot
    rw [← hslot] at h
    have hexact : product < 2 ^ 32 := h
    have hg : pa.Geometry := by
      refine ⟨hpaMax ▸ hpos, ?_, ?_⟩
      · rw [hslot]
        exact le_max_left _ _
      · rw [hpaMax]
        exact hexact
    refine PoolLayoutSound.of_geometry hg hk ha hbase ?_ ?_ ?_
    · rw [hslot]
      exact hcover.trans (le_max_right _ _)
    · rw [hslot]
      exact alignment_dvd_slot hk ha (Nat.pos_of_ne_zero fun he => hbytes (UInt32.toNat_inj.mp he))
    · rw [hpaMax]
      change product + 16 ≤ mallocSize.toNat
      rw [htotal, Nat.mod_eq_of_lt hexact]
      omega

/-- A block of zero bytes for every request. -/
def zeroMalloc : UInt64 → Option (Nat → UInt8) := fun _ => some fun _ => 0

theorem libdPoolAllocatorCreate_layout_iff_two_slots :
    PoolLayoutSound (initializeFreeList
      { maxAllocations := 2, bytesPerAlloc := 4, headIndex := 0, tailIndex := 0,
        data := fun _ => 0, touched := [] }).pa 3 2 4096 29 ↔
      (2 + 1) * max 4 (roundUp 3 2) < 2 ^ 32 :=
  libdPoolAllocatorCreate_layout_iff zeroMalloc false 2 3 2 _ 29 4096 (by decide) rfl

/-- One allocation of `2 ^ 31` bytes wraps the product to zero: `malloc` is asked for the header
alone and the first slot lies outside the block. -/
theorem libdPoolAllocatorCreate_layout_wraps :
    ∃ pa, libdPoolAllocatorCreate zeroMalloc false 1 0x80000000 1 =
        { result := .ok, outPa := some pa, mallocSize := some 16 } ∧
      ¬PoolLayoutSound pa 0x80000000 1 4096 16 := by
  refine ⟨_, rfl, ?_⟩
  intro h
  exact absurd h.room (by decide)

end Libdane
