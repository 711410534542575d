import Libdane.Memory.PoolFreeList

/-!
# Which pointers a pool takes back

`libd_pool_allocator_free` recovers the slot index from the signed distance of the pointer. The
sign and the remainder are checked in 64 bits, the quotient only after it is narrowed to 32. A
pointer that is a slot beyond index `2 ^ 32` is therefore taken for the slot it wraps to.
-/

namespace Libdane

open PoolAllocator

/-- The pointer at distance `d` is slot `i`. -/
def IsSlotPointer (pa : PoolAllocator) (d : Int) (i : UInt32) : Prop :=
  i < pa.maxAllocations ∧ d = (pa.slotOffset i.toNat : Nat)

/-- A pointer to a slot frees that slot, and any other is refused with the pool unchanged. -/
def FreeSound (pa : PoolAllocator) (d : Int) : Prop :=
  (∃ i, IsSlotPointer pa d i ∧ (pa.ptrToIndex i : Int) = d ∧
    libdPoolAllocatorFree pa false false d = { result := .ok, pa := pa.linkFreed i }) ∨
  ((∀ i, ¬IsSlotPointer pa d i) ∧
    libdPoolAllocatorFree pa false false d = { result := .invalidPointer, pa := pa })

/-- The distance is a multiple of the slot size whose quotient does not fit 32 bits and wraps to
the index of a slot. -/
def WrapsToSlot (pa : PoolAllocator) (d : Int) : Prop :=
  ∃ q : Nat, d = (pa.slotOffset q : Nat) ∧ 2 ^ 32 ≤ q ∧ q % 2 ^ 32 < pa.maxAllocations.toNat

section Distances

variable {pa : PoolAllocator}

private theorem slotOffset_cancel (hpos : 0 < pa.bytesPerAlloc.toNat) {q r : Nat}
    (h : ((pa.slotOffset q : Nat) : Int) = (pa.slotOffset r : Nat)) : q = r :=
  Nat.eq_of_mul_eq_mul_right hpos (Int.ofNat_inj.mp h)

private theorem ofNat_lt_iff (q : Nat) :
    UInt32.ofNat q < pa.maxAllocations ↔ q % 2 ^ 32 < pa.maxAllocations.toNat := by
  rw [UInt32.lt_iff_toNat_lt, UInt32.toNat_ofNat']

private theorem free_distance_cases (pa : PoolAllocator) (d : Int) :
    (∃ q : Nat, d = (pa.slotOffset q : Nat)) ∨
      ((∀ q : Nat, d ≠ (pa.slotOffset q : Nat)) ∧
        libdPoolAllocatorFree pa false false d = { result := .invalidPointer, pa := pa }) := by
  by_cases hneg : d < 0
  · right
    constructor
    · intro q he
      omega
    · simp [libdPoolAllocatorFree, hneg]
  · obtain ⟨n, rfl⟩ := Int.eq_ofNat_of_zero_le (not_lt.mp hneg)
    by_cases hmod : n % pa.bytesPerAlloc.toNat = 0
    · left
      refine ⟨n / pa.bytesPerAlloc.toNat, ?_⟩
      rw [slotOffset, Nat.div_mul_cancel (Nat.dvd_of_mod_eq_zero hmod)]
    · right
      constructor
      · intro q he
        apply hmod
        rw [Int.ofNat_inj.mp he, slotOffset, Nat.mul_mod_left]
      · have hrem : (n : Int).tmod (pa.bytesPerAlloc.toNat : Int) ≠ 0 := by
          rw [← Int.ofNat_tmod]
          exact_mod_cast hmod
        simp [libdPoolAllocatorFree, hrem]

private theorem IsSlotPointer.of_multiple (hpos : 0 < pa.bytesPerAlloc.toNat) {q : Nat} {i : UInt32}
    (h : IsSlotPointer pa (pa.slotOffset q : Nat) i) : q < pa.maxAllocations.toNat := by
  have hq := slotOffset_cancel hpos h.2
  have hlt := UInt32.lt_iff_toNat_lt.mp h.1
  exact hq ▸ hlt

private theorem wrapsToSlot_multiple (hpos : 0 < pa.bytesPerAlloc.toNat) (q : Nat) :
    WrapsToSlot pa (pa.slotOffset q : Nat) ↔
      2 ^ 32 ≤ q ∧ q % 2 ^ 32 < pa.maxAllocations.toNat := by
  constructor
  · intro h
    obtain ⟨r, hr, hlarge, hwrap⟩ := h
    rw [slotOffset_cancel hpos hr]
    exact ⟨hlarge, hwrap⟩
  · intro h
    exact ⟨q, rfl, h⟩

private theorem FreeSound.of_slot (hpos : 0 < pa.bytesPerAlloc.toNat)
    (hroom : (pa.maxAllocations.toNat + 1) * pa.bytesPerAlloc.toNat < 2 ^ 32) {q : Nat}
    (hq : q < pa.maxAllocations.toNat) : FreeSound pa (pa.slotOffset q : Nat) := by
  have hword := pa.maxAllocations.toNat_lt
  have hindex : (UInt32.ofNat q).toNat = q := by
    rw [UInt32.toNat_ofNat']
    omega
  have hbound : UInt32.ofNat q < pa.maxAllocations := by
    rw [UInt32.lt_iff_toNat_lt, hindex]
    exact hq
  have hoffset : pa.slotOffset q < 2 ^ 32 :=
    (Nat.mul_le_mul_right _ (by omega : q ≤ pa.maxAllocations.toNat + 1)).trans_lt hroom
  rw [slotOffset] at hoffset
  left
  refine ⟨UInt32.ofNat q, ⟨hbound, by rw [hindex]⟩, ?_, ?_⟩
  · rw [ptrToIndex, byteIndex, UInt32.toNat_mul, hindex, Nat.mod_eq_of_lt hoffset, slotOffset]
  · rw [free_multiple hpos, if_neg (UInt32.not_le.mpr hbound)]

private theorem freeSound_beyond (hpos : 0 < pa.bytesPerAlloc.toNat) {q : Nat}
    (hq : pa.maxAllocations.toNat ≤ q) :
    FreeSound pa (pa.slotOffset q : Nat) ↔ pa.maxAllocations.toNat ≤ q % 2 ^ 32 := by
  have hnone : ∀ i, ¬IsSlotPointer pa (pa.slotOffset q : Nat) i := by
    intro i hi
    have hlt := hi.of_multiple hpos
    omega
  have hfree := free_multiple hpos q
  constructor
  · intro h
    by_contra hwrap
    have hbound : UInt32.ofNat q < pa.maxAllocations := (ofNat_lt_iff q).mpr (by omega)
    rw [if_neg (UInt32.not_le.mpr hbound)] at hfree
    cases h with
    | inl hslot =>
      obtain ⟨i, hi, -⟩ := hslot
      exact hnone i hi
    | inr hrefused =>
      have hresult := congrArg PoolReturn.result (hfree.symm.trans hrefused.2)
      cases hresult
  · intro hwrap
    have hbound : UInt32.ofNat q ≥ pa.maxAllocations := by
      apply UInt32.not_lt.mp
      rw [ofNat_lt_iff]
      omega
    rw [if_pos hbound] at hfree
    exact Or.inr ⟨hnone, hfree⟩

end Distances

/-- Over every distance, free takes exactly the slots back unless the distance is so large that
its quotient wraps to the index of a slot. -/
theorem libdPoolAllocatorFree_slots_iff (pa : PoolAllocator)
    (hpos : 0 < pa.bytesPerAlloc.toNat)
    (hroom : (pa.maxAllocations.toNat + 1) * pa.bytesPerAlloc.toNat < 2 ^ 32) (d : Int) :
    FreeSound pa d ↔ ¬WrapsToSlot pa d := by
  cases free_distance_cases pa d with
  | inr hrefused =>
    constructor
    · intro _ hwraps
      obtain ⟨q, hq, -⟩ := hwraps
      exact hrefused.1 q hq
    · intro _
      exact Or.inr ⟨fun i hi => hrefused.1 _ hi.2, hrefused.2⟩
  | inl hmultiple =>
    obtain ⟨q, rfl⟩ := hmultiple
    rw [wrapsToSlot_multiple hpos]
    by_cases hq : q < pa.maxAllocations.toNat
    · have hsound := FreeSound.of_slot hpos hroom hq
      have hword := pa.maxAllocations.toNat_lt
      constructor
      · intro _ hwraps
        omega
      · intro _
        exact hsound
    · rw [freeSound_beyond hpos (not_lt.mp hq)]
      have hmod := Nat.mod_le q (2 ^ 32)
      have hword := pa.maxAllocations.toNat_lt
      constructor
      · intro hwrap hwraps
        omega
      · intro hwraps
        by_contra hwrap
        apply hwraps
        constructor
        · by_contra hsmall
          rw [Nat.mod_eq_of_lt (not_le.mp hsmall)] at hwrap
          omega
        · omega

/-- The second of three slots. -/
theorem libdPoolAllocatorFree_slots_iff_three_slots :
    FreeSound threeSlots 8 ↔ ¬WrapsToSlot threeSlots 8 :=
  libdPoolAllocatorFree_slots_iff threeSlots (by decide) (by decide) 8

/-- A pointer 32 GiB behind the data of a pool of eight-byte slots frees its first slot. -/
theorem libdPoolAllocatorFree_slots_wraps :
    (threeSlots.maxAllocations.toNat + 1) * threeSlots.bytesPerAlloc.toNat < 2 ^ 32 ∧
      (libdPoolAllocatorFree threeSlots false false (2 ^ 35)).result = .ok ∧
      ¬FreeSound threeSlots (2 ^ 35) := by
  have hdistance : (2 ^ 35 : Int) = (threeSlots.slotOffset (2 ^ 32) : Nat) := by decide
  have hpos : 0 < threeSlots.bytesPerAlloc.toNat := by decide
  refine ⟨by decide, by decide, ?_⟩
  rw [hdistance, freeSound_beyond hpos (by decide)]
  decide

end Libdane
