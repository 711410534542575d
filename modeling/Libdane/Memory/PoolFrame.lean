import Libdane.Memory.PoolFreeList

/-!
# What the pool never touches

The allocator writes links only into free slots. A slot that stays with the client keeps every
byte, and no slot beyond the last one is read or written.
-/

namespace Libdane

open LittleEndian PoolAllocator

private theorem storeLink_data_other {pa : PoolAllocator} (hg : pa.Geometry) {i link : UInt32}
    {j k : Nat}
    (hi : i.toNat < pa.maxAllocations.toNat) (hne : j ≠ i.toNat) (hk : k < pa.bytesPerAlloc.toNat) :
    (pa.storeLink i link).data (pa.slotOffset j + k) = pa.data (pa.slotOffset j + k) := by
  have hnode := hg.node
  have hsep := pa.slotOffset_separate hne
  have hptr := hg.ptrToIndex_eq hi.le
  apply store_outside
  rw [hptr]
  change _ ∨ pa.slotOffset i.toNat + 4 ≤ _
  omega

namespace PoolInv

variable {s : PoolSystem}

theorem alloc_data (s : PoolSystem) :
    (libdPoolAllocatorAlloc s.pool false false).pa.data = s.pool.data := by
  by_cases hfull : s.pool.headIndex = s.pool.maxAllocations
  · rw [alloc_full hfull]
  · rw [alloc_slot hfull]

theorem free_data (h : PoolInv s) {freed pointer k : Nat} (hfreed : freed ∈ s.live)
    (hp : pointer ∈ s.live) (hne : pointer ≠ freed) (hk : k < s.pool.bytesPerAlloc.toNat) :
    (libdPoolAllocatorFree s.pool false false freed).pa.data (pointer + k) =
      s.pool.data (pointer + k) := by
  obtain ⟨i, hi, rfl⟩ := h.live_index hfreed
  obtain ⟨j, hj, rfl⟩ := h.live_slot pointer hp
  have hlt : i.toNat < s.pool.maxAllocations.toNat := UInt32.lt_iff_toNat_lt.mp hi
  have hji : j ≠ i.toNat := fun he => hne (he ▸ rfl)
  rw [free_slot h.geometry hi]
  by_cases hhead : i < s.pool.headIndex
  · rw [linkFreed_front hhead]
    exact storeLink_data_other h.geometry hlt hji hk
  · obtain ⟨htail, hdead⟩ := h.tail_slot hi hhead
    have hjt : j ≠ s.pool.tailIndex.toNat := fun he => hdead (he ▸ hp)
    have hg' : (s.pool.storeLink s.pool.tailIndex i).Geometry := h.geometry.congr rfl rfl
    rw [linkFreed_back (fun he => UInt32.lt_irrefl _ (he ▸ hi)) hhead]
    calc ((s.pool.storeLink s.pool.tailIndex i).storeLink i s.pool.maxAllocations).data
          (s.pool.slotOffset j + k)
        = (s.pool.storeLink s.pool.tailIndex i).data (s.pool.slotOffset j + k) :=
          storeLink_data_other hg' hlt hji hk
      _ = s.pool.data (s.pool.slotOffset j + k) :=
          storeLink_data_other h.geometry htail hjt hk

end PoolInv

/-- In every reachable state, allocating or freeing keeps every byte of the slots that stay with
the client, the allocator has touched only slots below `max_allocations`, and a free that writes
through `tail_index` writes into a free slot. -/
theorem pool_frame (malloc : UInt64 → Option (Nat → UInt8)) (outPaNull : Bool)
    (maxAllocations bytesPerAlloc : UInt32) (alignment : UInt8) (pa : PoolAllocator)
    (mallocSize : Option UInt64)
    (hcreate : libdPoolAllocatorCreate malloc outPaNull maxAllocations bytesPerAlloc alignment =
      { result := .ok, outPa := some pa, mallocSize := mallocSize })
    (hroom : (pa.maxAllocations.toNat + 1) * pa.bytesPerAlloc.toNat < 2 ^ 32)
    (ops : List PoolOp) (s : PoolSystem)
    (hrun : PoolSystem.run (PoolSystem.start pa) ops = some s) :
    (∀ pointer ∈ s.live, ∀ k < s.pool.bytesPerAlloc.toNat,
      (libdPoolAllocatorAlloc s.pool false false).pa.data (pointer + k) =
        s.pool.data (pointer + k)) ∧
    (∀ freed ∈ s.live, ∀ pointer ∈ s.live, pointer ≠ freed →
      ∀ k < s.pool.bytesPerAlloc.toNat,
        (libdPoolAllocatorFree s.pool false false freed).pa.data (pointer + k) =
          s.pool.data (pointer + k)) ∧
    (∀ i ∈ s.pool.touched, i.toNat < pa.maxAllocations.toNat) ∧
    (∀ i : UInt32, s.pool.slotOffset i.toNat ∈ s.live → ¬i < s.pool.headIndex →
      s.pool.tailIndex.toNat < pa.maxAllocations.toNat ∧
        s.pool.slotOffset s.pool.tailIndex.toNat ∉ s.live) := by
  have hstart := PoolInv.create hcreate hroom
  have hinv := hstart.run hrun
  have hshape : s.pool.maxAllocations = pa.maxAllocations := (hstart.run_shape hrun).1
  rw [← hshape]
  refine ⟨?_, ?_, hinv.touched_slot, ?_⟩
  · intro pointer _ k _
    rw [PoolInv.alloc_data]
  · intro freed hfreed pointer hp hne k hk
    exact hinv.free_data hfreed hp hne hk
  · intro i hlive hhead
    obtain ⟨j, hj, he⟩ := hinv.live_slot _ hlive
    have hij : i.toNat = j := hinv.geometry.slotOffset_inj.mp he
    have hi : i < s.pool.maxAllocations := by
      rw [UInt32.lt_iff_toNat_lt, hij]
      exact hj
    exact hinv.tail_slot hi hhead

/-- Two of three slots live, with one of them freed in between. -/
theorem pool_frame_three_slots :
    ∃ s, PoolSystem.run (PoolSystem.start threeSlots)
        [.alloc, .alloc, .write 8 7 9, .free 0, .alloc] = some s ∧
      ∀ i ∈ s.pool.touched, i.toNat < 3 := by
  obtain ⟨s, hrun⟩ : ∃ s, PoolSystem.run (PoolSystem.start threeSlots)
      [.alloc, .alloc, .write 8 7 9, .free 0, .alloc] = some s := ⟨_, rfl⟩
  exact ⟨s, hrun, (pool_frame zeroMalloc false 3 5 8 threeSlots (some 55) rfl (by decide) _ s
    hrun).2.2.1⟩

end Libdane
