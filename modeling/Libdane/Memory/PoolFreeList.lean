import Libdane.Memory.PoolFreeChain

/-!
# The free list of a pool over whole runs

The list stored inside the free slots is an acyclic chain from `head_index` to the terminal index.
It visits exactly the slots that no client holds, and its last node is `tail_index`. Each
operation is proved to keep this, so it holds after every run of a client.
-/

namespace Libdane

open LittleEndian LinkedChain PoolAllocator

namespace PoolInv

variable {s : PoolSystem}

theorem head_slot (h : PoolInv s) (hne : s.pool.headIndex ≠ s.pool.maxAllocations) :
    s.pool.headIndex.toNat < s.pool.maxAllocations.toNat ∧
      s.pool.slotOffset s.pool.headIndex.toNat ∉ s.live := by
  obtain ⟨chain, hchain⟩ := h.chain
  obtain ⟨rest, rfl, _⟩ := hchain.alloc h.geometry hne
  exact (hchain.mem_iff _).mp (by simp)

theorem tail_slot (h : PoolInv s) {i : UInt32} (hi : i < s.pool.maxAllocations)
    (hhead : ¬i < s.pool.headIndex) :
    s.pool.tailIndex.toNat < s.pool.maxAllocations.toNat ∧
      s.pool.slotOffset s.pool.tailIndex.toNat ∉ s.live := by
  obtain ⟨chain, hchain⟩ := h.chain
  have hne : chain ≠ [] := fun he => hhead (hchain.nil_iff_head.mp he ▸ hi)
  exact (hchain.mem_iff _).mp (hchain.tail_free hne)

theorem live_index (h : PoolInv s) {pointer : Nat} (hp : pointer ∈ s.live) :
    ∃ i : UInt32, i < s.pool.maxAllocations ∧ pointer = s.pool.slotOffset i.toNat := by
  obtain ⟨i, hi, rfl⟩ := h.live_slot pointer hp
  have hnat := toNat_ofNat_slot hi
  refine ⟨UInt32.ofNat i, ?_, ?_⟩
  · rw [UInt32.lt_iff_toNat_lt, hnat]
    exact hi
  · rw [hnat]

private theorem alloc (h : PoolInv s) (hne : s.pool.headIndex ≠ s.pool.maxAllocations) :
    PoolInv
      { pool := (libdPoolAllocatorAlloc s.pool false false).pa
        live := insert (s.pool.slotOffset s.pool.headIndex.toNat) s.live } := by
  obtain ⟨chain, hchain⟩ := h.chain
  obtain ⟨rest, -, hrest⟩ := hchain.alloc h.geometry hne
  have hhead := (h.head_slot hne).1
  refine ⟨?_, ⟨rest, hrest⟩, ?_, ?_⟩
  · rw [alloc_slot hne]
    exact h.geometry.congr rfl rfl
  · rw [alloc_slot hne]
    intro pointer hp
    rcases Finset.mem_insert.mp hp with rfl | hp
    · exact ⟨_, hhead, rfl⟩
    · exact h.live_slot pointer hp
  · rw [alloc_slot hne]
    intro i hi
    rcases List.mem_cons.mp hi with rfl | hi
    · exact hhead
    · exact h.touched_slot i hi

private theorem free (h : PoolInv s) {i : UInt32} (hi : i < s.pool.maxAllocations)
    (hlive : s.pool.slotOffset i.toNat ∈ s.live) :
    PoolInv
      { pool := s.pool.linkFreed i, live := s.live.erase (s.pool.slotOffset i.toNat) } := by
  obtain ⟨chain, hchain⟩ := h.chain
  have hgrown := hchain.free h.geometry hi hlive
  have hlt : i.toNat < s.pool.maxAllocations.toNat := UInt32.lt_iff_toNat_lt.mp hi
  have hne : i ≠ s.pool.maxAllocations := fun he => UInt32.lt_irrefl _ (he ▸ hi)
  have hlive' : ∀ pointer ∈ s.live.erase (s.pool.slotOffset i.toNat),
      ∃ j < s.pool.maxAllocations.toNat, pointer = s.pool.slotOffset j :=
    fun pointer hp => h.live_slot pointer (Finset.mem_of_mem_erase hp)
  by_cases hhead : i < s.pool.headIndex
  · rw [linkFreed_front hhead] at hgrown ⊢
    refine ⟨h.geometry.congr rfl rfl, hgrown, hlive', ?_⟩
    intro j hj
    rcases List.mem_cons.mp hj with rfl | hj
    · exact hlt
    · exact h.touched_slot j hj
  · have htail := (h.tail_slot hi hhead).1
    rw [linkFreed_back hne hhead] at hgrown ⊢
    refine ⟨h.geometry.congr rfl rfl, hgrown, hlive', ?_⟩
    intro j hj
    rcases List.mem_cons.mp hj with rfl | hj
    · exact hlt
    · rcases List.mem_cons.mp hj with rfl | hj
      · exact htail
      · exact h.touched_slot j hj

theorem init {pa : PoolAllocator} (hg : pa.Geometry)
    (htouched : ∀ i ∈ pa.touched, i.toNat < pa.maxAllocations.toNat) :
    PoolInv (PoolSystem.start (initializeFreeList pa).pa) := by
  refine ⟨?_, ⟨_, FreeChain.init hg⟩, ?_, ?_⟩
  · exact hg.congr (initializeFreeList_maxAllocations pa) (initializeFreeList_bytesPerAlloc pa)
  · intro pointer hp
    simp [PoolSystem.start] at hp
  · intro i hi
    simp only [PoolSystem.start, initializeFreeList_maxAllocations]
    rcases initializeFreeList_touched hg hi with hlt | hmem
    · exact hlt
    · exact htouched i hmem

private theorem write (h : PoolInv s) {pointer offset : Nat} (byte : UInt8) (hp : pointer ∈ s.live)
    (hoffset : offset < s.pool.bytesPerAlloc.toNat) :
    PoolInv { s with pool := { s.pool with
      data := Function.update s.pool.data (pointer + offset) byte } } := by
  obtain ⟨chain, hchain⟩ := h.chain
  refine ⟨h.geometry.congr rfl rfl, ⟨chain, ?_⟩, h.live_slot, h.touched_slot⟩
  refine ⟨?_, hchain.nodup, hchain.mem_iff, hchain.last, hchain.full_iff⟩
  apply hchain.linked.congr
  intro j hj
  have hdead := ((hchain.mem_iff j).mp hj).2
  obtain ⟨i, -, rfl⟩ := h.live_slot pointer hp
  have hne : i ≠ j := fun he => hdead (he ▸ hp)
  have hsep := s.pool.slotOffset_separate hne
  have hnode := h.geometry.node
  apply load_congr
  intro k hk
  change Function.update s.pool.data _ byte (s.pool.slotOffset j + k) = _
  rw [Function.update_of_ne (by omega)]
  rfl

theorem step {op : PoolOp} {next : PoolSystem} (h : PoolInv s)
    (hstep : PoolSystem.step s op = some next) : PoolInv next := by
  cases op with
  | alloc =>
    by_cases hfull : s.pool.headIndex = s.pool.maxAllocations
    · simp only [PoolSystem.step, alloc_full hfull, Option.some.injEq] at hstep
      subst hstep
      simpa using h
    · have hnext := h.alloc hfull
      have hptr := h.geometry.ptrToIndex_eq (h.head_slot hfull).1.le
      simp only [PoolSystem.step, Option.some.injEq] at hstep
      subst hstep
      convert hnext using 2
      rw [alloc_slot hfull, hptr]
      ext pointer
      simp [or_comm]
  | free pointer =>
    by_cases hp : pointer ∈ s.live
    · obtain ⟨i, hi, rfl⟩ := h.live_index hp
      simp only [PoolSystem.step, hp, if_true, free_slot h.geometry hi, Option.some.injEq] at hstep
      subst hstep
      exact h.free hi hp
    · simp [PoolSystem.step, hp] at hstep
  | reset =>
    simp only [PoolSystem.step, Option.some.injEq] at hstep
    subst hstep
    exact PoolInv.init h.geometry h.touched_slot
  | write pointer offset byte =>
    by_cases hp : pointer ∈ s.live ∧ offset < s.pool.bytesPerAlloc.toNat
    · simp only [PoolSystem.step, hp, and_self, if_true, Option.some.injEq] at hstep
      subst hstep
      exact h.write byte hp.1 hp.2
    · rw [PoolSystem.step, if_neg hp] at hstep
      contradiction

theorem step_shape {op : PoolOp} {next : PoolSystem} (h : PoolInv s)
    (hstep : PoolSystem.step s op = some next) :
    next.pool.maxAllocations = s.pool.maxAllocations ∧
      next.pool.bytesPerAlloc = s.pool.bytesPerAlloc := by
  cases op with
  | alloc =>
    simp only [PoolSystem.step, Option.some.injEq] at hstep
    subst hstep
    by_cases hfull : s.pool.headIndex = s.pool.maxAllocations
    · simp [alloc_full hfull]
    · simp [alloc_slot hfull]
  | free pointer =>
    by_cases hp : pointer ∈ s.live
    · obtain ⟨i, hi, rfl⟩ := h.live_index hp
      simp only [PoolSystem.step, hp, if_true, free_slot h.geometry hi, Option.some.injEq] at hstep
      subst hstep
      simp
    · simp [PoolSystem.step, hp] at hstep
  | reset =>
    simp only [PoolSystem.step, Option.some.injEq] at hstep
    subst hstep
    simp [libdPoolAllocatorReset]
  | write pointer offset byte =>
    by_cases hp : pointer ∈ s.live ∧ offset < s.pool.bytesPerAlloc.toNat
    · simp only [PoolSystem.step, hp, and_self, if_true, Option.some.injEq] at hstep
      subst hstep
      simp
    · rw [PoolSystem.step, if_neg hp] at hstep
      contradiction

theorem run {ops : List PoolOp} {final : PoolSystem} (h : PoolInv s)
    (hrun : PoolSystem.run s ops = some final) : PoolInv final :=
  PartialRuns.run_invariant PoolInv (fun _ _ _ hs hstep => hs.step hstep) h hrun

theorem run_shape {ops : List PoolOp} {final : PoolSystem} (h : PoolInv s)
    (hrun : PoolSystem.run s ops = some final) :
    final.pool.maxAllocations = s.pool.maxAllocations ∧
      final.pool.bytesPerAlloc = s.pool.bytesPerAlloc := by
  apply (PartialRuns.run_invariant (fun next => PoolInv next ∧
    next.pool.maxAllocations = s.pool.maxAllocations ∧
      next.pool.bytesPerAlloc = s.pool.bytesPerAlloc) ?_ ⟨h, rfl, rfl⟩ hrun).2
  rintro now op next ⟨hnow, hshape⟩ hstep
  refine ⟨hnow.step hstep, ?_⟩
  rw [← hshape.1, ← hshape.2]
  exact step_shape hnow hstep

private theorem live_card_add {chain : List Nat} (h : PoolInv s)
    (hchain : FreeChain s.pool s.live chain) :
    s.live.card + chain.length = s.pool.maxAllocations.toNat := by
  have hlive : s.live = (Finset.range s.pool.maxAllocations.toNat \ chain.toFinset).image
      s.pool.slotOffset := by
    ext pointer
    simp only [Finset.mem_image, Finset.mem_sdiff, Finset.mem_range, List.mem_toFinset,
      hchain.mem_iff]
    constructor
    · intro hp
      obtain ⟨i, hi, rfl⟩ := h.live_slot pointer hp
      exact ⟨i, ⟨hi, fun hfree => hfree.2 hp⟩, rfl⟩
    · intro h
      rcases h with ⟨i, ⟨hi, hheld⟩, rfl⟩
      by_contra hp
      exact hheld ⟨hi, hp⟩
  have hsub : chain.toFinset ⊆ Finset.range s.pool.maxAllocations.toNat := by
    intro i hi
    rw [List.mem_toFinset, hchain.mem_iff] at hi
    exact Finset.mem_range.mpr hi.1
  have hcard := Finset.card_sdiff_add_card_eq_card hsub
  rw [List.toFinset_card_of_nodup hchain.nodup, Finset.card_range] at hcard
  rw [hlive, Finset.card_image_of_injective _ fun _ _ he => h.geometry.slotOffset_inj.mp he]
  exact hcard

private theorem live_card_eq_iff (h : PoolInv s) :
    s.live.card = s.pool.maxAllocations.toNat ↔ s.pool.headIndex = s.pool.maxAllocations := by
  obtain ⟨chain, hchain⟩ := h.chain
  have hcard := h.live_card_add hchain
  rw [← hchain.nil_iff_head, ← List.length_eq_zero_iff]
  omega

private theorem alloc_result (h : PoolInv s) :
    let r := libdPoolAllocatorAlloc s.pool false false
    (r.result = .noMemory ↔ s.live.card = s.pool.maxAllocations.toNat) ∧
      (r.result ≠ .noMemory → r.result = .ok ∧ ∃ i < s.pool.maxAllocations.toNat,
        r.outPointer = some (s.pool.slotOffset i) ∧ s.pool.slotOffset i ∉ s.live) := by
  intro r
  rw [h.live_card_eq_iff]
  by_cases hfull : s.pool.headIndex = s.pool.maxAllocations
  · simp [r, alloc_full hfull, hfull]
  · have hhead := h.head_slot hfull
    have hptr := h.geometry.ptrToIndex_eq hhead.1.le
    simp only [r, alloc_slot hfull, hfull, iff_false]
    refine ⟨by decide, fun _ => ⟨trivial, _, hhead.1, by rw [hptr], hhead.2⟩⟩

private theorem free_result (h : PoolInv s) {pointer : Nat} (hp : pointer ∈ s.live) :
    let r := libdPoolAllocatorFree s.pool false false pointer
    r.result = .ok ∧ ∃ i chain, pointer = s.pool.slotOffset i ∧ i ∈ chain ∧
      Chain r.pa.linkOf r.pa.headIndex.toNat chain r.pa.maxAllocations.toNat := by
  obtain ⟨i, hi, rfl⟩ := h.live_index hp
  intro r
  have hr : r = { result := .ok, pa := s.pool.linkFreed i } := free_slot h.geometry hi
  obtain ⟨chain, hchain⟩ := (h.free hi hp).chain
  have hmem : i.toNat ∈ chain := by
    rw [hchain.mem_iff, linkFreed_maxAllocations]
    refine ⟨UInt32.lt_iff_toNat_lt.mp hi, ?_⟩
    simp [slotOffset]
  rw [hr]
  exact ⟨rfl, i.toNat, chain, rfl, hmem, hchain.linked⟩

end PoolInv

theorem PoolInv.create {malloc : UInt64 → Option (Nat → UInt8)} {outPaNull : Bool}
    {maxAllocations bytesPerAlloc : UInt32} {alignment : UInt8} {pa : PoolAllocator}
    {mallocSize : Option UInt64}
    (hcreate : libdPoolAllocatorCreate malloc outPaNull maxAllocations bytesPerAlloc alignment =
      { result := .ok, outPa := some pa, mallocSize := mallocSize })
    (hroom : (pa.maxAllocations.toNat + 1) * pa.bytesPerAlloc.toNat < 2 ^ 32) :
    PoolInv (PoolSystem.start pa) := by
  obtain ⟨hmax, -, halign, -, block, heq⟩ :=
    libdPoolAllocatorCreate_ok (congrArg PoolCreateReturn.result hcreate)
  obtain ⟨k, -, ha⟩ := (libdMemoryIsValidAlignment_iff alignment).mp halign
  have hslot := alignedBytesPerAlloc_toNat bytesPerAlloc ha
  rw [heq] at hcreate
  simp only [PoolCreateReturn.mk.injEq, Option.some.injEq, true_and] at hcreate
  obtain ⟨rfl, -⟩ := hcreate
  rw [initializeFreeList_maxAllocations, initializeFreeList_bytesPerAlloc] at hroom
  apply PoolInv.init
  · refine ⟨?_, ?_, hroom⟩
    · exact Nat.pos_of_ne_zero fun he => hmax (UInt32.toNat_inj.mp he)
    · rw [hslot]
      exact le_max_left _ _
  · intro i hi
    simp at hi

/-- In every state a client can reach, the links from `head_index` visit each free slot once and
then reach the terminal index, with `tail_index` last. An allocation fails exactly when all slots
are held, and otherwise returns a slot that is not held. A free of any slot that is held succeeds
and puts it into the list. -/
theorem pool_free_list_invariant (malloc : UInt64 → Option (Nat → UInt8)) (outPaNull : Bool)
    (maxAllocations bytesPerAlloc : UInt32) (alignment : UInt8) (pa : PoolAllocator)
    (mallocSize : Option UInt64)
    (hcreate : libdPoolAllocatorCreate malloc outPaNull maxAllocations bytesPerAlloc alignment =
      { result := .ok, outPa := some pa, mallocSize := mallocSize })
    (hroom : (pa.maxAllocations.toNat + 1) * pa.bytesPerAlloc.toNat < 2 ^ 32)
    (ops : List PoolOp) (s : PoolSystem)
    (hrun : PoolSystem.run (PoolSystem.start pa) ops = some s) :
    (s.pool.maxAllocations = pa.maxAllocations ∧ s.pool.bytesPerAlloc = pa.bytesPerAlloc) ∧
    (∃ chain : List Nat,
      Chain s.pool.linkOf s.pool.headIndex.toNat chain s.pool.maxAllocations.toNat ∧
      chain.Nodup ∧
      (∀ i, i ∈ chain ↔ i < s.pool.maxAllocations.toNat ∧ s.pool.slotOffset i ∉ s.live) ∧
      (∀ h : chain ≠ [], chain.getLast h = s.pool.tailIndex.toNat)) ∧
    (s.pool.headIndex = s.pool.maxAllocations ↔ s.pool.tailIndex = s.pool.maxAllocations) ∧
    (let r := libdPoolAllocatorAlloc s.pool false false
     (r.result = .noMemory ↔ s.live.card = s.pool.maxAllocations.toNat) ∧
       (r.result ≠ .noMemory → r.result = .ok ∧ ∃ i < s.pool.maxAllocations.toNat,
         r.outPointer = some (s.pool.slotOffset i) ∧ s.pool.slotOffset i ∉ s.live)) ∧
    (∀ pointer ∈ s.live,
      let r := libdPoolAllocatorFree s.pool false false pointer
      r.result = .ok ∧ ∃ i chain, pointer = s.pool.slotOffset i ∧ i ∈ chain ∧
        Chain r.pa.linkOf r.pa.headIndex.toNat chain r.pa.maxAllocations.toNat) := by
  have hstart := PoolInv.create hcreate hroom
  have hinv := hstart.run hrun
  obtain ⟨chain, hchain⟩ := hinv.chain
  exact ⟨hstart.run_shape hrun,
    ⟨chain, hchain.linked, hchain.nodup, hchain.mem_iff, hchain.last⟩, hchain.full_iff,
    hinv.alloc_result, fun _ hp => hinv.free_result hp⟩

/-- A pool of three eight-byte slots. -/
def threeSlots : PoolAllocator :=
  (initializeFreeList
    { maxAllocations := 3, bytesPerAlloc := 8, headIndex := 0, tailIndex := 0,
      data := fun _ => 0, touched := [] }).pa

/-- Three slots, drained and refilled from both ends. One is held in the end, and can be freed. -/
theorem pool_free_list_invariant_three_slots :
    ∃ s, PoolSystem.run (PoolSystem.start threeSlots)
        [.alloc, .alloc, .alloc, .write 8 1 255, .free 8, .free 0, .free 16, .alloc] = some s ∧
      (s.pool.headIndex = s.pool.maxAllocations ↔ s.pool.tailIndex = s.pool.maxAllocations) ∧
      0 ∈ s.live ∧ (libdPoolAllocatorFree s.pool false false (0 : Nat)).result = .ok := by
  obtain ⟨s, hrun⟩ : ∃ s, PoolSystem.run (PoolSystem.start threeSlots)
      [.alloc, .alloc, .alloc, .write 8 1 255, .free 8, .free 0, .free 16, .alloc] = some s :=
    ⟨_, rfl⟩
  have hheld : 0 ∈ s.live := by
    cases hrun
    decide
  obtain ⟨-, -, hfull, -, hfree⟩ := pool_free_list_invariant zeroMalloc false 3 5 8 threeSlots
    (some 55) rfl (by decide) _ s hrun
  exact ⟨s, hrun, hfull, hheld, (hfree 0 hheld).1⟩

end Libdane
