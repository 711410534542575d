import Libdane.Memory.PoolGeometry
import Libdane.Framework.LinkedChain

/-!
# The chain of free slots

The links in the free slots of a pool form a chain from `head_index` to the terminal index.
Initialisation builds the chain of all slots, `alloc` takes its first node and `free` puts a slot at
one of its ends.
-/

namespace Libdane

open LittleEndian LinkedChain

namespace PoolAllocator

/-- The link stored in slot `i`. -/
def linkOf (pa : PoolAllocator) (i : Nat) : Nat := load pa.data (pa.slotOffset i) 4

theorem Geometry.loadLink_toNat {pa : PoolAllocator} (h : pa.Geometry) {i : UInt32}
    (hi : i.toNat ≤ pa.maxAllocations.toNat) : (pa.loadLink i).toNat = pa.linkOf i.toNat := by
  have hlt := load_lt pa.data (pa.slotOffset i.toNat) 4
  rw [loadLink, h.ptrToIndex_eq hi, linkOf, UInt32.toNat_ofNat']
  exact Nat.mod_eq_of_lt hlt

theorem Geometry.linkOf_storeLink {pa : PoolAllocator} (h : pa.Geometry) {i : UInt32}
    (hi : i.toNat ≤ pa.maxAllocations.toNat) (link : UInt32) :
    (pa.storeLink i link).linkOf = Function.update pa.linkOf i.toNat link.toNat := by
  have hdata : (pa.storeLink i link).data =
      store pa.data (pa.slotOffset i.toNat) 4 link.toNat := by
    rw [← h.ptrToIndex_eq hi]
    rfl
  have hnode := h.node
  funext j
  have hslot : (pa.storeLink i link).slotOffset j = pa.slotOffset j := rfl
  rw [linkOf, hdata, hslot]
  by_cases hj : j = i.toNat
  · subst hj
    rw [load_store, Function.update_self]
    exact Nat.mod_eq_of_lt link.toNat_lt
  · rw [Function.update_of_ne hj]
    apply load_store_outside
    have := pa.slotOffset_separate hj
    omega

end PoolAllocator

open PoolAllocator

/-- The chain of free slots, by index, from the head to the terminal index. -/
structure FreeChain (pa : PoolAllocator) (live : Finset Nat) (chain : List Nat) : Prop where
  linked : Chain pa.linkOf pa.headIndex.toNat chain pa.maxAllocations.toNat
  nodup : chain.Nodup
  mem_iff : ∀ i, i ∈ chain ↔ i < pa.maxAllocations.toNat ∧ pa.slotOffset i ∉ live
  last : ∀ h : chain ≠ [], chain.getLast h = pa.tailIndex.toNat
  full_iff : pa.headIndex = pa.maxAllocations ↔ pa.tailIndex = pa.maxAllocations

/-- Everything the operations of a pool preserve. -/
structure PoolInv (s : PoolSystem) : Prop where
  geometry : s.pool.Geometry
  chain : ∃ chain, FreeChain s.pool s.live chain
  live_slot : ∀ pointer ∈ s.live, ∃ i < s.pool.maxAllocations.toNat, pointer = s.pool.slotOffset i
  touched_slot : ∀ i ∈ s.pool.touched, i.toNat < s.pool.maxAllocations.toNat

namespace FreeChain

variable {pa : PoolAllocator} {live : Finset Nat} {chain : List Nat}

theorem terminal_notMem (h : FreeChain pa live chain) : pa.maxAllocations.toNat ∉ chain :=
  fun hmem => lt_irrefl _ ((h.mem_iff _).mp hmem).1

theorem nil_iff_head (h : FreeChain pa live chain) :
    chain = [] ↔ pa.headIndex = pa.maxAllocations := by
  rw [h.linked.nil_iff h.terminal_notMem, UInt32.toNat_inj]

theorem tail_free (h : FreeChain pa live chain) (hne : chain ≠ []) :
    pa.tailIndex.toNat ∈ chain := by
  rw [← h.last hne]
  exact List.getLast_mem hne

end FreeChain

theorem alloc_full {pa : PoolAllocator} (h : pa.headIndex = pa.maxAllocations) :
    libdPoolAllocatorAlloc pa false false =
      { result := .noMemory, outPointer := none, pa := pa } := by
  simp [libdPoolAllocatorAlloc, terminalIndex, h]

theorem alloc_slot {pa : PoolAllocator} (h : pa.headIndex ≠ pa.maxAllocations) :
    libdPoolAllocatorAlloc pa false false =
      { result := .ok
        outPointer := some (pa.ptrToIndex pa.headIndex)
        pa := { pa with
          headIndex := pa.loadLink pa.headIndex
          tailIndex := if pa.loadLink pa.headIndex = pa.maxAllocations then pa.maxAllocations
            else pa.tailIndex
          touched := pa.headIndex :: pa.touched } } := by
  by_cases hlast : pa.loadLink pa.headIndex = pa.maxAllocations
  · simp [libdPoolAllocatorAlloc, terminalIndex, h, hlast]
  · simp [libdPoolAllocatorAlloc, terminalIndex, h, hlast]

/-- A pointer a whole number of slots behind `data` is judged by that number narrowed to 32
bits. -/
theorem free_multiple {pa : PoolAllocator} (hpos : 0 < pa.bytesPerAlloc.toNat) (q : Nat) :
    libdPoolAllocatorFree pa false false (pa.slotOffset q : Nat) =
      if UInt32.ofNat q ≥ pa.maxAllocations then { result := .invalidPointer, pa := pa }
      else { result := .ok, pa := pa.linkFreed (UInt32.ofNat q) } := by
  have hsign : ¬((pa.slotOffset q : Nat) : Int) < 0 := by omega
  have hmod : ((pa.slotOffset q : Nat) : Int).tmod (pa.bytesPerAlloc.toNat : Int) = 0 := by
    rw [← Int.ofNat_tmod, slotOffset, Nat.mul_mod_left]
    rfl
  have hindex : UInt32.ofInt (((pa.slotOffset q : Nat) : Int).tdiv
      (pa.bytesPerAlloc.toNat : Int)) = UInt32.ofNat q := by
    rw [← Int.ofNat_tdiv, slotOffset, Nat.mul_div_cancel _ hpos]
    apply UInt32.toNat_inj.mp
    rw [UInt32.ofInt, UInt32.toNat_ofNat', UInt32.toNat_ofNat']
    omega
  simp only [libdPoolAllocatorFree, hsign, hmod, hindex, Bool.or_self, Bool.false_eq_true,
    if_false, decide_false, bne_self_eq_false]

theorem free_slot {pa : PoolAllocator} (hg : pa.Geometry) {i : UInt32}
    (hi : i < pa.maxAllocations) :
    libdPoolAllocatorFree pa false false (pa.slotOffset i.toNat : Nat) =
      { result := .ok, pa := pa.linkFreed i } := by
  have hpos : 0 < pa.bytesPerAlloc.toNat := by
    have := hg.node
    omega
  have hbound : ¬i ≥ pa.maxAllocations := UInt32.not_le.mpr hi
  rw [free_multiple hpos, UInt32.ofNat_toNat, if_neg hbound]

theorem linkFreed_front {pa : PoolAllocator} {i : UInt32} (hhead : i < pa.headIndex) :
    pa.linkFreed i = { pa.storeLink i pa.headIndex with
      headIndex := i
      tailIndex := if pa.tailIndex = pa.maxAllocations then i else pa.tailIndex } := by
  by_cases htail : pa.tailIndex = pa.maxAllocations
  · simp [linkFreed, terminalIndex, hhead, htail]
  · simp [linkFreed, terminalIndex, hhead, htail]

theorem linkFreed_back {pa : PoolAllocator} {i : UInt32} (hi : i ≠ pa.maxAllocations)
    (hhead : ¬i < pa.headIndex) :
    pa.linkFreed i = { (pa.storeLink pa.tailIndex i).storeLink i pa.maxAllocations with
      tailIndex := i } := by
  simp only [linkFreed, hhead, if_false]
  rw [if_neg]
  · rfl
  · simpa [terminalIndex] using hi

namespace FreeChain

variable {pa : PoolAllocator} {live : Finset Nat} {chain : List Nat}

/-- Allocation removes the first node and hands its slot to the client. -/
theorem alloc (hg : pa.Geometry) (h : FreeChain pa live chain)
    (hne : pa.headIndex ≠ pa.maxAllocations) :
    ∃ rest, chain = pa.headIndex.toNat :: rest ∧
      FreeChain (libdPoolAllocatorAlloc pa false false).pa
        (insert (pa.slotOffset pa.headIndex.toNat) live) rest := by
  obtain ⟨node, rest, rfl⟩ : ∃ node rest, chain = node :: rest := by
    cases chain with
    | nil => exact absurd (h.nil_iff_head.mp rfl) hne
    | cons node rest => exact ⟨node, rest, rfl⟩
  obtain ⟨rfl, hrest⟩ := h.linked
  have hnotMem : pa.headIndex.toNat ∉ rest := (List.nodup_cons.mp h.nodup).1
  have hhead : pa.headIndex.toNat < pa.maxAllocations.toNat := ((h.mem_iff _).mp (by simp)).1
  have hload : (pa.loadLink pa.headIndex).toNat = pa.linkOf pa.headIndex.toNat :=
    hg.loadLink_toNat hhead.le
  have hterminal : pa.maxAllocations.toNat ∉ rest :=
    fun hmem => h.terminal_notMem (List.mem_cons_of_mem _ hmem)
  have hnil : rest = [] ↔ pa.loadLink pa.headIndex = pa.maxAllocations := by
    rw [hrest.nil_iff hterminal, ← hload, UInt32.toNat_inj]
  refine ⟨rest, rfl, ?_⟩
  rw [alloc_slot hne]
  refine ⟨?_, (List.nodup_cons.mp h.nodup).2, ?_, ?_, ?_⟩
  · change Chain pa.linkOf (pa.loadLink pa.headIndex).toNat rest pa.maxAllocations.toNat
    rw [hload]
    exact hrest
  · intro i
    change i ∈ rest ↔ i < pa.maxAllocations.toNat ∧ pa.slotOffset i ∉ insert _ live
    have hi := h.mem_iff i
    rw [Finset.mem_insert, hg.slotOffset_inj, not_or]
    rw [List.mem_cons] at hi
    constructor
    · intro hmem
      have hfree := hi.mp (Or.inr hmem)
      exact ⟨hfree.1, fun he => hnotMem (he ▸ hmem), hfree.2⟩
    · intro h
      rcases h with ⟨hlt, hother, hdead⟩
      exact (hi.mpr ⟨hlt, hdead⟩).resolve_left hother
  · intro hr
    have hlink : pa.loadLink pa.headIndex ≠ pa.maxAllocations := fun he => hr (hnil.mpr he)
    have hlast := h.last (by simp)
    rw [List.getLast_cons hr] at hlast
    simpa [hlink] using hlast
  · by_cases hlink : pa.loadLink pa.headIndex = pa.maxAllocations
    · simp [hlink]
    · have htail := h.full_iff
      simpa [hlink, hne] using htail

/-- Freeing a live slot puts it at one end of the chain. -/
theorem free (hg : pa.Geometry) (h : FreeChain pa live chain) {i : UInt32}
    (hi : i < pa.maxAllocations) (hlive : pa.slotOffset i.toNat ∈ live) :
    ∃ grown, FreeChain (pa.linkFreed i) (live.erase (pa.slotOffset i.toNat)) grown := by
  have hlt : i.toNat < pa.maxAllocations.toNat := UInt32.lt_iff_toNat_lt.mp hi
  have hnotMem : i.toNat ∉ chain := fun hmem => ((h.mem_iff _).mp hmem).2 hlive
  have hne : i ≠ pa.maxAllocations := fun he => UInt32.lt_irrefl _ (he ▸ hi)
  have hmem : ∀ grown : List Nat, (∀ j, j ∈ grown ↔ j = i.toNat ∨ j ∈ chain) →
      ∀ j, j ∈ grown ↔ j < pa.maxAllocations.toNat ∧
        pa.slotOffset j ∉ live.erase (pa.slotOffset i.toNat) := by
    intro grown hgrown j
    rw [hgrown, h.mem_iff, Finset.mem_erase, Ne, hg.slotOffset_inj]
    constructor
    · intro h
      rcases h with rfl | ⟨hj, hdead⟩
      · exact ⟨hlt, fun hk => hk.1 rfl⟩
      · exact ⟨hj, fun hk => hdead hk.2⟩
    · intro h
      rcases h with ⟨hj, hk⟩
      by_cases hji : j = i.toNat
      · exact Or.inl hji
      · exact Or.inr ⟨hj, fun hl => hk ⟨hji, hl⟩⟩
  by_cases hhead : i < pa.headIndex
  · refine ⟨i.toNat :: chain, ?_⟩
    rw [linkFreed_front hhead]
    refine ⟨?_, List.nodup_cons.mpr ⟨hnotMem, h.nodup⟩, hmem _ (by simp), ?_, ?_⟩
    · change Chain (pa.storeLink i pa.headIndex).linkOf i.toNat (i.toNat :: chain) _
      rw [hg.linkOf_storeLink hlt.le]
      exact h.linked.push_front hnotMem
    · intro _
      by_cases hnil : chain = []
      · have htail : pa.tailIndex = pa.maxAllocations := h.full_iff.mp (h.nil_iff_head.mp hnil)
        simp [hnil, htail]
      · have htail : pa.tailIndex ≠ pa.maxAllocations :=
          fun he => hnil (h.nil_iff_head.mpr (h.full_iff.mpr he))
        rw [List.getLast_cons hnil, h.last hnil]
        simp [htail]
    · by_cases htail : pa.tailIndex = pa.maxAllocations
      · simp [hne, htail]
      · simp [hne, htail]
  · have hfull : pa.headIndex ≠ pa.maxAllocations := fun he => hhead (he ▸ hi)
    have hnil : chain ≠ [] := fun he => hfull (h.nil_iff_head.mp he)
    obtain ⟨front, hfront⟩ : ∃ front, chain = front ++ [pa.tailIndex.toNat] := by
      refine ⟨chain.dropLast, ?_⟩
      rw [← h.last hnil, List.dropLast_append_getLast hnil]
    have htail : pa.tailIndex.toNat < pa.maxAllocations.toNat :=
      ((h.mem_iff _).mp (h.tail_free hnil)).1
    refine ⟨chain ++ [i.toNat], ?_⟩
    rw [linkFreed_back hne hhead]
    refine ⟨?_, ?_, hmem _ (by simp [or_comm]), by simp, ?_⟩
    · have hg' : (pa.storeLink pa.tailIndex i).Geometry := hg.congr rfl rfl
      change Chain ((pa.storeLink pa.tailIndex i).storeLink i pa.maxAllocations).linkOf _ _ _
      rw [hg'.linkOf_storeLink hlt.le, hg.linkOf_storeLink htail.le]
      have hchain := h.linked
      have hnodup := h.nodup
      rw [hfront] at hchain hnodup hnotMem ⊢
      exact hchain.push_back hnodup hnotMem
    · exact h.nodup.append (by simp) (by simpa using hnotMem)
    · simp [hfull, hne]

end FreeChain

theorem toNat_ofNat_slot {pa : PoolAllocator} {n : Nat}
    (hn : n < pa.maxAllocations.toNat) : (UInt32.ofNat n).toNat = n := by
  have := pa.maxAllocations.toNat_lt
  rw [UInt32.toNat_ofNat', Nat.mod_eq_of_lt (by omega)]

private theorem toNat_ofNat_succ_slot {pa : PoolAllocator} {n : Nat}
    (hn : n < pa.maxAllocations.toNat) : (UInt32.ofNat n + 1).toNat = n + 1 := by
  have := pa.maxAllocations.toNat_lt
  rw [UInt32.toNat_add, toNat_ofNat_slot hn]
  exact Nat.mod_eq_of_lt (by simp only [UInt32.reduceToNat]; omega)

private theorem linkOf_linkSlots {pa : PoolAllocator} (hg : pa.Geometry) {n : Nat}
    (hn : n ≤ pa.maxAllocations.toNat) :
    (pa.linkSlots n).linkOf = fun j => if j < n then j + 1 else pa.linkOf j := by
  induction n with
  | zero =>
    funext j
    simp [linkSlots]
  | succ n ih =>
    have hslot := toNat_ofNat_slot (Nat.lt_of_succ_le hn)
    have hg' : (pa.linkSlots n).Geometry := hg.congr (by simp) (by simp)
    rw [linkSlots, hg'.linkOf_storeLink (by rw [hslot]; simpa using Nat.le_of_succ_le hn),
      ih (Nat.le_of_succ_le hn), hslot, toNat_ofNat_succ_slot (Nat.lt_of_succ_le hn)]
    funext j
    by_cases hj : j = n
    · subst hj
      simp
    · rw [Function.update_of_ne hj]
      by_cases hlt : j < n
      · simp [hlt, Nat.lt_succ_of_lt hlt]
      · have hnot : ¬j < n + 1 := by omega
        simp [hlt, hnot]

private theorem linkSlots_touched {pa : PoolAllocator} {n : Nat} (hn : n ≤ pa.maxAllocations.toNat)
    {i : UInt32} (hi : i ∈ (pa.linkSlots n).touched) :
    i.toNat < pa.maxAllocations.toNat ∨ i ∈ pa.touched := by
  induction n with
  | zero => exact Or.inr hi
  | succ n ih =>
    rw [linkSlots, storeLink_touched, List.mem_cons] at hi
    rcases hi with rfl | hi
    · left
      rw [toNat_ofNat_slot (Nat.lt_of_succ_le hn)]
      exact Nat.lt_of_succ_le hn
    · exact ih (Nat.le_of_succ_le hn) hi

private theorem lastSlot_toNat {pa : PoolAllocator} (hg : pa.Geometry) :
    (pa.maxAllocations - 1).toNat = pa.maxAllocations.toNat - 1 := by
  have hpos := hg.slots
  rw [UInt32.toNat_sub_of_le]
  · rfl
  · rw [UInt32.le_iff_toNat_le]
    exact hpos

/-- The pool before its slots are linked. -/
private def fresh (pa : PoolAllocator) : PoolAllocator :=
  { pa with headIndex := 0, tailIndex := pa.maxAllocations - 1 }

private theorem initializeFreeList_pa (pa : PoolAllocator) :
    (initializeFreeList pa).pa =
      ((fresh pa).linkSlots (pa.maxAllocations - 1).toNat).storeLink (pa.maxAllocations - 1)
        pa.maxAllocations := by
  simp [initializeFreeList, terminalIndex, fresh]

theorem FreeChain.init {pa : PoolAllocator} (hg : pa.Geometry) :
    FreeChain (initializeFreeList pa).pa ∅ (List.range pa.maxAllocations.toNat) := by
  have hpos := hg.slots
  have hlast := lastSlot_toNat hg
  have hfresh : (fresh pa).Geometry := hg.congr rfl rfl
  have hfreshMax : (fresh pa).maxAllocations = pa.maxAllocations := rfl
  have hinit := initializeFreeList_pa pa
  have hlinked : ((fresh pa).linkSlots (pa.maxAllocations - 1).toNat).Geometry :=
    hfresh.congr (linkSlots_maxAllocations _ _) (linkSlots_bytesPerAlloc _ _)
  have hlinks : ∀ j < pa.maxAllocations.toNat, (initializeFreeList pa).pa.linkOf j = j + 1 := by
    intro j hj
    rw [hinit, hlinked.linkOf_storeLink (by
      rw [linkSlots_maxAllocations, hfreshMax, hlast]; omega), hlast]
    by_cases hjlast : j = pa.maxAllocations.toNat - 1
    · rw [← hjlast, Function.update_self]
      omega
    · rw [Function.update_of_ne hjlast, linkOf_linkSlots hfresh (by rw [hfreshMax]; omega)]
      simp only [show j < pa.maxAllocations.toNat - 1 by omega, if_true]
  have hheadInit : (initializeFreeList pa).pa.headIndex = 0 := by
    rw [hinit, storeLink_headIndex, linkSlots_headIndex]
    rfl
  have htailInit : (initializeFreeList pa).pa.tailIndex = pa.maxAllocations - 1 := by
    rw [hinit, storeLink_tailIndex, linkSlots_tailIndex]
    rfl
  refine ⟨?_, List.nodup_range, by simp, ?_, ?_⟩
  · rw [hheadInit, initializeFreeList_maxAllocations, List.range_eq_range']
    have hchain : Chain (initializeFreeList pa).pa.linkOf 0
        (List.range' 0 pa.maxAllocations.toNat) (0 + pa.maxAllocations.toNat) :=
      chain_range' fun i _ hi => hlinks i (by omega)
    simpa using hchain
  · intro hne
    rw [htailInit, hlast, List.getLast_range]
  · rw [hheadInit, htailInit, initializeFreeList_maxAllocations, ← UInt32.toNat_inj,
      ← UInt32.toNat_inj, hlast]
    simp only [UInt32.reduceToNat]
    omega

theorem initializeFreeList_touched {pa : PoolAllocator} (hg : pa.Geometry) {i : UInt32}
    (hi : i ∈ (initializeFreeList pa).pa.touched) :
    i.toNat < pa.maxAllocations.toNat ∨ i ∈ pa.touched := by
  have hpos := hg.slots
  have hlast := lastSlot_toNat hg
  rw [initializeFreeList_pa, storeLink_touched, List.mem_cons] at hi
  rcases hi with rfl | hi
  · left
    rw [hlast]
    omega
  · have hbound : (pa.maxAllocations - 1).toNat ≤ (fresh pa).maxAllocations.toNat := by
      change _ ≤ pa.maxAllocations.toNat
      omega
    exact linkSlots_touched hbound hi

end Libdane
