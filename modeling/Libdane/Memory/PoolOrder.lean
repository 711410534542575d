import Libdane.Memory.PoolFreeList

/-!
# The order in which a pool hands out its slots

Seen from outside, a pool is the list of its free slots in the order they will be handed out. An
allocation takes the first one. A freed slot goes in front when its index is below the first one and
behind the last one otherwise. Nothing else decides an answer, so a reset makes the pool a new one.
A slot that is freed a second time breaks the list in one of two ways.
-/

namespace Libdane

open PartialRuns LinkedChain PoolAllocator

/-- What a call answers: its code, and the pointer an allocation gave out. -/
structure PoolAnswer where
  result : LibdResult
  outPointer : Option Nat
  deriving DecidableEq

namespace PoolSystem

def answer (s : PoolSystem) : PoolOp → PoolAnswer
  | .alloc =>
    let r := libdPoolAllocatorAlloc s.pool false false
    { result := r.result, outPointer := r.outPointer }
  | .free pointer =>
    { result := (libdPoolAllocatorFree s.pool false false pointer).result, outPointer := none }
  | .reset => { result := (libdPoolAllocatorReset s.pool).result, outPointer := none }
  | .write _ _ _ => { result := .ok, outPointer := none }

def answers : PoolSystem → List PoolOp → List PoolAnswer := PartialRuns.answers step answer

end PoolSystem

/-- The indices of the free slots in the order they will be handed out, and the pointers that are
held. -/
structure FreeOrder where
  order : List Nat
  held : Finset Nat

namespace FreeOrder

def start (slots : Nat) : FreeOrder := { order := List.range slots, held := ∅ }

/-- Where a freed slot goes. -/
def putBack (i : Nat) : List Nat → List Nat
  | [] => [i]
  | first :: rest => if i < first then i :: first :: rest else first :: rest ++ [i]

def step (slots size : Nat) (o : FreeOrder) : PoolOp → Option FreeOrder
  | .alloc =>
    match o.order with
    | [] => some o
    | i :: rest => some { order := rest, held := insert (i * size) o.held }
  | .free pointer =>
    if pointer ∈ o.held then
      some { order := putBack (pointer / size) o.order, held := o.held.erase pointer }
    else none
  | .reset => some (start slots)
  | .write pointer offset _ => if pointer ∈ o.held ∧ offset < size then some o else none

def answer (size : Nat) (o : FreeOrder) : PoolOp → PoolAnswer
  | .alloc =>
    match o.order with
    | [] => { result := .noMemory, outPointer := none }
    | i :: _ => { result := .ok, outPointer := some (i * size) }
  | .free _ | .reset | .write _ _ _ => { result := .ok, outPointer := none }

def answers (slots size : Nat) : FreeOrder → List PoolOp → List PoolAnswer :=
  PartialRuns.answers (step slots size) (answer size)

private theorem putBack_front {i : Nat} {order : List Nat} (h : ∀ first ∈ order.head?, i < first) :
    putBack i order = i :: order := by
  cases order with
  | nil => rfl
  | cons first rest => rw [putBack, if_pos (h first rfl)]

private theorem putBack_back {i : Nat} {order : List Nat} (hne : order ≠ [])
    (h : ∀ first ∈ order.head?, ¬i < first) : putBack i order = order ++ [i] := by
  cases order with
  | nil => exact absurd rfl hne
  | cons first rest => rw [putBack, if_neg (h first rfl)]

private theorem mem_putBack {i j : Nat} {order : List Nat} (h : j ∈ putBack i order) :
    j = i ∨ j ∈ order := by
  cases order with
  | nil => exact Or.inl (by simpa [putBack] using h)
  | cons first rest =>
    rw [putBack] at h
    split at h
    · simpa using h
    · simpa [or_comm, or_assoc, or_left_comm] using h

end FreeOrder

namespace FreeChain

variable {pa : PoolAllocator} {live : Finset Nat} {chain : List Nat}

private theorem head_eq (h : FreeChain pa live chain) {first : Nat} (hfirst : first ∈ chain.head?) :
    pa.headIndex.toNat = first := by
  cases chain with
  | nil => cases hfirst
  | cons i rest =>
    cases hfirst
    exact h.linked.1

/-- A freed slot goes where `putBack` puts it. -/
private theorem free_putBack (hg : pa.Geometry) (h : FreeChain pa live chain) {i : UInt32}
    (hi : i < pa.maxAllocations) (hlive : pa.slotOffset i.toNat ∈ live) :
    FreeChain (pa.linkFreed i) (live.erase (pa.slotOffset i.toNat))
      (FreeOrder.putBack i.toNat chain) := by
  obtain ⟨grown, hgrown⟩ := h.free hg hi hlive
  have hlt : i.toNat < pa.maxAllocations.toNat := UInt32.lt_iff_toNat_lt.mp hi
  have hnotMem : i.toNat ∉ chain := fun hmem => ((h.mem_iff _).mp hmem).2 hlive
  have hne : i ≠ pa.maxAllocations := fun he => UInt32.lt_irrefl _ (he ▸ hi)
  have hstop := hgrown.terminal_notMem
  have hmax : (pa.linkFreed i).maxAllocations = pa.maxAllocations := by
    by_cases hhead : i < pa.headIndex
    · simp [linkFreed_front hhead]
    · simp [linkFreed_back hne hhead]
  have hlinked : Chain (pa.linkFreed i).linkOf (pa.linkFreed i).headIndex.toNat
      (FreeOrder.putBack i.toNat chain) pa.maxAllocations.toNat := by
    by_cases hhead : i < pa.headIndex
    · have hback : FreeOrder.putBack i.toNat chain = i.toNat :: chain := by
        apply FreeOrder.putBack_front
        intro first hfirst
        rw [← h.head_eq hfirst]
        exact UInt32.lt_iff_toNat_lt.mp hhead
      rw [hback, linkFreed_front hhead]
      change Chain (pa.storeLink i pa.headIndex).linkOf i.toNat (i.toNat :: chain) _
      rw [hg.linkOf_storeLink hlt.le]
      exact h.linked.push_front hnotMem
    · have hnil : chain ≠ [] := fun he => hhead (h.nil_iff_head.mp he ▸ hi)
      have hback : FreeOrder.putBack i.toNat chain = chain ++ [i.toNat] := by
        apply FreeOrder.putBack_back hnil
        intro first hfirst
        rw [← h.head_eq hfirst]
        exact fun hlow => hhead (UInt32.lt_iff_toNat_lt.mpr hlow)
      have hfront : chain = chain.dropLast ++ [pa.tailIndex.toNat] := by
        rw [← h.last hnil, List.dropLast_append_getLast hnil]
      have htail : pa.tailIndex.toNat < pa.maxAllocations.toNat :=
        ((h.mem_iff _).mp (h.tail_free hnil)).1
      have hg' : (pa.storeLink pa.tailIndex i).Geometry := hg.congr rfl rfl
      have hchain := h.linked
      have hnodup := h.nodup
      rw [hback, linkFreed_back hne hhead]
      change Chain ((pa.storeLink pa.tailIndex i).storeLink i pa.maxAllocations).linkOf
        pa.headIndex.toNat _ _
      rw [hg'.linkOf_storeLink hlt.le, hg.linkOf_storeLink htail.le]
      rw [hfront] at hchain hnodup hnotMem ⊢
      exact hchain.push_back hnodup hnotMem
  have hterminal : pa.maxAllocations.toNat ∉ FreeOrder.putBack i.toNat chain := by
    intro hmem
    rcases FreeOrder.mem_putBack hmem with he | hin
    · omega
    · exact h.terminal_notMem hin
  have hsame : grown = FreeOrder.putBack i.toNat chain := by
    have hgrownLinked := hgrown.linked
    rw [hmax] at hgrownLinked hstop
    exact hgrownLinked.unique hlinked hstop hterminal
  rwa [← hsame]

end FreeChain

/-- The pool has this list of free slots. -/
structure Follows (slots size : Nat) (s : PoolSystem) (o : FreeOrder) : Prop where
  inv : PoolInv s
  chain : FreeChain s.pool s.live o.order
  held : o.held = s.live
  slots_eq : s.pool.maxAllocations.toNat = slots
  size_eq : s.pool.bytesPerAlloc.toNat = size

section Follows

variable {slots size : Nat} {s : PoolSystem} {o : FreeOrder}

private theorem Follows.answer (h : Follows slots size s o) (op : PoolOp)
    (hallowed : (PoolSystem.step s op).isSome) : s.answer op = o.answer size op := by
  cases op with
  | alloc =>
    cases horder : o.order with
    | nil =>
      have hfull := (horder ▸ h.chain).nil_iff_head.mp rfl
      simp [PoolSystem.answer, FreeOrder.answer, horder, alloc_full hfull]
    | cons i rest =>
      have hchain := horder ▸ h.chain
      have hne : s.pool.headIndex ≠ s.pool.maxAllocations := by
        intro he
        exact absurd (hchain.nil_iff_head.mpr he) (List.cons_ne_nil i rest)
      have hhead : s.pool.headIndex.toNat = i := hchain.linked.1
      have hptr := h.inv.geometry.ptrToIndex_eq (h.inv.head_slot hne).1.le
      simp [PoolSystem.answer, FreeOrder.answer, horder, alloc_slot hne, hptr, slotOffset, hhead,
        h.size_eq]
  | free pointer =>
    by_cases hp : pointer ∈ s.live
    · obtain ⟨i, hi, rfl⟩ := h.inv.live_index hp
      simp [PoolSystem.answer, FreeOrder.answer, free_slot h.inv.geometry hi]
    · simp [PoolSystem.step, hp] at hallowed
  | reset => rfl
  | write pointer offset byte => rfl

private theorem Follows.init {pa : PoolAllocator} (hg : pa.Geometry)
    (htouched : ∀ i ∈ pa.touched, i.toNat < pa.maxAllocations.toNat) :
    Follows pa.maxAllocations.toNat pa.bytesPerAlloc.toNat
      (PoolSystem.start (initializeFreeList pa).pa) (FreeOrder.start pa.maxAllocations.toNat) where
  inv := PoolInv.init hg htouched
  chain := FreeChain.init hg
  held := rfl
  slots_eq := by simp [PoolSystem.start]
  size_eq := by simp [PoolSystem.start]

private theorem Follows.write_link (h : Follows slots size s o) {pointer offset j : Nat}
    (hp : pointer ∈ s.live) (hoffset : offset < s.pool.bytesPerAlloc.toNat) (byte : UInt8)
    (hj : j ∈ o.order) :
    PoolAllocator.linkOf { s.pool with
      data := Function.update s.pool.data (pointer + offset) byte } j = s.pool.linkOf j := by
  have hdead := ((h.chain.mem_iff j).mp hj).2
  obtain ⟨i, -, rfl⟩ := h.inv.live_slot pointer hp
  have hne : i ≠ j := fun he => hdead (he ▸ hp)
  have hsep := s.pool.slotOffset_separate hne
  have hnode := h.inv.geometry.node
  apply LittleEndian.load_congr
  intro k hk
  change Function.update s.pool.data _ byte (s.pool.slotOffset j + k) = _
  rw [Function.update_of_ne (by omega)]
  rfl

private theorem Follows.step (h : Follows slots size s o) (op : PoolOp) :
    Option.Rel (Follows slots size) (PoolSystem.step s op) (o.step slots size op) := by
  cases op with
  | alloc =>
    cases horder : o.order with
    | nil =>
      have hfull := (horder ▸ h.chain).nil_iff_head.mp rfl
      simp only [PoolSystem.step, FreeOrder.step, horder, alloc_full hfull]
      apply Option.Rel.some
      simpa using h
    | cons i rest =>
      have hchain := horder ▸ h.chain
      have hne : s.pool.headIndex ≠ s.pool.maxAllocations := by
        intro he
        exact absurd (hchain.nil_iff_head.mpr he) (List.cons_ne_nil i rest)
      have hhead : s.pool.headIndex.toNat = i := hchain.linked.1
      obtain ⟨rest', hrest', hnext⟩ := hchain.alloc h.inv.geometry hne
      obtain rfl : rest = rest' := (List.cons.inj hrest').2
      have hptr := h.inv.geometry.ptrToIndex_eq (h.inv.head_slot hne).1.le
      have hshape : ∀ next, PoolSystem.step s .alloc = some next →
          PoolInv next ∧ next.pool.maxAllocations = s.pool.maxAllocations ∧
            next.pool.bytesPerAlloc = s.pool.bytesPerAlloc :=
        fun next hstep => ⟨h.inv.step hstep, h.inv.step_shape hstep⟩
      have hlive : s.live ∪ (libdPoolAllocatorAlloc s.pool false false).outPointer.toFinset =
          insert (s.pool.slotOffset s.pool.headIndex.toNat) s.live := by
        rw [alloc_slot hne, hptr]
        ext pointer
        simp [or_comm]
      have hstep : PoolSystem.step s .alloc = some
          { pool := (libdPoolAllocatorAlloc s.pool false false).pa
            live := insert (s.pool.slotOffset s.pool.headIndex.toNat) s.live } := by
        rw [PoolSystem.step, hlive]
      obtain ⟨hinv, hmax, hbytes⟩ := hshape _ hstep
      rw [hstep, FreeOrder.step, horder]
      apply Option.Rel.some
      refine ⟨hinv, hnext, ?_, ?_, ?_⟩
      · rw [h.held, slotOffset, hhead, h.size_eq]
      · rw [hmax, h.slots_eq]
      · rw [hbytes, h.size_eq]
  | free pointer =>
    by_cases hp : pointer ∈ s.live
    · obtain ⟨i, hi, rfl⟩ := h.inv.live_index hp
      have hstep : PoolSystem.step s (.free (s.pool.slotOffset i.toNat)) = some
          { pool := s.pool.linkFreed i, live := s.live.erase (s.pool.slotOffset i.toNat) } := by
        simp [PoolSystem.step, hp, free_slot h.inv.geometry hi]
      have hshape := h.inv.step_shape hstep
      have hpos : 0 < size := by
        have hnode := h.inv.geometry.node
        rw [h.size_eq] at hnode
        omega
      have hindex : s.pool.slotOffset i.toNat / size = i.toNat := by
        rw [slotOffset, h.size_eq, Nat.mul_div_cancel _ hpos]
      rw [hstep, FreeOrder.step, if_pos (h.held ▸ hp), hindex]
      apply Option.Rel.some
      refine ⟨h.inv.step hstep, h.chain.free_putBack h.inv.geometry hi hp, ?_, ?_, ?_⟩
      · rw [h.held]
      · rw [hshape.1, h.slots_eq]
      · rw [hshape.2, h.size_eq]
    · rw [PoolSystem.step, if_neg hp, FreeOrder.step, if_neg (h.held ▸ hp)]
      exact .none
  | reset =>
    apply Option.Rel.some
    have hinit := Follows.init h.inv.geometry h.inv.touched_slot
    rw [h.slots_eq, h.size_eq] at hinit
    exact hinit
  | write pointer offset byte =>
    by_cases hp : pointer ∈ s.live ∧ offset < s.pool.bytesPerAlloc.toNat
    · have hp' : pointer ∈ o.held ∧ offset < size := by rwa [h.held, ← h.size_eq]
      have hstep : PoolSystem.step s (.write pointer offset byte) = some
          { s with pool := { s.pool with
            data := Function.update s.pool.data (pointer + offset) byte } } := by
        rw [PoolSystem.step, if_pos hp]
      rw [hstep, FreeOrder.step, if_pos hp']
      apply Option.Rel.some
      have hchain : FreeChain { s.pool with
          data := Function.update s.pool.data (pointer + offset) byte } s.live o.order :=
        ⟨h.chain.linked.congr fun j hj => h.write_link hp.1 hp.2 byte hj, h.chain.nodup,
          h.chain.mem_iff, h.chain.last, h.chain.full_iff⟩
      exact ⟨h.inv.step hstep, hchain, h.held, h.slots_eq, h.size_eq⟩
    · have hp' : ¬(pointer ∈ o.held ∧ offset < size) := by rwa [h.held, ← h.size_eq]
      rw [PoolSystem.step, if_neg hp, FreeOrder.step, if_neg hp']
      exact .none

private theorem Follows.answers (h : Follows slots size s o) (ops : List PoolOp) :
    s.answers ops = o.answers slots size ops :=
  answers_simulates (Follows slots size) (fun _ _ op h => h.step op)
    (fun _ _ op h => h.answer op) h ops

private theorem Follows.run (h : Follows slots size s o) (ops : List PoolOp) :
    Option.Rel (Follows slots size) (PoolSystem.run s ops)
      (PartialRuns.run (FreeOrder.step slots size) o ops) :=
  run_simulates (Follows slots size) (fun _ _ op h => h.step op) h ops

end Follows

private theorem Follows.create {malloc : UInt64 → Option (Nat → UInt8)} {outPaNull : Bool}
    {maxAllocations bytesPerAlloc : UInt32} {alignment : UInt8} {pa : PoolAllocator}
    {mallocSize : Option UInt64}
    (hcreate : libdPoolAllocatorCreate malloc outPaNull maxAllocations bytesPerAlloc alignment =
      { result := .ok, outPa := some pa, mallocSize := mallocSize })
    (hroom : (pa.maxAllocations.toNat + 1) * pa.bytesPerAlloc.toNat < 2 ^ 32) :
    Follows pa.maxAllocations.toNat pa.bytesPerAlloc.toNat (PoolSystem.start pa)
      (FreeOrder.start pa.maxAllocations.toNat) := by
  have hinv := PoolInv.create hcreate hroom
  obtain ⟨-, -, -, -, block, heq⟩ := libdPoolAllocatorCreate_ok (congrArg PoolCreateReturn.result
    hcreate)
  rw [heq] at hcreate
  simp only [PoolCreateReturn.mk.injEq, Option.some.injEq, true_and] at hcreate
  obtain ⟨rfl, -⟩ := hcreate
  refine ⟨hinv, ?_, rfl, rfl, rfl⟩
  have hchain := FreeChain.init (hinv.geometry.congr (initializeFreeList_maxAllocations _).symm
    (initializeFreeList_bytesPerAlloc _).symm)
  simpa [PoolSystem.start, FreeOrder.start] using hchain

/-- Every run of a pool answers like the list of its free slots, and allows the same calls. What
clients write into their slots does not matter. -/
theorem pool_refines_order (malloc : UInt64 → Option (Nat → UInt8)) (outPaNull : Bool)
    (maxAllocations bytesPerAlloc : UInt32) (alignment : UInt8) (pa : PoolAllocator)
    (mallocSize : Option UInt64)
    (hcreate : libdPoolAllocatorCreate malloc outPaNull maxAllocations bytesPerAlloc alignment =
      { result := .ok, outPa := some pa, mallocSize := mallocSize })
    (hroom : (pa.maxAllocations.toNat + 1) * pa.bytesPerAlloc.toNat < 2 ^ 32)
    (ops : List PoolOp) :
    (PoolSystem.start pa).answers ops =
        (FreeOrder.start pa.maxAllocations.toNat).answers pa.maxAllocations.toNat
          pa.bytesPerAlloc.toNat ops ∧
      Option.Rel (fun s o => o.held = s.live ∧
          Chain s.pool.linkOf s.pool.headIndex.toNat o.order pa.maxAllocations.toNat)
        (PoolSystem.run (PoolSystem.start pa) ops)
        (PartialRuns.run (FreeOrder.step pa.maxAllocations.toNat pa.bytesPerAlloc.toNat)
          (FreeOrder.start pa.maxAllocations.toNat) ops) := by
  have hstart := Follows.create hcreate hroom
  refine ⟨hstart.answers ops, ?_⟩
  exact rel_mono (fun s o h => ⟨h.held, h.slots_eq ▸ h.chain.linked⟩) (hstart.run ops)

/-- Three slots: the first one comes back in front, the middle one behind the last. -/
theorem pool_refines_order_three_slots :
    (PoolSystem.start threeSlots).answers
        [.alloc, .alloc, .free 0, .free 8, .alloc, .alloc, .alloc] =
      [⟨.ok, some 0⟩, ⟨.ok, some 8⟩, ⟨.ok, none⟩, ⟨.ok, none⟩, ⟨.ok, some 0⟩, ⟨.ok, some 16⟩,
        ⟨.ok, some 8⟩] :=
  (pool_refines_order zeroMalloc false 3 5 8 threeSlots (some 55) rfl (by decide) _).1.trans
    (by decide)

/-- A reset pool answers every further run like a new pool, whatever happened before. -/
theorem pool_reset_forgets (malloc : UInt64 → Option (Nat → UInt8)) (outPaNull : Bool)
    (maxAllocations bytesPerAlloc : UInt32) (alignment : UInt8) (pa : PoolAllocator)
    (mallocSize : Option UInt64)
    (hcreate : libdPoolAllocatorCreate malloc outPaNull maxAllocations bytesPerAlloc alignment =
      { result := .ok, outPa := some pa, mallocSize := mallocSize })
    (hroom : (pa.maxAllocations.toNat + 1) * pa.bytesPerAlloc.toNat < 2 ^ 32)
    (before : List PoolOp) (s reset : PoolSystem)
    (hbefore : PoolSystem.run (PoolSystem.start pa) before = some s)
    (hreset : PoolSystem.step s .reset = some reset) (later : List PoolOp) :
    reset.answers later = (PoolSystem.start pa).answers later ∧
      Option.Rel (fun s s' => s.live = s'.live) (PoolSystem.run reset later)
        (PoolSystem.run (PoolSystem.start pa) later) := by
  have hstart := Follows.create hcreate hroom
  have hinv := hstart.inv.run hbefore
  obtain ⟨hmax, hbytes⟩ := hstart.inv.run_shape hbefore
  have hnew := Follows.init hinv.geometry hinv.touched_slot
  rw [hmax, hbytes] at hnew
  cases hreset
  refine ⟨(hnew.answers later).trans (hstart.answers later).symm, ?_⟩
  apply rel_mono _ (rel_of_common (hnew.run later) (hstart.run later))
  rintro now then' ⟨o, h, h'⟩
  exact h.held.symm.trans h'.held

theorem pool_reset_forgets_three_slots :
    ∃ s, PoolSystem.step s .reset = some (PoolSystem.start (initializeFreeList s.pool).pa) ∧
      (PoolSystem.start (initializeFreeList s.pool).pa).answers [.alloc, .alloc] =
        (PoolSystem.start threeSlots).answers [.alloc, .alloc] := by
  obtain ⟨s, hrun⟩ : ∃ s, PoolSystem.run (PoolSystem.start threeSlots)
      [.alloc, .alloc, .write 8 1 255, .free 0] = some s := ⟨_, rfl⟩
  exact ⟨s, rfl, (pool_reset_forgets zeroMalloc false 3 5 8 threeSlots (some 55) rfl (by decide)
    _ s _ hrun rfl [.alloc, .alloc]).1⟩

namespace FreeChain

variable {pa : PoolAllocator} {live : Finset Nat} {front back : List Nat} {i : UInt32}

/-- A free slot at or behind the head that is freed again becomes the last one. The slots behind it
are lost, as if someone held them for ever. -/
private theorem free_again_back (hg : pa.Geometry)
    (h : FreeChain pa live (front ++ i.toNat :: back))
    (hi : i < pa.maxAllocations) (hhead : ¬i < pa.headIndex) :
    FreeChain (pa.linkFreed i) (live ∪ (back.map pa.slotOffset).toFinset) (front ++ [i.toNat]) := by
  have hlt : i.toNat < pa.maxAllocations.toNat := UInt32.lt_iff_toNat_lt.mp hi
  have hne : i ≠ pa.maxAllocations := fun he => UInt32.lt_irrefl _ (he ▸ hi)
  have hnil : front ++ i.toNat :: back ≠ [] := by simp
  have htail : pa.tailIndex.toNat < pa.maxAllocations.toNat :=
    ((h.mem_iff _).mp (h.tail_free hnil)).1
  have hfull : pa.headIndex ≠ pa.maxAllocations := fun he => hhead (he ▸ hi)
  have hg' : (pa.storeLink pa.tailIndex i).Geometry := hg.congr rfl rfl
  obtain ⟨hnodupFront, hnodupBack, hapart⟩ := List.nodup_append.mp h.nodup
  have hiBack : i.toNat ∉ back := (List.nodup_cons.mp hnodupBack).1
  have hiFront : i.toNat ∉ front := fun hmem => hapart _ hmem _ (by simp) rfl
  have htailFront : pa.tailIndex.toNat ∉ front := by
    rw [← h.last hnil, List.getLast_append_of_ne_nil _ (List.cons_ne_nil _ _)]
    exact fun hmem => hapart _ hmem _ (List.getLast_mem _) rfl
  rw [linkFreed_back hne hhead]
  constructor
  case linked =>
    change Chain ((pa.storeLink pa.tailIndex i).storeLink i pa.maxAllocations).linkOf
      pa.headIndex.toNat _ pa.maxAllocations.toNat
    rw [hg'.linkOf_storeLink hlt.le, hg.linkOf_storeLink htail.le]
    obtain ⟨middle, hfront, hmiddle, -⟩ := chain_append.mp h.linked
    subst hmiddle
    apply chain_append.mpr
    refine ⟨i.toNat, ?_, rfl, by simp⟩
    apply hfront.congr
    intro j hj
    have hji : j ≠ i.toNat := fun he => hiFront (he ▸ hj)
    have hjtail : j ≠ pa.tailIndex.toNat := fun he => htailFront (he ▸ hj)
    rw [Function.update_of_ne hji, Function.update_of_ne hjtail]
  case nodup =>
    exact hnodupFront.append (by simp) (by simpa using hiFront)
  case mem_iff =>
    intro j
    change j ∈ front ++ [i.toNat] ↔ j < pa.maxAllocations.toNat ∧
      pa.slotOffset j ∉ live ∪ (back.map pa.slotOffset).toFinset
    have hlost : pa.slotOffset j ∈ (back.map pa.slotOffset).toFinset ↔ j ∈ back := by
      simp [hg.slotOffset_inj]
    have hj := h.mem_iff j
    rw [Finset.mem_union, hlost, not_or, ← and_assoc, ← hj]
    simp only [List.mem_append, List.mem_cons, List.not_mem_nil, or_false]
    constructor
    · rintro (hmem | rfl)
      · exact ⟨Or.inl hmem, fun hb => hapart _ hmem _ (List.mem_cons_of_mem _ hb) rfl⟩
      · exact ⟨Or.inr (Or.inl rfl), hiBack⟩
    · tauto
  case last => simp
  case full_iff => simp [hfull, hne]

private theorem free_again_front (hg : pa.Geometry)
    (h : FreeChain pa live (front ++ i.toNat :: back))
    (hi : i < pa.maxAllocations) (hhead : i < pa.headIndex) :
    (pa.linkFreed i).headIndex = i ∧
      Chain (pa.linkFreed i).linkOf i.toNat (i.toNat :: front) i.toNat ∧
      (∀ j ∈ i.toNat :: front, j < pa.maxAllocations.toNat) ∧
      (pa.linkFreed i).maxAllocations = pa.maxAllocations ∧
      (pa.linkFreed i).bytesPerAlloc = pa.bytesPerAlloc := by
  have hlt : i.toNat < pa.maxAllocations.toNat := UInt32.lt_iff_toNat_lt.mp hi
  obtain ⟨-, hnodupBack, hapart⟩ := List.nodup_append.mp h.nodup
  have hiFront : i.toNat ∉ front := fun hmem => hapart _ hmem _ (by simp) rfl
  obtain ⟨middle, hfront, hmiddle, -⟩ := chain_append.mp h.linked
  subst hmiddle
  rw [linkFreed_front hhead]
  refine ⟨rfl, ?_, ?_, rfl, rfl⟩
  · change Chain (pa.storeLink i pa.headIndex).linkOf i.toNat (i.toNat :: front) i.toNat
    rw [hg.linkOf_storeLink hlt.le]
    exact hfront.push_front hiFront
  · intro j hj
    apply ((h.mem_iff j).mp _).1
    simp only [List.mem_cons, List.mem_append] at hj ⊢
    tauto

end FreeChain

private theorem linkFreed_back_shape {pa : PoolAllocator} {i : UInt32} (hne : i ≠ pa.maxAllocations)
    (hhead : ¬i < pa.headIndex) :
    (pa.linkFreed i).maxAllocations = pa.maxAllocations ∧
      (pa.linkFreed i).bytesPerAlloc = pa.bytesPerAlloc := by
  simp [linkFreed_back hne hhead]

private theorem PoolInv.free_again_back {s : PoolSystem} (h : PoolInv s) {front back : List Nat}
    {i : UInt32} (hchain : FreeChain s.pool s.live (front ++ i.toNat :: back))
    (hi : i < s.pool.maxAllocations) (hhead : ¬i < s.pool.headIndex) :
    PoolInv { pool := s.pool.linkFreed i
              live := s.live ∪ (back.map s.pool.slotOffset).toFinset } := by
  have hne : i ≠ s.pool.maxAllocations := fun he => UInt32.lt_irrefl _ (he ▸ hi)
  obtain ⟨hmax, hbytes⟩ := linkFreed_back_shape hne hhead
  constructor
  case geometry => exact h.geometry.congr hmax hbytes
  case chain => exact ⟨_, hchain.free_again_back h.geometry hi hhead⟩
  case live_slot =>
    intro pointer hp
    have hoffset : (s.pool.linkFreed i).slotOffset = s.pool.slotOffset := by
      funext j
      rw [slotOffset, slotOffset, hbytes]
    rw [hmax, hoffset]
    rcases Finset.mem_union.mp hp with hheld | hlost
    · exact h.live_slot pointer hheld
    · obtain ⟨j, hj, rfl⟩ := List.mem_map.mp (List.mem_toFinset.mp hlost)
      exact ⟨j, ((hchain.mem_iff j).mp (by simp [hj])).1, rfl⟩
  case touched_slot =>
    intro j hj
    rw [hmax]
    rw [linkFreed_back hne hhead] at hj
    rcases List.mem_cons.mp hj with rfl | hj
    · exact UInt32.lt_iff_toNat_lt.mp hi
    · rcases List.mem_cons.mp hj with rfl | hj
      · exact (h.tail_slot hi hhead).1
      · exact h.touched_slot j hj

private theorem answers_followed {s : PoolSystem} (hg : s.pool.Geometry)
    (hslots : ∀ k, s.pool.linkOf^[k] s.pool.headIndex.toNat < s.pool.maxAllocations.toNat)
    (n : Nat) :
    s.answers (List.replicate n .alloc) = (List.range n).map fun k =>
      { result := .ok
        outPointer := some (s.pool.slotOffset (s.pool.linkOf^[k] s.pool.headIndex.toNat)) } := by
  induction n generalizing s with
  | zero => rfl
  | succ n ih =>
    have hlt : s.pool.headIndex.toNat < s.pool.maxAllocations.toNat := hslots 0
    have hfull : s.pool.headIndex ≠ s.pool.maxAllocations := fun he => by simp [he] at hlt
    have hload := hg.loadLink_toNat hlt.le
    have hptr := hg.ptrToIndex_eq hlt.le
    let next : PoolSystem :=
      { pool := (libdPoolAllocatorAlloc s.pool false false).pa
        live := s.live ∪ (libdPoolAllocatorAlloc s.pool false false).outPointer.toFinset }
    have hpool : next.pool.linkOf = s.pool.linkOf ∧
        next.pool.headIndex.toNat = s.pool.linkOf s.pool.headIndex.toNat ∧
        next.pool.slotOffset = s.pool.slotOffset ∧
        next.pool.maxAllocations = s.pool.maxAllocations ∧
        next.pool.bytesPerAlloc = s.pool.bytesPerAlloc := by
      dsimp only [next]
      rw [alloc_slot hfull]
      exact ⟨rfl, hload, rfl, rfl, rfl⟩
    obtain ⟨hlink, hhead, hoffset, hmax, hbytes⟩ := hpool
    have hrest := @ih next (hg.congr hmax hbytes) (by
      intro k
      rw [hlink, hhead, hmax]
      exact hslots (k + 1))
    have hfirst : s.answer .alloc =
        { result := .ok, outPointer := some (s.pool.slotOffset s.pool.headIndex.toNat) } := by
      simp [PoolSystem.answer, alloc_slot hfull, hptr]
    rw [hlink, hhead, hoffset] at hrest
    rw [List.replicate_succ, List.range_succ_eq_map, List.map_cons, List.map_map]
    show s.answer .alloc :: next.answers (List.replicate n .alloc) = _
    rw [hfirst, hrest]
    rfl

end Libdane
