import Libdane.Memory.PoolFrame
import Libdane.Framework.BlockHeap

/-!
# The pool as a heap of objects

To its client a pool is a heap of separate objects. What the client has written into an object is
there until it is overwritten or the object is given back, whatever happens to the other slots and
although the pool keeps its own links in the same block.
-/

namespace Libdane

open PoolAllocator PartialRuns BlockHeap

/-- The objects by their pointers, with the bytes written since they were handed out. -/
abbrev ObjectHeap : Type := Heap Nat (Nat → Option UInt8)

inductive ObjectEvent where
  | handOut (pointer : Nat)
  | giveBack (pointer : Nat)
  | clear
  | put (pointer offset : Nat) (byte : UInt8)

namespace ObjectHeap

def empty : ObjectHeap := fun _ => none

/-- Only what is not held can be handed out, and only what is held can be written or given back. -/
def apply (h : ObjectHeap) : ObjectEvent → Option ObjectHeap
  | .handOut pointer => if (h pointer).isSome then none else some (malloc h pointer fun _ => none)
  | .giveBack pointer =>
    if (h pointer).isSome then some (Function.update h pointer none) else none
  | .clear => some empty
  | .put pointer offset byte => (h pointer).map fun bytes =>
    malloc h pointer (Function.update bytes offset (some byte))

end ObjectHeap

/-- What an action of the client means for its objects. -/
def PoolSystem.events (s : PoolSystem) : PoolOp → List ObjectEvent
  | .alloc => (libdPoolAllocatorAlloc s.pool false false).outPointer.toList.map .handOut
  | .free pointer => [.giveBack pointer]
  | .reset => [.clear]
  | .write pointer offset byte => [.put pointer offset byte]

/-- The client holds these objects, and their bytes are in the block of the pool. -/
structure HoldsObjects (s : PoolSystem) (h : ObjectHeap) : Prop where
  live : ∀ pointer, (h pointer).isSome ↔ pointer ∈ s.live
  offset : ∀ {pointer bytes k b}, h pointer = some bytes → bytes k = some b →
    k < s.pool.bytesPerAlloc.toNat
  data : ∀ {pointer bytes k b}, h pointer = some bytes → bytes k = some b →
    s.pool.data (pointer + k) = b

namespace HoldsObjects

variable {s next : PoolSystem} {h : ObjectHeap}

private theorem mem_live (ho : HoldsObjects s h) {pointer : Nat} {bytes : Nat → Option UInt8}
    (hbytes : h pointer = some bytes) : pointer ∈ s.live :=
  (ho.live pointer).mp (by rw [hbytes]; rfl)

private theorem alloc (ho : HoldsObjects s h) (hi : PoolInv s)
    (hnext : PoolSystem.step s .alloc = some next) :
    ∃ h', run ObjectHeap.apply h (s.events .alloc) = some h' ∧ HoldsObjects next h' := by
  have hshape := (hi.step_shape hnext).2
  simp only [PoolSystem.step, Option.some.injEq] at hnext
  subst hnext
  have hdata := PoolInv.alloc_data s
  by_cases hfull : s.pool.headIndex = s.pool.maxAllocations
  · rw [PoolSystem.events, alloc_full hfull]
    exact ⟨h, rfl, by simpa using ho⟩
  · obtain ⟨hslot, hdead⟩ := hi.head_slot hfull
    have hptr := hi.geometry.ptrToIndex_eq hslot.le
    have hout : (libdPoolAllocatorAlloc s.pool false false).outPointer =
        some (s.pool.slotOffset s.pool.headIndex.toNat) := by
      rw [alloc_slot hfull, ← hptr]
    generalize s.pool.slotOffset s.pool.headIndex.toNat = fresh at hdead hout
    have hnone : ¬(h fresh).isSome := fun hsome => hdead ((ho.live fresh).mp hsome)
    refine ⟨malloc h fresh fun _ => none, ?_, ?_⟩
    · simp [PoolSystem.events, hout, ObjectHeap.apply, hnone]
    · -- the fresh object has no written bytes, and the others keep theirs
      have hother : ∀ {pointer bytes k b}, malloc h fresh (fun _ => none) pointer = some bytes →
          bytes k = some b → h pointer = some bytes := by
        intro pointer bytes k b hbytes hb
        by_cases hp : pointer = fresh
        · rw [hp, malloc_self, Option.some.injEq] at hbytes
          rw [← hbytes] at hb
          cases hb
        · rwa [malloc_of_ne hp] at hbytes
      constructor
      case live =>
        intro pointer
        rw [hout]
        by_cases hp : pointer = fresh
        · simp [hp]
        · rw [malloc_of_ne hp, ho.live]
          simp [hp]
      case offset =>
        intro pointer bytes k b hbytes hb
        rw [hshape]
        exact ho.offset (hother hbytes hb) hb
      case data =>
        intro pointer bytes k b hbytes hb
        rw [hdata]
        exact ho.data (hother hbytes hb) hb

private theorem free (ho : HoldsObjects s h) (hi : PoolInv s) {freed : Nat}
    (hnext : PoolSystem.step s (.free freed) = some next) :
    ∃ h', run ObjectHeap.apply h (s.events (.free freed)) = some h' ∧ HoldsObjects next h' := by
  have hshape := (hi.step_shape hnext).2
  rw [PoolSystem.step] at hnext
  split_ifs at hnext with hlive
  simp only [Option.some.injEq] at hnext
  subst hnext
  have hsome : (h freed).isSome := (ho.live freed).mpr hlive
  have hother : ∀ {pointer bytes}, Function.update h freed none pointer = some bytes →
      pointer ≠ freed ∧ h pointer = some bytes := by
    intro pointer bytes hbytes
    by_cases hp : pointer = freed
    · rw [hp, Function.update_self] at hbytes
      cases hbytes
    · rw [Function.update_of_ne hp] at hbytes
      exact ⟨hp, hbytes⟩
  refine ⟨Function.update h freed none, ?_, ?_⟩
  · simp [PoolSystem.events, ObjectHeap.apply, hsome]
  · constructor
    case live =>
      intro pointer
      rw [Finset.mem_erase, ← ho.live]
      by_cases hp : pointer = freed
      · simp [hp]
      · simp [hp]
    case offset =>
      intro pointer bytes k b hbytes hb
      rw [hshape]
      exact ho.offset (hother hbytes).2 hb
    case data =>
      intro pointer bytes k b hbytes hb
      obtain ⟨hp, hold⟩ := hother hbytes
      exact (hi.free_data hlive (ho.mem_live hold) hp (ho.offset hold hb)).trans (ho.data hold hb)

private theorem write (ho : HoldsObjects s h) (hi : PoolInv s) {target offset : Nat} {byte : UInt8}
    (hnext : PoolSystem.step s (.write target offset byte) = some next) :
    ∃ h', run ObjectHeap.apply h (s.events (.write target offset byte)) = some h' ∧
      HoldsObjects next h' := by
  rw [PoolSystem.step] at hnext
  split_ifs at hnext with hwrite
  simp only [Option.some.injEq] at hnext
  subst hnext
  obtain ⟨hlive, hoffset⟩ := hwrite
  obtain ⟨old, hold⟩ := Option.isSome_iff_exists.mp ((ho.live target).mpr hlive)
  refine ⟨malloc h target (Function.update old offset (some byte)), ?_, ?_⟩
  · simp [PoolSystem.events, ObjectHeap.apply, hold]
  · constructor
    case live =>
      intro pointer
      show _ ↔ pointer ∈ s.live
      by_cases hp : pointer = target
      · simp [hp, hlive]
      · rw [malloc_of_ne hp, ho.live]
    case offset =>
      intro pointer bytes k b hbytes hb
      show k < s.pool.bytesPerAlloc.toNat
      by_cases hp : pointer = target
      · rw [hp, malloc_self, Option.some.injEq] at hbytes
        rw [← hbytes] at hb
        by_cases hk : k = offset
        · rwa [hk]
        · rw [Function.update_of_ne hk] at hb
          exact ho.offset hold hb
      · rw [malloc_of_ne hp] at hbytes
        exact ho.offset hbytes hb
    case data =>
      intro pointer bytes k b hbytes hb
      show Function.update s.pool.data (target + offset) byte (pointer + k) = b
      by_cases hp : pointer = target
      · rw [hp, malloc_self, Option.some.injEq] at hbytes
        rw [← hbytes] at hb
        by_cases hk : k = offset
        · rw [hk, Function.update_self, Option.some.injEq] at hb
          rw [hp, hk, Function.update_self, hb]
        · rw [Function.update_of_ne hk] at hb
          rw [hp, Function.update_of_ne (by omega)]
          exact ho.data hold hb
      · -- another object lies in another slot
        rw [malloc_of_ne hp] at hbytes
        have hk := ho.offset hbytes hb
        obtain ⟨i, -, hi'⟩ := hi.live_slot target hlive
        obtain ⟨j, -, hj⟩ := hi.live_slot pointer (ho.mem_live hbytes)
        have hij : i ≠ j := by
          rintro rfl
          exact hp (hj.trans hi'.symm)
        have hsep := s.pool.slotOffset_separate hij
        rw [Function.update_of_ne (by omega)]
        exact ho.data hbytes hb

private theorem step (ho : HoldsObjects s h) (hi : PoolInv s) {op : PoolOp}
    (hnext : PoolSystem.step s op = some next) :
    ∃ h', run ObjectHeap.apply h (s.events op) = some h' ∧ HoldsObjects next h' := by
  cases op with
  | alloc => exact ho.alloc hi hnext
  | free freed => exact ho.free hi hnext
  | write target offset byte => exact ho.write hi hnext
  | reset =>
    cases hnext
    refine ⟨ObjectHeap.empty, rfl, ?_⟩
    constructor
    case live => simp [ObjectHeap.empty]
    case offset =>
      intro pointer bytes k b hbytes
      cases hbytes
    case data =>
      intro pointer bytes k b hbytes
      cases hbytes

end HoldsObjects

/-- Every run of a created pool is a run of a heap of objects: none is handed out while it is held,
and each one that is held has in its slot the bytes last written into it since it was handed out. -/
theorem pool_objects (malloc : UInt64 → Option (Nat → UInt8)) (outPaNull : Bool)
    (maxAllocations bytesPerAlloc : UInt32) (alignment : UInt8) (pa : PoolAllocator)
    (mallocSize : Option UInt64)
    (hcreate : libdPoolAllocatorCreate malloc outPaNull maxAllocations bytesPerAlloc alignment =
      { result := .ok, outPa := some pa, mallocSize := mallocSize })
    (hroom : (pa.maxAllocations.toNat + 1) * pa.bytesPerAlloc.toNat < 2 ^ 32)
    (ops : List PoolOp) (s : PoolSystem)
    (hrun : PoolSystem.run (PoolSystem.start pa) ops = some s) :
    ∃ h, run ObjectHeap.apply .empty
        (history PoolSystem.step PoolSystem.events (PoolSystem.start pa) ops) = some h ∧
      (∀ pointer, (h pointer).isSome ↔ pointer ∈ s.live) ∧
      ∀ pointer bytes k b, h pointer = some bytes → bytes k = some b →
        s.pool.data (pointer + k) = b := by
  have hempty : HoldsObjects (PoolSystem.start pa) .empty := by
    constructor
    case live => simp [ObjectHeap.empty, PoolSystem.start]
    case offset =>
      intro pointer bytes k b hbytes
      cases hbytes
    case data =>
      intro pointer bytes k b hbytes
      cases hbytes
  obtain ⟨h, hhistory, -, hholds⟩ := run_history (fun s h => PoolInv s ∧ HoldsObjects s h)
    (fun s h op next hs hnext => by
      obtain ⟨h', hevents, hnext'⟩ := hs.2.step hs.1 hnext
      exact ⟨h', hevents, hs.1.step hnext, hnext'⟩)
    ⟨PoolInv.create hcreate hroom, hempty⟩ hrun
  exact ⟨h, hhistory, hholds.live, fun pointer bytes k b => hholds.data⟩

/-- A byte written into slot 1 while slot 0 is given back and handed out again. -/
theorem pool_objects_three_slots :
    ∃ s h, PoolSystem.run (PoolSystem.start threeSlots)
        [.alloc, .alloc, .write 8 7 9, .free 0, .alloc] = some s ∧
      run ObjectHeap.apply .empty (history PoolSystem.step PoolSystem.events
        (PoolSystem.start threeSlots) [.alloc, .alloc, .write 8 7 9, .free 0, .alloc]) = some h ∧
      (∀ pointer, (h pointer).isSome ↔ pointer ∈ s.live) ∧
      ∀ pointer bytes k b, h pointer = some bytes → bytes k = some b →
        s.pool.data (pointer + k) = b := by
  obtain ⟨s, hrun⟩ : ∃ s, PoolSystem.run (PoolSystem.start threeSlots)
      [.alloc, .alloc, .write 8 7 9, .free 0, .alloc] = some s := ⟨_, rfl⟩
  obtain ⟨h, hhistory, hholds⟩ := pool_objects zeroMalloc false 3 5 8 threeSlots (some 55) rfl
    (by decide) _ s hrun
  exact ⟨s, h, hrun, hhistory, hholds⟩

end Libdane
