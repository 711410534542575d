import Libdane.Memory.Helpers
import Libdane.Framework.LittleEndian
import Libdane.Framework.PartialRuns
import Mathlib.Data.Finset.Card

/-!
# The pool allocator

A pool hands out fixed-size slots of one block. Free slots form a list that is stored inside the
slots themselves: the first four bytes of a free slot hold the index of the next one, and the index
`max_allocations` ends the list. Pointers into the pool are byte distances from `data`.
-/

namespace Libdane

open LittleEndian

/-- `struct pool_allocator`, with `data` by byte offset. `touched` is a ghost field: the slot
indices whose bytes the allocator itself has read or written. -/
structure PoolAllocator where
  maxAllocations : UInt32
  bytesPerAlloc : UInt32
  headIndex : UInt32
  tailIndex : UInt32
  data : Nat → UInt8
  touched : List UInt32

def sizeofPoolAllocator : UInt64 := 16
def sizeofFreeNode : UInt64 := 4
def alignofFreeNode : UInt64 := 4

def alignedSizeofFreeNode : UInt64 := libdMemoryAlignUp sizeofFreeNode alignofFreeNode

namespace PoolAllocator

def byteIndex (pa : PoolAllocator) (i : UInt32) : UInt32 := i * pa.bytesPerAlloc

def terminalIndex (pa : PoolAllocator) : UInt32 := pa.maxAllocations

def ptrToIndex (pa : PoolAllocator) (i : UInt32) : Nat := (pa.byteIndex i).toNat

/-- The `memcpy` of a link out of slot `i`. -/
def loadLink (pa : PoolAllocator) (i : UInt32) : UInt32 :=
  UInt32.ofNat (load pa.data (pa.ptrToIndex i) sizeofFreeNode.toNat)

/-- The `memcpy` of a link into slot `i`. -/
def storeLink (pa : PoolAllocator) (i link : UInt32) : PoolAllocator :=
  { pa with
    data := store pa.data (pa.ptrToIndex i) sizeofFreeNode.toNat link.toNat
    touched := i :: pa.touched }

@[simp] theorem storeLink_maxAllocations (pa : PoolAllocator) (i link : UInt32) :
    (pa.storeLink i link).maxAllocations = pa.maxAllocations := rfl

@[simp] theorem storeLink_bytesPerAlloc (pa : PoolAllocator) (i link : UInt32) :
    (pa.storeLink i link).bytesPerAlloc = pa.bytesPerAlloc := rfl

@[simp] theorem storeLink_headIndex (pa : PoolAllocator) (i link : UInt32) :
    (pa.storeLink i link).headIndex = pa.headIndex := rfl

@[simp] theorem storeLink_tailIndex (pa : PoolAllocator) (i link : UInt32) :
    (pa.storeLink i link).tailIndex = pa.tailIndex := rfl

@[simp] theorem storeLink_touched (pa : PoolAllocator) (i link : UInt32) :
    (pa.storeLink i link).touched = i :: pa.touched := rfl

/-- The first `n` iterations of the loop that links each slot to its successor. -/
def linkSlots (pa : PoolAllocator) : Nat → PoolAllocator
  | 0 => pa
  | n + 1 => (pa.linkSlots n).storeLink (UInt32.ofNat n) (UInt32.ofNat n + 1)

@[simp] theorem linkSlots_maxAllocations (pa : PoolAllocator) (n : Nat) :
    (pa.linkSlots n).maxAllocations = pa.maxAllocations := by
  induction n with
  | zero => rfl
  | succ n ih => exact ih

@[simp] theorem linkSlots_bytesPerAlloc (pa : PoolAllocator) (n : Nat) :
    (pa.linkSlots n).bytesPerAlloc = pa.bytesPerAlloc := by
  induction n with
  | zero => rfl
  | succ n ih => exact ih

@[simp] theorem linkSlots_headIndex (pa : PoolAllocator) (n : Nat) :
    (pa.linkSlots n).headIndex = pa.headIndex := by
  induction n with
  | zero => rfl
  | succ n ih => exact ih

@[simp] theorem linkSlots_tailIndex (pa : PoolAllocator) (n : Nat) :
    (pa.linkSlots n).tailIndex = pa.tailIndex := by
  induction n with
  | zero => rfl
  | succ n ih => exact ih

/-- The part of `libd_pool_allocator_free` after the validation of the pointer. -/
def linkFreed (pa : PoolAllocator) (freeIndex : UInt32) : PoolAllocator :=
  let pa :=
    if freeIndex < pa.headIndex then
      { pa.storeLink freeIndex pa.headIndex with headIndex := freeIndex }
    else
      let pa := { pa.storeLink pa.tailIndex freeIndex with tailIndex := freeIndex }
      pa.storeLink pa.tailIndex pa.terminalIndex
  -- a slot freed out of a full pool is also the last one
  if pa.tailIndex == pa.terminalIndex then { pa with tailIndex := pa.headIndex } else pa

@[simp] theorem linkFreed_maxAllocations (pa : PoolAllocator) (i : UInt32) :
    (pa.linkFreed i).maxAllocations = pa.maxAllocations := by
  by_cases hhead : i < pa.headIndex
  · simp only [linkFreed, hhead, if_true]
    split <;> rfl
  · simp only [linkFreed, hhead, if_false]
    split <;> rfl

@[simp] theorem linkFreed_bytesPerAlloc (pa : PoolAllocator) (i : UInt32) :
    (pa.linkFreed i).bytesPerAlloc = pa.bytesPerAlloc := by
  by_cases hhead : i < pa.headIndex
  · simp only [linkFreed, hhead, if_true]
    split <;> rfl
  · simp only [linkFreed, hhead, if_false]
    split <;> rfl

end PoolAllocator

structure PoolReturn where
  result : LibdResult
  pa : PoolAllocator

def initializeFreeList (pa : PoolAllocator) : PoolReturn :=
  let pa := { pa with headIndex := 0, tailIndex := pa.terminalIndex - 1 }
  let pa := pa.linkSlots pa.tailIndex.toNat
  { result := .ok, pa := pa.storeLink pa.tailIndex pa.terminalIndex }

@[simp] theorem initializeFreeList_maxAllocations (pa : PoolAllocator) :
    (initializeFreeList pa).pa.maxAllocations = pa.maxAllocations := by
  simp [initializeFreeList]

@[simp] theorem initializeFreeList_bytesPerAlloc (pa : PoolAllocator) :
    (initializeFreeList pa).pa.bytesPerAlloc = pa.bytesPerAlloc := by
  simp [initializeFreeList]

/-- The slot size that `libd_pool_allocator_create` stores, narrowed to 32 bits. -/
def alignedBytesPerAlloc (bytesPerAlloc : UInt32) (alignment : UInt8) : UInt32 :=
  let aligned := (libdMemoryAlignUp bytesPerAlloc.toUInt64 alignment.toUInt64).toUInt32
  if aligned.toUInt64 < alignedSizeofFreeNode then alignedSizeofFreeNode.toUInt32 else aligned

structure PoolCreateReturn where
  result : LibdResult
  outPa : Option PoolAllocator
  /-- The size passed to `malloc`, if it was called. -/
  mallocSize : Option UInt64

/-- `malloc` answers a size with the old bytes behind the header of the block, or with NULL.
The product of the two `u32` operands is formed in 32 bits before it is widened. -/
def libdPoolAllocatorCreate (malloc : UInt64 → Option (Nat → UInt8)) (outPaNull : Bool)
    (maxAllocations bytesPerAlloc : UInt32) (alignment : UInt8) : PoolCreateReturn :=
  if outPaNull || maxAllocations == 0 || bytesPerAlloc == 0 then
    { result := .invalidParameter, outPa := none, mallocSize := none }
  else if !libdMemoryIsValidAlignment alignment then
    { result := .invalidAlignment, outPa := none, mallocSize := none }
  else if maxAllocations == u32Max then
    { result := .noMemory, outPa := none, mallocSize := none }
  else
    let slotSize := alignedBytesPerAlloc bytesPerAlloc alignment
    let dataSize := ((maxAllocations + 1) * slotSize).toUInt64
    let totalSize := sizeofPoolAllocator + dataSize + alignment.toUInt64 - 1
    match malloc totalSize with
    | none => { result := .noMemory, outPa := none, mallocSize := some totalSize }
    | some block =>
      let init := initializeFreeList
        { maxAllocations := maxAllocations, bytesPerAlloc := slotSize, headIndex := 0, tailIndex := 0,
          data := block, touched := [] }
      if init.result != .ok then
        { result := .freeListFailure, outPa := none, mallocSize := some totalSize }
      else
        { result := .ok, outPa := some init.pa, mallocSize := some totalSize }

structure PoolAllocReturn where
  result : LibdResult
  /-- What `*out_pointer` was set to. -/
  outPointer : Option Nat
  pa : PoolAllocator

def libdPoolAllocatorAlloc (pa : PoolAllocator) (paNull outPointerNull : Bool) : PoolAllocReturn :=
  if paNull || outPointerNull then
    { result := .invalidParameter, outPointer := none, pa := pa }
  else if pa.headIndex == pa.terminalIndex then
    { result := .noMemory, outPointer := none, pa := pa }
  else
    let outPointer := pa.ptrToIndex pa.headIndex
    let pa := { pa with
      headIndex := pa.loadLink pa.headIndex
      touched := pa.headIndex :: pa.touched }
    let pa :=
      if pa.headIndex == pa.terminalIndex then { pa with tailIndex := pa.terminalIndex } else pa
    { result := .ok, outPointer := some outPointer, pa := pa }

/-- `byteOffset` is the signed distance of `p_to_free` from `data`. -/
def libdPoolAllocatorFree (pa : PoolAllocator) (paNull pToFreeNull : Bool) (byteOffset : Int) :
    PoolReturn :=
  if paNull || pToFreeNull then
    { result := .invalidParameter, pa := pa }
  else if byteOffset < 0 || byteOffset.tmod pa.bytesPerAlloc.toNat != 0 then
    { result := .invalidPointer, pa := pa }
  else
    let freeIndex := UInt32.ofInt (byteOffset.tdiv pa.bytesPerAlloc.toNat)
    if freeIndex ≥ pa.maxAllocations then
      { result := .invalidPointer, pa := pa }
    else
      { result := .ok, pa := pa.linkFreed freeIndex }

def libdPoolAllocatorReset (pa : PoolAllocator) : PoolReturn := initializeFreeList pa

/-- A pool and the pointers its client holds. -/
structure PoolSystem where
  pool : PoolAllocator
  live : Finset Nat

inductive PoolOp where
  | alloc
  | free (pointer : Nat)
  | reset
  | write (pointer offset : Nat) (byte : UInt8)

namespace PoolSystem

def start (pool : PoolAllocator) : PoolSystem := { pool := pool, live := ∅ }

/-- A client frees and writes only through pointers it holds, inside their slots. What it has freed
it holds no longer, whatever the pool answers. -/
def step (s : PoolSystem) : PoolOp → Option PoolSystem
  | .alloc =>
    let r := libdPoolAllocatorAlloc s.pool false false
    some { pool := r.pa, live := s.live ∪ r.outPointer.toFinset }
  | .free pointer =>
    if pointer ∈ s.live then
      let r := libdPoolAllocatorFree s.pool false false pointer
      some { pool := r.pa, live := s.live.erase pointer }
    else none
  | .reset => some { pool := (libdPoolAllocatorReset s.pool).pa, live := ∅ }
  | .write pointer offset byte =>
    if pointer ∈ s.live ∧ offset < s.pool.bytesPerAlloc.toNat then
      some { s with pool := { s.pool with
        data := Function.update s.pool.data (pointer + offset) byte } }
    else none

def run : PoolSystem → List PoolOp → Option PoolSystem := PartialRuns.run step

end PoolSystem

end Libdane
