import Libdane.Memory.Helpers
import Libdane.Framework.PartialRuns

/-!
# The linear allocator

A linear allocator reserves address space once, makes a growing front part of it accessible and
hands out consecutive ranges. A savepoint is a 32-bit copy of the head index. Offsets are taken
from `data`, which lies one header behind the start of the mapping.
-/

namespace Libdane

/-- `struct linear_allocator` without its data bytes, which no operation reads or writes. -/
structure LinearAllocator where
  currDataSize : UInt64
  headIndex : UInt64
  alignment : UInt8
  headerSize : UInt8
  sysPageSize : UInt32
  dataReservationSize : UInt64
  deriving DecidableEq

def sizeofLinearAllocator : UInt8 := 32

def LinearAllocator.totalReservationSize (la : LinearAllocator) : UInt64 :=
  libdMemoryAlignUp (la.headerSize.toUInt64 + la.dataReservationSize) la.sysPageSize.toUInt64

structure LinearAllocatorSavepoint where
  dataIndex : UInt32
  deriving DecidableEq

/-- The system calls: the page size of `sysconf`, and which lengths `mmap`, `mprotect` and `munmap`
accept. -/
structure Os where
  pageSize : Int64
  mmap : UInt64 → Bool
  mprotect : UInt64 → Bool
  munmap : UInt64 → Bool

inductive OsCall where
  | mmap (length : UInt64)
  | mprotect (length : UInt64)
  | munmap (length : UInt64)
  deriving DecidableEq

structure LinearCreateReturn where
  result : LibdResult
  out : Option LinearAllocator
  calls : List OsCall
  deriving DecidableEq

/-- The header and the reservation are added in 32 bits, the header and the capacity in 64. -/
def libdLinearAllocatorCreate (os : Os) (outNull : Bool)
    (dataReservationSize startingCapacity : UInt32) (alignment : UInt8) : LinearCreateReturn :=
  if outNull || startingCapacity == 0 then
    { result := .invalidParameter, out := none, calls := [] }
  else if !libdMemoryIsValidAlignment alignment then
    { result := .invalidAlignment, out := none, calls := [] }
  else if os.pageSize == -1 then
    { result := .err, out := none, calls := [] }
  else
    let headerSize := sizeofLinearAllocator
    let pageSize := os.pageSize.toUInt64
    let totalReservationSize :=
      libdMemoryAlignUp (headerSize.toUInt32 + dataReservationSize).toUInt64 pageSize
    if !os.mmap totalReservationSize then
      { result := .err, out := none, calls := [.mmap totalReservationSize] }
    else
      let currDataSize := libdMemoryAlignUp startingCapacity.toUInt64 pageSize
      let currTotalSize := libdMemoryAlignUp (headerSize.toUInt64 + currDataSize) pageSize
      let calls := [.mmap totalReservationSize, .mprotect currTotalSize]
      -- the mapping is not given back when `mprotect` fails
      if !os.mprotect currTotalSize then
        { result := .err, out := none, calls := calls }
      else
        { result := .ok
          out := some
            { currDataSize := currDataSize, headIndex := 0, alignment := alignment,
              headerSize := headerSize, sysPageSize := pageSize.toUInt32,
              dataReservationSize := dataReservationSize.toUInt64 }
          calls := calls }

structure LinearReturn where
  result : LibdResult
  la : LinearAllocator
  calls : List OsCall
  deriving DecidableEq

def libdLinearAllocatorDestroy (os : Os) (la : LinearAllocator) (laNull : Bool) : LinearReturn :=
  if laNull then
    { result := .invalidParameter, la := la, calls := [] }
  else
    let calls := [.munmap la.totalReservationSize]
    if !os.munmap la.totalReservationSize then
      { result := .err, la := la, calls := calls }
    else
      { result := .ok, la := la, calls := calls }

/-- The first of the two roundings of a growth that makes room for `needed` bytes. -/
def LinearAllocator.newDataSize (la : LinearAllocator) (needed : UInt64) : UInt64 :=
  libdMemoryAlignUp needed (la.currDataSize * 2)

/-- The second one, before it is capped by the reservation. -/
def LinearAllocator.newTotalSize (la : LinearAllocator) (needed : UInt64) : UInt64 :=
  libdMemoryAlignUp (la.headerSize.toUInt64 + la.newDataSize needed) la.sysPageSize.toUInt64

/-- The size of header and data after the growth. -/
def LinearAllocator.grownTotalSize (la : LinearAllocator) (needed : UInt64) : UInt64 :=
  min (la.newTotalSize needed) la.totalReservationSize

/-- The data that a mapping accessible up to `newTotalSize` leaves behind the header. -/
def LinearAllocator.resize (la : LinearAllocator) (newTotalSize : UInt64) : LinearAllocator :=
  { la with currDataSize := newTotalSize - la.headerSize.toUInt64 }

/-- The head moves by the aligned size. -/
def LinearAllocator.bump (la : LinearAllocator) (size : UInt32) : LinearAllocator :=
  { la with headIndex :=
      la.headIndex + libdMemoryAlignUp size.toUInt64 la.alignment.toUInt64 }

structure LinearAllocReturn where
  result : LibdResult
  /-- What `*out_ptr` was set to. -/
  outPtr : Option UInt64
  la : LinearAllocator
  calls : List OsCall
  deriving DecidableEq

/-- Whether `mprotect` accepts the new size does not matter to what the function does next. -/
def libdLinearAllocatorAlloc (la : LinearAllocator) (laNull outPtrNull : Bool) (size : UInt32) :
    LinearAllocReturn :=
  if laNull || outPtrNull then
    { result := .invalidParameter, outPtr := none, la := la, calls := [] }
  else
    let needed := la.headIndex + size.toUInt64
    if la.currDataSize < needed then
      if la.dataReservationSize < needed then
        { result := .noMemory, outPtr := none, la := la, calls := [] }
      else
        let newTotalSize := la.grownTotalSize needed
        { result := .ok, outPtr := some la.headIndex, la := (la.resize newTotalSize).bump size,
          calls := [.mprotect newTotalSize] }
    else
      { result := .ok, outPtr := some la.headIndex, la := la.bump size, calls := [] }

structure LinearSavepointReturn where
  result : LibdResult
  outSp : Option LinearAllocatorSavepoint
  deriving DecidableEq

def libdLinearAllocatorSetSavepoint (la : LinearAllocator) (laNull outSpNull : Bool) :
    LinearSavepointReturn :=
  if laNull || outSpNull then
    { result := .invalidParameter, outSp := none }
  else
    { result := .ok, outSp := some { dataIndex := la.headIndex.toUInt32 } }

def libdLinearAllocatorRestoreSavepoint (la : LinearAllocator) (laNull spNull : Bool)
    (sp : LinearAllocatorSavepoint) : LinearReturn :=
  if laNull || spNull then
    { result := .invalidParameter, la := la, calls := [] }
  else
    { result := .ok, la := { la with headIndex := sp.dataIndex.toUInt64 }, calls := [] }

def libdLinearAllocatorReset (la : LinearAllocator) (laNull : Bool) : LinearReturn :=
  if laNull then
    { result := .invalidParameter, la := la, calls := [] }
  else
    { result := .ok, la := { la with headIndex := 0 }, calls := [] }

structure LinearBytesFreeReturn where
  result : LibdResult
  outSizeBytes : Option UInt64
  deriving DecidableEq

def libdLinearAllocatorBytesFree (la : LinearAllocator) (laNull outNull : Bool) :
    LinearBytesFreeReturn :=
  if laNull || outNull then
    { result := .invalidParameter, outSizeBytes := none }
  else
    { result := .ok, outSizeBytes := some (la.currDataSize - la.headIndex) }

/-- A range that was handed out at time `birth`. -/
structure LinearRange where
  birth : Nat
  offset : Nat
  size : Nat
  deriving DecidableEq

def LinearRange.stop (r : LinearRange) : Nat := r.offset + r.size

/-- A savepoint that was set at time `birth`, and whether nothing has invalidated it since. -/
structure TakenSavepoint where
  birth : Nat
  sp : LinearAllocatorSavepoint
  valid : Bool
  deriving DecidableEq

/-- An allocator with the ranges its client holds and every savepoint ever set. `accessible` is the
largest size for which `mprotect` has succeeded. -/
structure LinearSystem where
  la : LinearAllocator
  accessible : Nat
  clock : Nat
  live : List LinearRange
  taken : List TakenSavepoint
  deriving DecidableEq

inductive LinearOp where
  | alloc (size : UInt32)
  | setSavepoint
  | restoreSavepoint (index : Nat)
  | reset
  deriving DecidableEq

/-- The accessible size after a list of system calls. -/
def accessibleAfter (os : Os) (accessible : Nat) : List OsCall → Nat
  | [] => accessible
  | .mprotect length :: calls =>
    accessibleAfter os (if os.mprotect length then max accessible length.toNat else accessible) calls
  | _ :: calls => accessibleAfter os accessible calls

namespace LinearSystem

def start (la : LinearAllocator) (committed : UInt64) : LinearSystem :=
  { la := la, accessible := committed.toNat, clock := 0, live := [], taken := [] }

/-- Restoring a savepoint ends the ranges handed out after it and invalidates the savepoints set
after it. A reset ends and invalidates everything. -/
def step (os : Os) (s : LinearSystem) : LinearOp → Option LinearSystem
  | .alloc size =>
    let r := libdLinearAllocatorAlloc s.la false false size
    let made := r.outPtr.map fun offset =>
      { birth := s.clock, offset := offset.toNat, size := size.toNat : LinearRange }
    some { s with
      la := r.la
      accessible := accessibleAfter os s.accessible r.calls
      clock := s.clock + 1
      live := made.toList ++ s.live }
  | .setSavepoint =>
    let r := libdLinearAllocatorSetSavepoint s.la false false
    let made := r.outSp.map fun sp =>
      { birth := s.clock, sp := sp, valid := true : TakenSavepoint }
    some { s with clock := s.clock + 1, taken := s.taken ++ made.toList }
  | .restoreSavepoint index =>
    s.taken[index]?.map fun t =>
      { s with
        la := (libdLinearAllocatorRestoreSavepoint s.la false false t.sp).la
        clock := s.clock + 1
        live := s.live.filter fun r => r.birth < t.birth
        taken := s.taken.map fun u => { u with valid := u.valid && u.birth ≤ t.birth } }
  | .reset =>
    some { s with
      la := (libdLinearAllocatorReset s.la false).la
      clock := s.clock + 1
      live := []
      taken := s.taken.map fun u => { u with valid := false } }

/-- A client that never restores an invalidated savepoint. -/
def orderlyStep (os : Os) (s : LinearSystem) : LinearOp → Option LinearSystem
  | .restoreSavepoint index =>
    if (s.taken[index]?.any fun t => t.valid) then step os s (.restoreSavepoint index) else none
  | op => step os s op

def run (os : Os) : LinearSystem → List LinearOp → Option LinearSystem :=
  PartialRuns.run (step os)

def orderlyRun (os : Os) : LinearSystem → List LinearOp → Option LinearSystem :=
  PartialRuns.run (orderlyStep os)

end LinearSystem

end Libdane
