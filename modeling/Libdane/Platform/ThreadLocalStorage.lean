import Libdane.Common
import Mathlib.Logic.Function.Basic

/-!
# Thread-local storage

A handle is a heap block that names a POSIX key and the size of the buffers stored under it. Every
thread gets its buffer at its first access. One handle is kept in global variables, with a
`pthread_once` flag in front of its creation. Heap blocks and keys have names that are never used
twice, so that the use of a freed block is seen as such.
-/

namespace Libdane

structure ThreadLocalStorageHandle where
  key : Nat
  dataSize : UInt64

structure TlsBuffer where
  size : UInt64
  content : List UInt8

/-- What the system calls of one call of the library answer. `malloc` gives the old bytes of the
block. -/
structure TlsOs where
  malloc : UInt64 → Option (List UInt8)
  keyCreate : Bool
  setspecific : Bool

/-- A destructor is named by a number. -/
abbrev TlsDestructor : Type := Option Nat

/-- A setter gets the buffer and the bytes its second argument points to. -/
abbrev TlsSetter : Type := Option (List UInt8 → (Nat → UInt8) → List UInt8)

/-- The heap, the keys with their destructors, the values by thread and key, and the four variables
of the singleton. -/
structure TlsProcess where
  handles : Nat → Option ThreadLocalStorageHandle
  nextHandle : Nat
  keys : Nat → Option TlsDestructor
  nextKey : Nat
  specific : Nat → Nat → Option Nat
  buffers : Nat → Option TlsBuffer
  nextBuffer : Nat
  gStaticHandle : Option Nat
  gStaticOnce : Bool
  gStaticSize : UInt64
  gStaticDestructor : TlsDestructor

inductive TlsAbort where
  | useAfterFree (handle : Nat)
  | exit (code : LibdResult)
  deriving DecidableEq

structure TlsReturn where
  result : LibdResult
  process : TlsProcess

structure TlsGetReturn where
  result : LibdResult
  /-- What `*pp_data` was set to. -/
  data : Option Nat
  process : TlsProcess

def sizeofThreadLocalStorageHandle : UInt64 := 16

/-- The content of a buffer after the setter, or after `memcpy` when there is none. -/
def TlsBuffer.assign (b : TlsBuffer) (setter : TlsSetter) (dataSize : UInt64)
    (newData : Nat → UInt8) : TlsBuffer :=
  match setter with
  | some f => { b with content := f b.content newData }
  | none =>
    { b with content := (List.range dataSize.toNat).map newData ++ b.content.drop dataSize.toNat }

namespace TlsProcess

def start : TlsProcess :=
  { handles := fun _ => none, nextHandle := 0, keys := fun _ => none, nextKey := 0
    specific := fun _ _ => none, buffers := fun _ => none, nextBuffer := 0
    gStaticHandle := none, gStaticOnce := false, gStaticSize := 0, gStaticDestructor := none }

/-- The block behind a handle pointer. -/
def deref (p : TlsProcess) (handle : Nat) : Except TlsAbort ThreadLocalStorageHandle :=
  match p.handles handle with
  | some block => .ok block
  | none => .error (.useAfterFree handle)

/-- A new buffer of the handle's size, registered by `pthread_setspecific`. -/
def register (p : TlsProcess) (thread : Nat) (block : ThreadLocalStorageHandle)
    (old : List UInt8) : TlsProcess :=
  { p with
    buffers := Function.update p.buffers p.nextBuffer
      (some { size := block.dataSize, content := old })
    nextBuffer := p.nextBuffer + 1
    specific := Function.update p.specific thread
      (Function.update (p.specific thread) block.key (some p.nextBuffer)) }

/-- The buffer after the setter or the copy. -/
def assign (p : TlsProcess) (data : Nat) (setter : TlsSetter) (dataSize : UInt64)
    (newData : Nat → UInt8) : TlsProcess :=
  { p with
    buffers := Function.update p.buffers data
      ((p.buffers data).map fun b => b.assign setter dataSize newData) }

/-- `pthread_key_delete`, which runs no destructor, and `free`. -/
def release (p : TlsProcess) (handle : Nat) (block : ThreadLocalStorageHandle) : TlsProcess :=
  { p with
    keys := Function.update p.keys block.key none
    handles := Function.update p.handles handle none }

end TlsProcess

structure TlsCreateReturn where
  result : LibdResult
  /-- What `*p_handle` was set to. -/
  handle : Option Nat
  process : TlsProcess

def libdPlatformThreadLocalStorageCreate (os : TlsOs) (p : TlsProcess) (destructor : TlsDestructor)
    (size : UInt64) : TlsCreateReturn :=
  if (os.malloc sizeofThreadLocalStorageHandle).isNone then
    { result := .noMemory, handle := none, process := p }
  else if !os.keyCreate then
    { result := .noMemory, handle := none, process := p }
  else
    let handle := p.nextHandle
    let key := p.nextKey
    { result := .ok
      handle := some handle
      process := { p with
        handles := Function.update p.handles handle (some { key := key, dataSize := size })
        nextHandle := handle + 1
        keys := Function.update p.keys key (some destructor)
        nextKey := key + 1 } }

def libdPlatformThreadLocalStorageDestroy (p : TlsProcess) (handle : Option Nat) :
    Except TlsAbort TlsReturn :=
  match handle with
  | none => .ok { result := .invalidParameter, process := p }
  | some handle => do
    let block ← p.deref handle
    .ok { result := .ok, process := p.release handle block }

def libdPlatformThreadLocalStorageGet (os : TlsOs) (p : TlsProcess) (thread : Nat)
    (handle : Option Nat) : Except TlsAbort TlsGetReturn :=
  match handle with
  | none => .ok { result := .invalidParameter, data := none, process := p }
  | some handle => do
    let block ← p.deref handle
    match p.specific thread block.key with
    | some data => .ok { result := .ok, data := some data, process := p }
    | none =>
      match os.malloc block.dataSize with
      | none => .ok { result := .noMemory, data := none, process := p }
      | some old =>
        -- a buffer that cannot be registered is freed again
        if !os.setspecific then
          .ok
            { result := .err, data := none, process := { p with nextBuffer := p.nextBuffer + 1 } }
        else
          .ok
            { result := .ok, data := some p.nextBuffer, process := p.register thread block old }

def libdPlatformThreadLocalStorageSet (os : TlsOs) (p : TlsProcess) (thread : Nat)
    (handle : Option Nat) (setter : TlsSetter) (newData : Option (Nat → UInt8)) :
    Except TlsAbort TlsReturn :=
  match handle, newData with
  | some handle, some newData => do
    let r ← libdPlatformThreadLocalStorageGet os p thread (some handle)
    match r.data with
    | none => .ok { result := r.result, process := r.process }
    | some data => do
      let block ← r.process.deref handle
      .ok { result := .ok, process := r.process.assign data setter block.dataSize newData }
  | _, _ => .ok { result := .invalidParameter, process := p }

section Get

variable {os : TlsOs} {p : TlsProcess} {t h : Nat} {block : ThreadLocalStorageHandle}

theorem get_found (hblock : p.handles h = some block) {data : Nat}
    (hslot : p.specific t block.key = some data) :
    libdPlatformThreadLocalStorageGet os p t (some h) =
      .ok { result := .ok, data := some data, process := p } := by
  simp [libdPlatformThreadLocalStorageGet, TlsProcess.deref, hblock, hslot, bind, Except.bind]

theorem get_exhausted (hblock : p.handles h = some block)
    (hslot : p.specific t block.key = none) (hmalloc : os.malloc block.dataSize = none) :
    libdPlatformThreadLocalStorageGet os p t (some h) =
      .ok { result := .noMemory, data := none, process := p } := by
  simp [libdPlatformThreadLocalStorageGet, TlsProcess.deref, hblock, hslot, hmalloc, bind,
    Except.bind]

theorem get_refused (hblock : p.handles h = some block)
    (hslot : p.specific t block.key = none) {old : List UInt8}
    (hmalloc : os.malloc block.dataSize = some old) (hset : os.setspecific = false) :
    libdPlatformThreadLocalStorageGet os p t (some h) =
      .ok
        { result := .err, data := none, process := { p with nextBuffer := p.nextBuffer + 1 } } := by
  simp [libdPlatformThreadLocalStorageGet, TlsProcess.deref, hblock, hslot, hmalloc, hset, bind,
    Except.bind]

theorem get_registered (hblock : p.handles h = some block)
    (hslot : p.specific t block.key = none) {old : List UInt8}
    (hmalloc : os.malloc block.dataSize = some old) (hset : os.setspecific = true) :
    libdPlatformThreadLocalStorageGet os p t (some h) =
      .ok { result := .ok, data := some p.nextBuffer, process := p.register t block old } := by
  simp [libdPlatformThreadLocalStorageGet, TlsProcess.deref, hblock, hslot, hmalloc, hset, bind,
    Except.bind]

theorem live_of_get {r : TlsGetReturn}
    (hget : libdPlatformThreadLocalStorageGet os p t (some h) = .ok r) :
    ∃ block, p.handles h = some block := by
  cases hblock : p.handles h with
  | none =>
    simp [libdPlatformThreadLocalStorageGet, TlsProcess.deref, hblock, bind, Except.bind] at hget
  | some block => exact ⟨block, rfl⟩

end Get

/-- `_init_static_thread_local_storage`, which ends the process when the creation fails. -/
def initStaticThreadLocalStorage (os : TlsOs) (p : TlsProcess) : Except TlsAbort TlsProcess :=
  let r := libdPlatformThreadLocalStorageCreate os p p.gStaticDestructor p.gStaticSize
  if r.result != .ok then .error (.exit r.result)
  else .ok { r.process with gStaticHandle := r.handle }

/-- `pthread_once` runs the routine the first time and never again. -/
def pthreadOnce (os : TlsOs) (p : TlsProcess) : Except TlsAbort TlsProcess :=
  if p.gStaticOnce then .ok p
  else do
    let p ← initStaticThreadLocalStorage os p
    .ok { p with gStaticOnce := true }

def libdPlatformThreadLocalStaticInit (os : TlsOs) (p : TlsProcess) (destructor : TlsDestructor)
    (size : UInt64) : Except TlsAbort TlsReturn :=
  if p.gStaticHandle.isSome then .ok { result := .ok, process := p }
  else do
    let p := { p with gStaticDestructor := destructor, gStaticSize := size }
    let p ← pthreadOnce os p
    if p.gStaticHandle.isNone then .ok { result := .threadInitFailed, process := p }
    else .ok { result := .ok, process := p }

def libdPlatformThreadLocalStaticGet (os : TlsOs) (p : TlsProcess) (thread : Nat) :
    Except TlsAbort TlsGetReturn :=
  if p.gStaticHandle.isNone then .ok { result := .notInitialized, data := none, process := p }
  else libdPlatformThreadLocalStorageGet os p thread p.gStaticHandle

def libdPlatformThreadLocalStaticSet (os : TlsOs) (p : TlsProcess) (thread : Nat)
    (setter : TlsSetter) (data : Option (Nat → UInt8)) : Except TlsAbort TlsReturn :=
  if p.gStaticHandle.isNone then .ok { result := .notInitialized, process := p }
  else libdPlatformThreadLocalStorageSet os p thread p.gStaticHandle setter data

/-- The variables of the singleton keep their values. -/
def libdPlatformThreadLocalStaticCleanup (p : TlsProcess) : Except TlsAbort TlsReturn :=
  if p.gStaticHandle.isNone then .ok { result := .notInitialized, process := p }
  else libdPlatformThreadLocalStorageDestroy p p.gStaticHandle

end Libdane
