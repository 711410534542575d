import Libdane.Framework.PartialRuns
import Libdane.Platform.ThreadLocalStorage

/-!
# Threads inside the thread-local storage

Get and set are cut at the system calls they make, so that calls of several threads interleave. A
thread that exits hands its values to the destructors of their keys. A deleted key has none left.
The machine also keeps an account of the buffers: who allocated each, and where it went.
-/

namespace Libdane

open PartialRuns

/-- The system call a thread is about to make, or the end of its call once it has its buffer. -/
inductive TlsPoint where
  | getspecific
  | malloc
  | setspecific (data : Nat)
  | free (data : Nat)
  | obtained (data : Nat)

namespace TlsPoint

/-- The buffer in the local variable of the call. -/
def data : TlsPoint → Option Nat
  | .getspecific | .malloc => none
  | .setspecific b | .free b | .obtained b => some b

/-- The buffer that is in the local variable only. -/
def unregistered : TlsPoint → Option Nat
  | .setspecific b | .free b => some b
  | .getspecific | .malloc | .obtained _ => none

end TlsPoint

inductive TlsPurpose where
  | get
  | set (setter : TlsSetter) (newData : Nat → UInt8)

structure TlsCall where
  handle : Nat
  purpose : TlsPurpose
  point : TlsPoint

/-- What a call of get or set has returned. A set answers with the buffer it wrote to and with what
it wrote. -/
structure TlsAnswer where
  thread : Nat
  handle : Option Nat
  result : LibdResult
  data : Option Nat
  newData : Option (Nat → UInt8)

/-- Who allocated a buffer. -/
structure TlsOwner where
  thread : Nat
  handle : Nat
  key : Nat

structure TlsMachine where
  process : TlsProcess
  activity : Nat → Option TlsCall
  exited : Nat → Bool
  answers : List TlsAnswer
  owner : Nat → Option TlsOwner
  /-- The buffers that get freed itself. -/
  discarded : List Nat
  /-- The calls of destructors, each with its buffer. -/
  released : List (Nat × Nat)

inductive TlsAction where
  | create (os : TlsOs) (destructor : TlsDestructor) (size : UInt64)
  | get (thread : Nat) (handle : Option Nat)
  | set (thread : Nat) (handle : Option Nat) (setter : TlsSetter) (newData : Option (Nat → UInt8))
  | advance (thread : Nat) (os : TlsOs)
  | exit (thread : Nat)
  | destroy (handle : Option Nat)

namespace TlsProcess

variable (p : TlsProcess)

/-- What a creation that succeeds leaves. -/
def install (destructor : TlsDestructor) (size : UInt64) : TlsProcess :=
  { p with
    handles := Function.update p.handles p.nextHandle (some { key := p.nextKey, dataSize := size })
    nextHandle := p.nextHandle + 1
    keys := Function.update p.keys p.nextKey (some destructor)
    nextKey := p.nextKey + 1 }

/-- `malloc` of a buffer, which is called `p.nextBuffer`. -/
def allocate (size : UInt64) (old : List UInt8) : TlsProcess :=
  { p with
    buffers := Function.update p.buffers p.nextBuffer (some { size := size, content := old })
    nextBuffer := p.nextBuffer + 1 }

/-- `pthread_setspecific`. -/
def store (thread key data : Nat) : TlsProcess :=
  { p with
    specific := Function.update p.specific thread
      (Function.update (p.specific thread) key (some data)) }

/-- `free` of a buffer. -/
def dispose (data : Nat) : TlsProcess :=
  { p with buffers := Function.update p.buffers data none }

/-- The destructor of a key and the value that the exit of a thread passes to it. -/
def keyRelease (thread key : Nat) : Option (Nat × Nat) :=
  match p.keys key, p.specific thread key with
  | some (some destructor), some data => some (destructor, data)
  | _, _ => none

def exitReleases (thread : Nat) : List (Nat × Nat) :=
  (List.range p.nextKey).filterMap (p.keyRelease thread)

/-- The values of a thread are gone after its exit. -/
def forget (thread : Nat) : TlsProcess :=
  { p with specific := Function.update p.specific thread fun _ => none }

theorem install_handles (destructor : TlsDestructor) (size : UInt64) :
    (p.install destructor size).handles =
      Function.update p.handles p.nextHandle (some { key := p.nextKey, dataSize := size }) := rfl

theorem install_keys (destructor : TlsDestructor) (size : UInt64) :
    (p.install destructor size).keys = Function.update p.keys p.nextKey (some destructor) := rfl

theorem allocate_buffers (size : UInt64) (old : List UInt8) :
    (p.allocate size old).buffers =
      Function.update p.buffers p.nextBuffer (some { size := size, content := old }) := rfl

theorem store_specific (thread key data : Nat) :
    (p.store thread key data).specific = Function.update p.specific thread
      (Function.update (p.specific thread) key (some data)) := rfl

theorem store_specific_apply (thread key data t k : Nat) :
    (p.store thread key data).specific t k =
      if t = thread ∧ k = key then some data else p.specific t k := by
  rw [store_specific]
  by_cases ht : t = thread
  · subst ht
    by_cases hk : k = key
    · simp [hk]
    · simp [hk]
  · simp [ht]

theorem dispose_buffers (data : Nat) :
    (p.dispose data).buffers = Function.update p.buffers data none := rfl

theorem assign_buffers (data : Nat) (setter : TlsSetter) (size : UInt64) (newData : Nat → UInt8) :
    (p.assign data setter size newData).buffers = Function.update p.buffers data
      ((p.buffers data).map fun b => b.assign setter size newData) := rfl

theorem live_of_dispose {data b : Nat} (h : ((p.dispose data).buffers b).isSome) :
    (p.buffers b).isSome := by
  by_cases hb : b = data
  · simp [dispose_buffers, hb] at h
  · simpa [dispose_buffers, Function.update_of_ne hb] using h

theorem live_of_assign {data b : Nat} {setter : TlsSetter} {size : UInt64}
    {newData : Nat → UInt8} (h : ((p.assign data setter size newData).buffers b).isSome) :
    (p.buffers b).isSome := by
  by_cases hb : b = data
  · simpa [assign_buffers, hb] using h
  · simpa [assign_buffers, Function.update_of_ne hb] using h

theorem forget_specific (thread : Nat) :
    (p.forget thread).specific = Function.update p.specific thread fun _ => none := rfl

theorem release_handles (handle : Nat) (block : ThreadLocalStorageHandle) :
    (p.release handle block).handles = Function.update p.handles handle none := rfl

theorem release_keys (handle : Nat) (block : ThreadLocalStorageHandle) :
    (p.release handle block).keys = Function.update p.keys block.key none := rfl

theorem allocate_store (thread : Nat) (block : ThreadLocalStorageHandle) (old : List UInt8) :
    (p.allocate block.dataSize old).store thread block.key p.nextBuffer =
      p.register thread block old := rfl

theorem allocate_dispose (hfresh : p.buffers p.nextBuffer = none) (size : UInt64)
    (old : List UInt8) :
    (p.allocate size old).dispose p.nextBuffer = { p with nextBuffer := p.nextBuffer + 1 } := by
  have hbuffers : Function.update p.buffers p.nextBuffer none = p.buffers := by
    rw [← hfresh, Function.update_eq_self]
  rw [dispose, allocate, Function.update_idem, hbuffers]

end TlsProcess

namespace TlsMachine

def start : TlsMachine :=
  { process := .start, activity := fun _ => none, exited := fun _ => false, answers := []
    owner := fun _ => none, discarded := [], released := [] }

variable (m : TlsMachine)

/-- The thread exists and is in no call. -/
def idle (thread : Nat) : Bool :=
  (m.activity thread).isNone && !m.exited thread

/-- A call of the thread holds the buffer and has not registered it. -/
def inFlight (thread b : Nat) : Bool :=
  (m.activity thread).any fun call => call.point.unregistered == some b

def resume (thread : Nat) (call : TlsCall) : TlsMachine :=
  { m with activity := Function.update m.activity thread (some call) }

def answer (a : TlsAnswer) : TlsMachine :=
  { m with
    activity := Function.update m.activity a.thread none
    answers := m.answers ++ [a] }

theorem resume_self (thread : Nat) (call : TlsCall) :
    (m.resume thread call).activity thread = some call := Function.update_self _ _ _

theorem answer_self (a : TlsAnswer) : (m.answer a).activity a.thread = none :=
  Function.update_self _ _ _

/-- The entry of get and set, where a purpose is missing when `new_data` is NULL. -/
def enter (thread : Nat) (handle : Option Nat) (purpose : Option TlsPurpose) : Option TlsMachine :=
  if !m.idle thread then none
  else
    match handle, purpose with
    | some handle, some purpose =>
      if (m.process.handles handle).isNone then none
      else some (m.resume thread { handle := handle, purpose := purpose, point := .getspecific })
    | _, _ =>
      some (m.answer { thread := thread, handle := handle, result := .invalidParameter,
                       data := none, newData := none })

/-- The end of a call that has its buffer. -/
def deliver (thread : Nat) (call : TlsCall) (data : Nat) : Option TlsMachine :=
  let done : TlsAnswer :=
    { thread := thread, handle := some call.handle, result := .ok, data := some data
      newData := none }
  match call.purpose with
  | .get => some (m.answer done)
  | .set (some setter) newData =>
    -- a setter is not told the size
    some ({ m with process := m.process.assign data (some setter) 0 newData }.answer
      { done with newData := some newData })
  | .set none newData =>
    (m.process.handles call.handle).map fun block =>
      { m with process := m.process.assign data none block.dataSize newData }.answer
        { done with newData := some newData }

/-- The thread makes its next system call. -/
def advance (thread : Nat) (call : TlsCall) (os : TlsOs) : Option TlsMachine :=
  let failed (result : LibdResult) : TlsAnswer :=
    { thread := thread, handle := some call.handle, result := result, data := none
      newData := none }
  match call.point with
  | .getspecific =>
    (m.process.handles call.handle).map fun block =>
      match m.process.specific thread block.key with
      | some data => m.resume thread { call with point := .obtained data }
      | none => m.resume thread { call with point := .malloc }
  | .malloc =>
    (m.process.handles call.handle).map fun block =>
      match os.malloc block.dataSize with
      | none => m.answer (failed .noMemory)
      | some old =>
        let data := m.process.nextBuffer
        { m with
          process := m.process.allocate block.dataSize old
          owner := Function.update m.owner data
            (some { thread := thread, handle := call.handle, key := block.key }) }.resume thread
          { call with point := .setspecific data }
  | .setspecific data =>
    (m.process.handles call.handle).map fun block =>
      if os.setspecific then
        { m with process := m.process.store thread block.key data }.resume thread
          { call with point := .obtained data }
      else m.resume thread { call with point := .free data }
  | .free data =>
    some ({ m with process := m.process.dispose data, discarded := m.discarded ++ [data] }.answer
      (failed .err))
  | .obtained data => m.deliver thread call data

def step (m : TlsMachine) : TlsAction → Option TlsMachine
  | .create os destructor size =>
    some { m with
      process := (libdPlatformThreadLocalStorageCreate os m.process destructor size).process }
  | .get thread handle => m.enter thread handle (some .get)
  | .set thread handle setter newData => m.enter thread handle (newData.map (.set setter))
  | .advance thread os => (m.activity thread).bind fun call => m.advance thread call os
  | .exit thread =>
    if !m.idle thread then none
    else
      some { m with
        process := m.process.forget thread
        exited := Function.update m.exited thread true
        released := m.released ++ m.process.exitReleases thread }
  | .destroy handle =>
    match libdPlatformThreadLocalStorageDestroy m.process handle with
    | .ok r => some { m with process := r.process }
    | .error _ => none

end TlsMachine

/-- System calls that succeed and give eight zero bytes. -/
def generousTlsOs : TlsOs :=
  { malloc := fun _ => some (List.replicate 8 0), keyCreate := true, setspecific := true }

namespace TlsAction

/-- The thread whose call or exit the action is about. -/
def thread : TlsAction → Option Nat
  | .get thread _ | .set thread _ _ _ | .advance thread _ | .exit thread => some thread
  | .create _ _ _ | .destroy _ => none

/-- Calls without a setter, on handles that stay. -/
def Plain : TlsAction → Prop
  | .set _ _ setter _ => setter = none
  | .create _ _ _ | .get _ _ | .advance _ _ => True
  | .exit _ | .destroy _ => False

end TlsAction

def TlsPurpose.Plain : TlsPurpose → Prop
  | .get => True
  | .set setter _ => setter = none

/-- The steps of the machine, one constructor for each thing that can happen. -/
inductive TlsStep (m : TlsMachine) : TlsAction → TlsMachine → Prop
  | refused (os : TlsOs) (destructor : TlsDestructor) (size : UInt64) :
      TlsStep m (.create os destructor size) m
  | created (os : TlsOs) (destructor : TlsDestructor) (size : UInt64) :
      TlsStep m (.create os destructor size)
        { m with process := m.process.install destructor size }
  | rejected {a : TlsAction} {t : Nat} {handle : Option Nat} (ha : a.thread = some t)
      (hidle : m.activity t = none) :
      TlsStep m a (m.answer
        { thread := t, handle := handle, result := .invalidParameter, data := none
          newData := none })
  | entered {a : TlsAction} {t h : Nat} {purpose : TlsPurpose} {block : ThreadLocalStorageHandle}
      (ha : a.thread = some t) (hplain : a.Plain → purpose.Plain) (hidle : m.activity t = none)
      (hblock : m.process.handles h = some block) :
      TlsStep m a (m.resume t { handle := h, purpose := purpose, point := .getspecific })
  | found {t : Nat} {os : TlsOs} {call : TlsCall} {block : ThreadLocalStorageHandle} {b : Nat}
      (hcall : m.activity t = some call) (hpoint : call.point = .getspecific)
      (hblock : m.process.handles call.handle = some block)
      (hslot : m.process.specific t block.key = some b) :
      TlsStep m (.advance t os) (m.resume t { call with point := .obtained b })
  | missed {t : Nat} {os : TlsOs} {call : TlsCall} {block : ThreadLocalStorageHandle}
      (hcall : m.activity t = some call) (hpoint : call.point = .getspecific)
      (hblock : m.process.handles call.handle = some block)
      (hslot : m.process.specific t block.key = none) :
      TlsStep m (.advance t os) (m.resume t { call with point := .malloc })
  | exhausted {t : Nat} {os : TlsOs} {call : TlsCall} (hcall : m.activity t = some call)
      (hpoint : call.point = .malloc) :
      TlsStep m (.advance t os) (m.answer
        { thread := t, handle := some call.handle, result := .noMemory, data := none
          newData := none })
  | allocated {t : Nat} {os : TlsOs} {call : TlsCall} {block : ThreadLocalStorageHandle}
      (old : List UInt8) (hcall : m.activity t = some call) (hpoint : call.point = .malloc)
      (hblock : m.process.handles call.handle = some block) :
      TlsStep m (.advance t os) ({ m with
        process := m.process.allocate block.dataSize old
        owner := Function.update m.owner m.process.nextBuffer
          (some { thread := t, handle := call.handle, key := block.key }) }.resume t
        { call with point := .setspecific m.process.nextBuffer })
  | stored {t : Nat} {os : TlsOs} {call : TlsCall} {block : ThreadLocalStorageHandle} {b : Nat}
      (hcall : m.activity t = some call) (hpoint : call.point = .setspecific b)
      (hblock : m.process.handles call.handle = some block) :
      TlsStep m (.advance t os) ({ m with process := m.process.store t block.key b }.resume t
        { call with point := .obtained b })
  | unstored {t : Nat} {os : TlsOs} {call : TlsCall} {b : Nat} (hcall : m.activity t = some call)
      (hpoint : call.point = .setspecific b) :
      TlsStep m (.advance t os) (m.resume t { call with point := .free b })
  | freed {t : Nat} {os : TlsOs} {call : TlsCall} {b : Nat} (hcall : m.activity t = some call)
      (hpoint : call.point = .free b) :
      TlsStep m (.advance t os)
        ({ m with process := m.process.dispose b, discarded := m.discarded ++ [b] }.answer
          { thread := t, handle := some call.handle, result := .err, data := none
            newData := none })
  | fetched {t : Nat} {os : TlsOs} {call : TlsCall} {b : Nat} (hcall : m.activity t = some call)
      (hpoint : call.point = .obtained b) (hpurpose : call.purpose = .get) :
      TlsStep m (.advance t os) (m.answer
        { thread := t, handle := some call.handle, result := .ok, data := some b
          newData := none })
  | assigned {t : Nat} {os : TlsOs} {call : TlsCall} {b : Nat} {setter : TlsSetter}
      {newData : Nat → UInt8} {size : UInt64} (hcall : m.activity t = some call)
      (hpoint : call.point = .obtained b) (hpurpose : call.purpose = .set setter newData)
      (hsize : setter = none → ∃ block, m.process.handles call.handle = some block ∧
        block.dataSize = size) :
      TlsStep m (.advance t os)
        ({ m with process := m.process.assign b setter size newData }.answer
          { thread := t, handle := some call.handle, result := .ok, data := some b
            newData := some newData })
  | exited {t : Nat} (hidle : m.activity t = none) :
      TlsStep m (.exit t) { m with
        process := m.process.forget t
        exited := Function.update m.exited t true
        released := m.released ++ m.process.exitReleases t }
  | kept : TlsStep m (.destroy none) m
  | destroyed {h : Nat} {block : ThreadLocalStorageHandle}
      (hblock : m.process.handles h = some block) :
      TlsStep m (.destroy (some h)) { m with process := m.process.release h block }

section Inversion

variable {m next : TlsMachine} {a : TlsAction}

private theorem TlsMachine.idle_activity {t : Nat} (h : m.idle t = true) : m.activity t = none := by
  simp only [idle, Bool.and_eq_true, Option.isNone_iff_eq_none] at h
  exact h.1

private theorem create_steps (os : TlsOs) (destructor : TlsDestructor) (size : UInt64) :
    TlsStep m (.create os destructor size) { m with
      process := (libdPlatformThreadLocalStorageCreate os m.process destructor size).process } := by
  rw [libdPlatformThreadLocalStorageCreate]
  cases (os.malloc sizeofThreadLocalStorageHandle).isNone with
  | true => exact .refused os destructor size
  | false =>
    cases os.keyCreate with
    | false => exact .refused os destructor size
    | true => exact .created os destructor size

theorem enter_cases {t : Nat} {handle : Option Nat} {purpose : Option TlsPurpose}
    (h : m.enter t handle purpose = some next) : m.activity t = none ∧
      (next = m.answer { thread := t, handle := handle, result := .invalidParameter, data := none
                         newData := none } ∨
        ∃ called given block, handle = some called ∧ purpose = some given ∧
          m.process.handles called = some block ∧
          next = m.resume t { handle := called, purpose := given, point := .getspecific }) := by
  cases hidle : m.idle t with
  | false => simp [TlsMachine.enter, hidle] at h
  | true =>
    refine ⟨TlsMachine.idle_activity hidle, ?_⟩
    cases handle with
    | none =>
      simp [TlsMachine.enter, hidle] at h
      exact Or.inl h.symm
    | some handle =>
      cases purpose with
      | none =>
        simp [TlsMachine.enter, hidle] at h
        exact Or.inl h.symm
      | some purpose =>
        cases hblock : m.process.handles handle with
        | none => simp [TlsMachine.enter, hidle, hblock] at h
        | some block =>
          simp [TlsMachine.enter, hidle, hblock] at h
          exact Or.inr ⟨handle, purpose, block, rfl, rfl, hblock, h.symm⟩

private theorem enter_steps {t : Nat} {handle : Option Nat} {purpose : Option TlsPurpose}
    (h : m.enter t handle purpose = some next) (ha : a.thread = some t)
    (hplain : a.Plain → ∀ p ∈ purpose, p.Plain) : TlsStep m a next := by
  obtain ⟨hidle, hnext⟩ := enter_cases h
  cases hnext with
  | inl hnext =>
    rw [hnext]
    exact .rejected ha hidle
  | inr hnext =>
    obtain ⟨called, given, block, -, hgiven, hblock, hnext⟩ := hnext
    rw [hnext]
    exact .entered ha (fun hp => hplain hp given hgiven) hidle hblock

private theorem deliver_steps {t b : Nat} {call : TlsCall} {os : TlsOs}
    (h : m.deliver t call b = some next) (hcall : m.activity t = some call)
    (hpoint : call.point = .obtained b) : TlsStep m (.advance t os) next := by
  cases hpurpose : call.purpose with
  | get =>
    rw [TlsMachine.deliver, hpurpose, Option.some.injEq] at h
    rw [← h]
    exact .fetched hcall hpoint hpurpose
  | set setter newData =>
    cases setter with
    | some setter =>
      rw [TlsMachine.deliver, hpurpose, Option.some.injEq] at h
      rw [← h]
      exact .assigned hcall hpoint hpurpose nofun
    | none =>
      rw [TlsMachine.deliver, hpurpose] at h
      obtain ⟨block, hblock, hnext⟩ := Option.map_eq_some_iff.mp h
      rw [← hnext]
      exact .assigned hcall hpoint hpurpose fun _ => ⟨block, hblock, rfl⟩

private theorem advance_steps {t : Nat} {call : TlsCall} {os : TlsOs}
    (h : m.advance t call os = some next) (hcall : m.activity t = some call) :
    TlsStep m (.advance t os) next := by
  cases hpoint : call.point with
  | getspecific =>
    rw [TlsMachine.advance, hpoint] at h
    obtain ⟨block, hblock, hnext⟩ := Option.map_eq_some_iff.mp h
    rw [← hnext]
    cases hslot : m.process.specific t block.key with
    | some b => exact .found hcall hpoint hblock hslot
    | none => exact .missed hcall hpoint hblock hslot
  | malloc =>
    rw [TlsMachine.advance, hpoint] at h
    obtain ⟨block, hblock, hnext⟩ := Option.map_eq_some_iff.mp h
    rw [← hnext]
    cases os.malloc block.dataSize with
    | none => exact .exhausted hcall hpoint
    | some old => exact .allocated old hcall hpoint hblock
  | setspecific b =>
    rw [TlsMachine.advance, hpoint] at h
    obtain ⟨block, hblock, hnext⟩ := Option.map_eq_some_iff.mp h
    rw [← hnext]
    cases os.setspecific with
    | true => exact .stored hcall hpoint hblock
    | false => exact .unstored hcall hpoint
  | free b =>
    rw [TlsMachine.advance, hpoint, Option.some.injEq] at h
    rw [← h]
    exact .freed hcall hpoint
  | obtained b =>
    rw [TlsMachine.advance, hpoint] at h
    exact deliver_steps h hcall hpoint

theorem exit_cases {t : Nat} (h : m.step (.exit t) = some next) : m.activity t = none ∧
    next = { m with
      process := m.process.forget t
      exited := Function.update m.exited t true
      released := m.released ++ m.process.exitReleases t } := by
  rw [TlsMachine.step] at h
  cases hidle : m.idle t with
  | false => simp [hidle] at h
  | true =>
    simp [hidle] at h
    exact ⟨TlsMachine.idle_activity hidle, h.symm⟩

theorem TlsMachine.steps (h : m.step a = some next) : TlsStep m a next := by
  cases a with
  | create os destructor size =>
    rw [step, Option.some.injEq] at h
    rw [← h]
    exact create_steps os destructor size
  | get t handle =>
    apply enter_steps h rfl
    intro _ p hp
    cases hp
    trivial
  | set t handle setter newData =>
    apply enter_steps h rfl
    intro hplain p hp
    obtain ⟨written, -, rfl⟩ := Option.map_eq_some_iff.mp hp
    exact hplain
  | advance t os =>
    obtain ⟨call, hcall, hnext⟩ := Option.bind_eq_some_iff.mp h
    exact advance_steps hnext hcall
  | exit t =>
    obtain ⟨hidle, hnext⟩ := exit_cases h
    rw [hnext]
    exact .exited hidle
  | destroy handle =>
    cases handle with
    | none =>
      rw [step, libdPlatformThreadLocalStorageDestroy, Option.some.injEq] at h
      rw [← h]
      exact .kept
    | some handle =>
      cases hblock : m.process.handles handle with
      | none =>
        simp [step, libdPlatformThreadLocalStorageDestroy, TlsProcess.deref, hblock, bind,
          Except.bind] at h
      | some block =>
        simp [step, libdPlatformThreadLocalStorageDestroy, TlsProcess.deref, hblock, bind,
          Except.bind] at h
        rw [← h]
        exact .destroyed hblock

theorem TlsStep.other (hstep : TlsStep m a next) {u : Nat} (hu : a.thread ≠ some u) :
    next.activity u = m.activity u ∧ next.process.specific u = m.process.specific u := by
  have hne {t : Nat} (ht : a.thread = some t) : u ≠ t := by
    intro hut
    exact hu (by rw [ht, hut])
  cases hstep with
  | refused | created | kept | destroyed => exact ⟨rfl, rfl⟩
  | rejected ha | entered ha => exact ⟨Function.update_of_ne (hne ha) _ _, rfl⟩
  | found | missed | exhausted | allocated | unstored | freed | fetched | assigned =>
    exact ⟨Function.update_of_ne (hne rfl) _ _, rfl⟩
  | stored => exact ⟨Function.update_of_ne (hne rfl) _ _, Function.update_of_ne (hne rfl) _ _⟩
  | exited => exact ⟨rfl, Function.update_of_ne (hne rfl) _ _⟩

theorem activity_of_run {actions : List TlsAction} {u : Nat}
    (hrun : run TlsMachine.step m actions = some next)
    (hu : ∀ a ∈ actions, a.thread ≠ some u) : next.activity u = m.activity u := by
  induction actions generalizing m with
  | nil =>
    cases hrun
    rfl
  | cons a actions ih =>
    obtain ⟨mid, hmid, hrest⟩ := run_cons_eq_some.mp hrun
    rw [ih hrest fun a' ha' => hu a' (List.mem_cons_of_mem _ ha')]
    exact ((TlsMachine.steps hmid).other (hu a List.mem_cons_self)).1

end Inversion

end Libdane
