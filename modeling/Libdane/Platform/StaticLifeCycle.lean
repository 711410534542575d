import Libdane.Platform.ThreadLocalStorage

/-!
# The life cycle of the thread-local singleton

Four global variables stand for one slot that is empty or ready. Cleanup destroys the handle and
leaves the variables as they are, so that they no longer stand for an empty slot, and whatever is
called next goes wrong.
-/

namespace Libdane

inductive StaticOp where
  | init (destructor : TlsDestructor) (size : UInt64)
  | get
  | set (setter : TlsSetter) (data : Option (Nat → UInt8))
  | cleanup

def StaticOp.call (os : TlsOs) (thread : Nat) (p : TlsProcess) :
    StaticOp → Except TlsAbort TlsReturn
  | .init destructor size => libdPlatformThreadLocalStaticInit os p destructor size
  | .get => do
    let r ← libdPlatformThreadLocalStaticGet os p thread
    .ok { result := r.result, process := r.process }
  | .set setter data => libdPlatformThreadLocalStaticSet os p thread setter data
  | .cleanup => libdPlatformThreadLocalStaticCleanup p

/-- What the variables are to stand for. -/
inductive StaticSlot where
  | empty
  | ready (destructor : TlsDestructor) (size : UInt64)

namespace StaticSlot

def after : StaticSlot → StaticOp → StaticSlot
  | .empty, .init destructor size => .ready destructor size
  | .ready _ _, .cleanup => .empty
  | slot, _ => slot

def answer : StaticSlot → StaticOp → LibdResult
  | .empty, .init _ _ => .ok
  | .empty, _ => .notInitialized
  | .ready _ _, .set _ none => .invalidParameter
  | .ready _ _, _ => .ok

end StaticSlot

/-- The singleton handle is alive and has the destructor and the size. -/
def Usable (p : TlsProcess) (destructor : TlsDestructor) (size : UInt64) : Prop :=
  ∃ handle block, p.gStaticHandle = some handle ∧ p.handles handle = some block ∧
    block.dataSize = size ∧ p.keys block.key = some destructor

def StaticSlot.Holds (p : TlsProcess) : StaticSlot → Prop
  | .empty => True
  | .ready destructor size => Usable p destructor size

private theorem StaticSlot.holds_empty (p : TlsProcess) : StaticSlot.empty.Holds p := trivial

/-- Every call returns, so that no freed handle is used, with the answer of the slot, and leaves a
ready slot usable. -/
def RunSound (thread : Nat) : StaticSlot → TlsProcess → List (TlsOs × StaticOp) → Prop
  | _, _, [] => True
  | slot, p, (os, op) :: calls =>
    ∃ r, op.call os thread p = .ok r ∧ r.result = slot.answer op ∧
      (slot.after op).Holds r.process ∧ RunSound thread (slot.after op) r.process calls

/-- The system calls of one call of the library succeed. -/
structure TlsOs.Succeeds (os : TlsOs) : Prop where
  malloc : ∀ size, (os.malloc size).isSome
  keyCreate : os.keyCreate = true
  setspecific : os.setspecific = true

def StaticOp.IsInit : StaticOp → Prop
  | .init _ _ => True
  | _ => False

/-- A cleanup that comes after an init is the last call. -/
def CleanupIsLast (calls : List (TlsOs × StaticOp)) : Prop :=
  ∀ before os after, calls = before ++ (os, .cleanup) :: after →
    (∃ c ∈ before, c.2.IsInit) → after = []

/-- Nothing follows a cleanup. -/
def CleanupEnds (calls : List (TlsOs × StaticOp)) : Prop :=
  ∀ before os after, calls = before ++ (os, .cleanup) :: after → after = []

section Sequences

variable {os : TlsOs} {op : StaticOp} {calls : List (TlsOs × StaticOp)}

private theorem cleanupIsLast_nil : CleanupIsLast [] := by
  intro before os after h
  simp at h

private theorem cleanupEnds_nil : CleanupEnds [] := by
  intro before os after h
  simp at h

private theorem cleanupIsLast_init {destructor : TlsDestructor} {size : UInt64} :
    CleanupIsLast ((os, .init destructor size) :: calls) ↔ CleanupEnds calls := by
  constructor
  · intro h before os' after hcalls
    apply h ((os, .init destructor size) :: before) os' after (by rw [hcalls]; rfl)
    exact ⟨_, List.mem_cons_self, trivial⟩
  · intro h before os' after hcalls _
    cases before with
    | nil => simp at hcalls
    | cons first before =>
      simp only [List.cons_append, List.cons.injEq] at hcalls
      exact h before os' after hcalls.2

private theorem cleanupIsLast_cons (hop : ¬op.IsInit) :
    CleanupIsLast ((os, op) :: calls) ↔ CleanupIsLast calls := by
  constructor
  · intro h before os' after hcalls hinit
    apply h ((os, op) :: before) os' after (by rw [hcalls]; rfl)
    obtain ⟨c, hc, hi⟩ := hinit
    exact ⟨c, List.mem_cons_of_mem _ hc, hi⟩
  · intro h before os' after hcalls hinit
    obtain ⟨c, hc, hi⟩ := hinit
    cases before with
    | nil => cases hc
    | cons first before =>
      simp only [List.cons_append, List.cons.injEq] at hcalls
      obtain ⟨hfirst, hcalls⟩ := hcalls
      apply h before os' after hcalls
      cases List.mem_cons.mp hc with
      | inl he =>
        rw [he, ← hfirst] at hi
        exact absurd hi hop
      | inr hc => exact ⟨c, hc, hi⟩

private theorem cleanupEnds_cleanup : CleanupEnds ((os, .cleanup) :: calls) ↔ calls = [] := by
  constructor
  · intro h
    exact h [] os calls rfl
  · intro h before os' after hcalls
    subst h
    cases before with
    | nil =>
      simp only [List.nil_append, List.cons.injEq] at hcalls
      exact hcalls.2.symm
    | cons first before => simp at hcalls

private theorem cleanupEnds_cons (hop : op ≠ .cleanup) :
    CleanupEnds ((os, op) :: calls) ↔ CleanupEnds calls := by
  constructor
  · intro h before os' after hcalls
    exact h ((os, op) :: before) os' after (by rw [hcalls]; rfl)
  · intro h before os' after hcalls
    cases before with
    | nil =>
      simp only [List.nil_append, List.cons.injEq, Prod.mk.injEq] at hcalls
      exact absurd hcalls.1.2 hop
    | cons first before =>
      simp only [List.cons_append, List.cons.injEq] at hcalls
      exact h before os' after hcalls.2

end Sequences

section Calls

variable {os : TlsOs} {thread : Nat} {p : TlsProcess} {destructor : TlsDestructor} {size : UInt64}

/-- Nothing has been initialized yet. -/
structure Fresh (p : TlsProcess) : Prop where
  handle : p.gStaticHandle = none
  once : p.gStaticOnce = false

/-- The singleton points to a block that was freed. -/
def Dangling (p : TlsProcess) : Prop :=
  ∃ handle, p.gStaticHandle = some handle ∧ p.handles handle = none

private theorem Fresh.init (h : Fresh p) (hos : os.Succeeds) (destructor : TlsDestructor)
    (size : UInt64) :
    ∃ r, StaticOp.call os thread p (.init destructor size) = .ok r ∧
      r.result = StaticSlot.empty.answer (.init destructor size) ∧
      Usable r.process destructor size := by
  obtain ⟨old, hmalloc⟩ := Option.isSome_iff_exists.mp (hos.malloc sizeofThreadLocalStorageHandle)
  let created := libdPlatformThreadLocalStorageCreate os
    { p with gStaticDestructor := destructor, gStaticSize := size } destructor size
  refine ⟨{ result := .ok
            process := { created.process with
              gStaticHandle := created.handle, gStaticOnce := true } }, ?_, rfl, ?_⟩
  · simp [StaticOp.call, libdPlatformThreadLocalStaticInit, h.handle, h.once, pthreadOnce,
      initStaticThreadLocalStorage, libdPlatformThreadLocalStorageCreate, hmalloc, hos.keyCreate,
      created, bind, Except.bind]
  · refine ⟨p.nextHandle, { key := p.nextKey, dataSize := size }, ?_, ?_, rfl, ?_⟩
    all_goals simp [created, libdPlatformThreadLocalStorageCreate, hmalloc, hos.keyCreate]

private theorem Fresh.other (h : Fresh p) {op : StaticOp} (hop : ¬op.IsInit) :
    op.call os thread p = .ok { result := .notInitialized, process := p } := by
  cases op with
  | init destructor size => exact absurd trivial hop
  | get => simp [StaticOp.call, libdPlatformThreadLocalStaticGet, h.handle, bind, Except.bind]
  | set setter data => simp [StaticOp.call, libdPlatformThreadLocalStaticSet, h.handle]
  | cleanup => simp [StaticOp.call, libdPlatformThreadLocalStaticCleanup, h.handle]

private theorem get_usable {handle : Nat} {block : ThreadLocalStorageHandle}
    (hblock : p.handles handle = some block) (hos : os.Succeeds) :
    ∃ data process, libdPlatformThreadLocalStorageGet os p thread (some handle) =
        .ok { result := .ok, data := some data, process := process } ∧
      process.handles = p.handles ∧ process.keys = p.keys ∧
      process.gStaticHandle = p.gStaticHandle := by
  cases hvalue : p.specific thread block.key with
  | some data => exact ⟨data, p, get_found hblock hvalue, rfl, rfl, rfl⟩
  | none =>
    obtain ⟨old, hmalloc⟩ := Option.isSome_iff_exists.mp (hos.malloc block.dataSize)
    exact ⟨p.nextBuffer, p.register thread block old,
      get_registered hblock hvalue hmalloc hos.setspecific, rfl, rfl, rfl⟩

private theorem Usable.call (h : Usable p destructor size) (hos : os.Succeeds) {op : StaticOp}
    (hop : op ≠ .cleanup) :
    ∃ r, op.call os thread p = .ok r ∧ r.result = (StaticSlot.ready destructor size).answer op ∧
      Usable r.process destructor size := by
  obtain ⟨handle, block, hhandle, hblock, hsize, hkey⟩ := h
  obtain ⟨data, process, hget, hhandles, hkeys, hstatic⟩ := @get_usable os thread p _ _ hblock hos
  have husable : Usable process destructor size :=
    ⟨handle, block, hstatic.trans hhandle, by rw [hhandles]; exact hblock, hsize,
      by rw [hkeys]; exact hkey⟩
  cases op with
  | init destructor' size' =>
    refine ⟨{ result := .ok, process := p }, ?_, rfl, handle, block, hhandle, hblock, hsize, hkey⟩
    simp [StaticOp.call, libdPlatformThreadLocalStaticInit, hhandle]
  | get =>
    refine ⟨{ result := .ok, process := process }, ?_, rfl, husable⟩
    simp [StaticOp.call, libdPlatformThreadLocalStaticGet, hhandle, hget, bind, Except.bind]
  | set setter newData =>
    cases newData with
    | none =>
      refine ⟨{ result := .invalidParameter, process := p }, ?_, rfl, handle, block, hhandle,
        hblock, hsize, hkey⟩
      simp [StaticOp.call, libdPlatformThreadLocalStaticSet, libdPlatformThreadLocalStorageSet,
        hhandle]
    | some newData =>
      have hderef : process.deref handle = .ok block := by
        simp [TlsProcess.deref, hhandles, hblock]
      refine ⟨{ result := .ok, process := process.assign data setter block.dataSize newData }, ?_,
        rfl, husable⟩
      simp [StaticOp.call, libdPlatformThreadLocalStaticSet, libdPlatformThreadLocalStorageSet,
        hhandle, hget, hderef, bind, Except.bind]
  | cleanup => exact absurd rfl hop

private theorem Usable.cleanup (h : Usable p destructor size) :
    ∃ r, StaticOp.call os thread p .cleanup = .ok r ∧
      r.result = (StaticSlot.ready destructor size).answer .cleanup ∧ Dangling r.process := by
  obtain ⟨handle, block, hhandle, hblock, -, -⟩ := h
  have hderef : p.deref handle = .ok block := by simp [TlsProcess.deref, hblock]
  refine ⟨{ result := .ok, process := p.release handle block }, ?_, rfl, handle, hhandle, ?_⟩
  · simp [StaticOp.call, libdPlatformThreadLocalStaticCleanup,
      libdPlatformThreadLocalStorageDestroy, hhandle, hderef, bind, Except.bind]
  · simp [TlsProcess.release]

private theorem Dangling.call (h : Dangling p) {op : StaticOp} {r : TlsReturn}
    (hcall : op.call os thread p = .ok r) (hanswer : r.result = StaticSlot.empty.answer op) :
    ¬(StaticSlot.empty.after op).Holds r.process := by
  obtain ⟨handle, hhandle, hblock⟩ := h
  have hderef : p.deref handle = .error (.useAfterFree handle) := by
    simp [TlsProcess.deref, hblock]
  cases op with
  | init destructor size =>
    intro hholds
    obtain ⟨handle', block, hhandle', hblock', -, -⟩ := hholds
    simp [StaticOp.call, libdPlatformThreadLocalStaticInit, hhandle] at hcall
    subst hcall
    rw [hhandle, Option.some.injEq] at hhandle'
    rw [← hhandle', hblock] at hblock'
    cases hblock'
  | get =>
    simp [StaticOp.call, libdPlatformThreadLocalStaticGet, libdPlatformThreadLocalStorageGet,
      hhandle, hderef, bind, Except.bind] at hcall
  | set setter data =>
    cases data with
    | none =>
      simp [StaticOp.call, libdPlatformThreadLocalStaticSet, libdPlatformThreadLocalStorageSet,
        hhandle] at hcall
      subst hcall
      cases hanswer
    | some data =>
      simp [StaticOp.call, libdPlatformThreadLocalStaticSet, libdPlatformThreadLocalStorageSet,
        libdPlatformThreadLocalStorageGet, hhandle, hderef, bind, Except.bind] at hcall
  | cleanup =>
    simp [StaticOp.call, libdPlatformThreadLocalStaticCleanup,
      libdPlatformThreadLocalStorageDestroy, hhandle, hderef, bind, Except.bind] at hcall

end Calls

section Runs

private theorem runSound_cons {os : TlsOs} {thread : Nat} {slot : StaticSlot} {p : TlsProcess}
    {op : StaticOp} {calls : List (TlsOs × StaticOp)} {r : TlsReturn}
    (hcall : op.call os thread p = .ok r) (hanswer : r.result = slot.answer op)
    (hholds : (slot.after op).Holds r.process) :
    RunSound thread slot p ((os, op) :: calls) ↔
      RunSound thread (slot.after op) r.process calls := by
  constructor
  · intro h
    obtain ⟨r', hcall', -, -, hrest⟩ := h
    rw [hcall, Except.ok.injEq] at hcall'
    rw [hcall']
    exact hrest
  · intro h
    exact ⟨r, hcall, hanswer, hholds, h⟩

variable {thread : Nat} {p : TlsProcess} {destructor : TlsDestructor} {size : UInt64}
  {calls : List (TlsOs × StaticOp)}

private theorem Dangling.run (h : Dangling p) : RunSound thread .empty p calls ↔ calls = [] := by
  cases calls with
  | nil => simp [RunSound]
  | cons c calls =>
    constructor
    · intro hsound
      obtain ⟨r, hcall, hanswer, hholds, -⟩ := hsound
      exact absurd hholds (h.call hcall hanswer)
    · intro hnil
      cases hnil

private theorem Usable.run (h : Usable p destructor size) (hos : ∀ c ∈ calls, c.1.Succeeds) :
    RunSound thread (.ready destructor size) p calls ↔ CleanupEnds calls := by
  induction calls generalizing p with
  | nil => exact iff_of_true trivial cleanupEnds_nil
  | cons c calls ih =>
    obtain ⟨os, op⟩ := c
    have hhere := hos _ List.mem_cons_self
    have hlater : ∀ c ∈ calls, c.1.Succeeds := fun c hc => hos c (List.mem_cons_of_mem _ hc)
    by_cases hop : op = .cleanup
    · subst hop
      obtain ⟨r, hcall, hresult, hdangling⟩ := @Usable.cleanup os thread _ _ _ h
      rw [cleanupEnds_cleanup, runSound_cons hcall hresult (StaticSlot.holds_empty _)]
      exact hdangling.run
    · obtain ⟨r, hcall, hresult, husable⟩ := @Usable.call os thread _ _ _ h hhere _ hop
      have hafter : (StaticSlot.ready destructor size).after op = .ready destructor size := by
        cases op with
        | cleanup => exact absurd rfl hop
        | init _ _ => rfl
        | get => rfl
        | set _ _ => rfl
      rw [cleanupEnds_cons hop, runSound_cons hcall hresult (by rw [hafter]; exact husable), hafter]
      exact ih husable hlater

private theorem Fresh.run_other (h : Fresh p) {os : TlsOs} {op : StaticOp} (hop : ¬op.IsInit) :
    RunSound thread .empty p ((os, op) :: calls) ↔ RunSound thread .empty p calls := by
  have hcall := @Fresh.other os thread _ h _ hop
  have hempty : StaticSlot.empty.after op = .empty ∧
      StaticSlot.empty.answer op = .notInitialized := by
    cases op with
    | init _ _ => exact absurd trivial hop
    | get | set _ _ | cleanup => exact ⟨rfl, rfl⟩
  rw [runSound_cons hcall hempty.2.symm (by rw [hempty.1]; exact StaticSlot.holds_empty _),
    hempty.1]

private theorem Fresh.run (h : Fresh p) (hos : ∀ c ∈ calls, c.1.Succeeds) :
    RunSound thread .empty p calls ↔ CleanupIsLast calls := by
  induction calls with
  | nil => exact iff_of_true trivial cleanupIsLast_nil
  | cons c calls ih =>
    obtain ⟨os, op⟩ := c
    have hhere := hos _ List.mem_cons_self
    have hlater : ∀ c ∈ calls, c.1.Succeeds := fun c hc => hos c (List.mem_cons_of_mem _ hc)
    by_cases hop : op.IsInit
    · cases op with
      | init destructor size =>
        obtain ⟨r, hcall, hresult, husable⟩ := @Fresh.init os thread _ h hhere destructor size
        rw [cleanupIsLast_init, runSound_cons hcall hresult husable]
        exact husable.run hlater
      | get => cases hop
      | set _ _ => cases hop
      | cleanup => cases hop
    · rw [cleanupIsLast_cons hop, h.run_other hop]
      exact ih hlater

end Runs

/-- A run of calls on one thread treats the singleton as a slot that is empty or ready exactly when
a cleanup that follows an init is its last call. -/
theorem static_life_cycle_iff (thread : Nat) (calls : List (TlsOs × StaticOp))
    (hos : ∀ c ∈ calls, c.1.Succeeds) :
    RunSound thread .empty TlsProcess.start calls ↔ CleanupIsLast calls :=
  Fresh.run ⟨rfl, rfl⟩ hos

/-- System calls that succeed and give empty blocks. -/
def grantingTlsOs : TlsOs :=
  { malloc := fun _ => some [], keyCreate := true, setspecific := true }

private theorem grantingTlsOs_succeeds : grantingTlsOs.Succeeds := ⟨fun _ => rfl, rfl, rfl⟩

/-- Calls in front of the init, a set, and a cleanup at the end. -/
theorem static_life_cycle_iff_one_init :
    let calls := [StaticOp.get, .cleanup, .init none 8, .set none (some fun _ => 1), .get,
      .cleanup].map fun op => (grantingTlsOs, op)
    RunSound 0 .empty TlsProcess.start calls ↔ CleanupIsLast calls := by
  apply static_life_cycle_iff
  intro c hc
  obtain ⟨op, -, rfl⟩ := List.mem_map.mp hc
  exact grantingTlsOs_succeeds

/-- After a cleanup a get uses the freed handle, a second cleanup destroys it again, and an init
answers without making a new one. -/
theorem static_life_cycle_fails :
    (do
      let r ← StaticOp.call grantingTlsOs 0 .start (.init (some 0) 8)
      let r ← StaticOp.call grantingTlsOs 0 r.process .cleanup
      StaticOp.call grantingTlsOs 0 r.process .get) = .error (.useAfterFree 0) ∧
    ∀ op ∈ [StaticOp.get, .cleanup, .init none 16],
      ¬RunSound 0 .empty TlsProcess.start
        [(grantingTlsOs, .init (some 0) 8), (grantingTlsOs, .cleanup), (grantingTlsOs, op)] := by
  refine ⟨rfl, ?_⟩
  intro op _ hsound
  have hos : ∀ c ∈ [(grantingTlsOs, StaticOp.init (some 0) 8), (grantingTlsOs, .cleanup),
      (grantingTlsOs, op)], c.1.Succeeds := by
    simp [grantingTlsOs_succeeds]
  have hlast := (Fresh.run ⟨rfl, rfl⟩ hos).mp hsound
  have hnil := hlast [(grantingTlsOs, .init (some 0) 8)] grantingTlsOs [(grantingTlsOs, op)] rfl
    ⟨_, List.mem_cons_self, trivial⟩
  cases hnil

end Libdane
