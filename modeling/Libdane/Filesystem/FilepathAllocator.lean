import Libdane.Filesystem.FilepathCreate

/-!
# Runs on a filepath allocator

From its creation to its first destruction the allocator hands out disjoint ranges of its mapping,
and afterwards it does nothing.
-/

namespace Libdane

open MaskRounding LinearInv

inductive FilepathCall where
  | alloc (bytes : UInt32)
  | reset
  | destroy
  deriving DecidableEq

/-- A range that was handed out. -/
structure FilepathRange where
  offset : Nat
  size : Nat

def FilepathRange.stop (r : FilepathRange) : Nat := r.offset + r.size

/-- An allocator with the system calls since before its creation and the ranges its client holds,
newest first. -/
structure FilepathSystem where
  fpa : FilepathAllocator
  trace : List OsCall
  live : List FilepathRange

namespace FilepathSystem

def step (os : Os) (s : FilepathSystem) : FilepathCall → FilepathSystem
  | .alloc bytes =>
    let r := s.fpa.alloc s.fpa.wrapper bytes
    let made := r.ptr.map fun ptr => { offset := ptr.toNat, size := bytes.toNat : FilepathRange }
    { fpa := { s.fpa with wrapper := r.wrapper }
      trace := s.trace ++ r.calls
      live := made.toList ++ s.live }
  | .reset =>
    let r := s.fpa.reset s.fpa.wrapper
    { fpa := { s.fpa with wrapper := r.wrapper }, trace := s.trace ++ r.calls, live := [] }
  | .destroy =>
    let r := libdFilepathAllocatorDestroy os s.fpa
    { fpa := r.1, trace := s.trace ++ r.2, live := [] }

def run (os : Os) (s : FilepathSystem) (calls : List FilepathCall) : FilepathSystem :=
  calls.foldl (step os) s

/-- The bytes that the live ranges take, with their padding. -/
def used (s : FilepathSystem) (alignment : Nat) : Nat :=
  (s.live.map fun r => roundUp r.size alignment).sum

end FilepathSystem

/-- A range lies in memory that was made accessible inside the mapping. -/
structure FilepathRange.Placed (r : FilepathRange) (k alignment : Nat) (trace : List OsCall) :
    Prop where
  aligned : alignment ∣ r.offset
  accessible : ∃ n : UInt64, .mprotect n ∈ trace ∧ n.toNat ≤ filepathMapping k ∧
    sizeofLinearAllocator.toNat + r.stop ≤ n.toNat

/-- The function pointers are those that creation sets. -/
structure FilepathAllocator.Methods (fpa : FilepathAllocator) : Prop where
  alloc : fpa.alloc = libdAllocatorWrapperAlloc
  reset : fpa.reset = libdAllocatorWrapperReset

/-- An allocator before its destruction. -/
structure FilepathOpen (k j : Nat) (s : FilepathSystem) (la : LinearAllocator) : Prop where
  wrapper : s.fpa.wrapper.a = some la
  methods : s.fpa.Methods
  reservation : la.dataReservationSize.toNat = 8192
  committed : ∃ n, .mprotect n ∈ s.trace ∧
    LinearInv k j (filepathMapping k) (LinearSystem.start la n)
  disjoint : s.live.Pairwise fun newer older => older.stop ≤ newer.offset
  below : ∀ r ∈ s.live, r.stop ≤ la.headIndex.toNat
  placed : ∀ r ∈ s.live, r.Placed k (2 ^ j) s.trace
  used : la.headIndex.toNat = s.used (2 ^ j)
  trace : s.trace.filterMap OsCall.mapped = [(filepathMapping k : Int)]

/-- An allocator after its destruction. -/
structure FilepathClosed (k : Nat) (s : FilepathSystem) : Prop where
  wrapper : s.fpa.wrapper.a = none
  methods : s.fpa.Methods
  live : s.live = []
  trace : s.trace.filterMap OsCall.mapped = [(filepathMapping k : Int), -filepathMapping k]
  last : ∃ n, s.trace.getLast? = some (.munmap n)

section Runs

variable {os : Os} {k j : Nat} {s : FilepathSystem} {la : LinearAllocator}

private theorem FilepathRange.Placed.mono {r : FilepathRange} {alignment : Nat}
    {trace : List OsCall} (h : r.Placed k alignment trace) (later : List OsCall) :
    r.Placed k alignment (trace ++ later) := by
  obtain ⟨n, hn, hle, hstop⟩ := h.accessible
  exact ⟨h.aligned, n, List.mem_append_left later hn, hle, hstop⟩

private theorem committed_alloc {trace : List OsCall} {n : UInt64} (hn : .mprotect n ∈ trace)
    (hinv : LinearInv k j (filepathMapping k) (LinearSystem.start la n)) (bytes : UInt32) :
    let r := libdLinearAllocatorAlloc la false false bytes
    (∃ n', .mprotect n' ∈ trace ++ r.calls ∧
      LinearInv k j (filepathMapping k) (LinearSystem.start r.la n')) ∧
    r.calls.filterMap OsCall.mapped = [] ∧
    r.la.dataReservationSize = la.dataReservationSize := by
  intro r
  have hnext := (@LinearInv.alloc grantingOs k j _ _ hinv (fun _ => rfl) bytes []).1
  have hcase := alloc_cases la bytes
  change AllocCase la bytes r at hcase
  change LinearInv k j (filepathMapping k) { LinearSystem.start la n with
    la := r.la, accessible := accessibleAfter grantingOs n.toNat r.calls, clock := 0 + 1,
    live := [] } at hnext
  generalize r = r' at hcase hnext ⊢
  cases hcase with
  | full =>
    refine ⟨⟨n, List.mem_append_left _ hn, ?_⟩, rfl, rfl⟩
    exact { hnext with }
  | fit =>
    refine ⟨⟨n, List.mem_append_left _ hn, ?_⟩, rfl, rfl⟩
    exact { hnext with }
  | grow hdata hres =>
    have hbound := hinv.data_bound
    obtain ⟨hroom, -, -⟩ := hinv.configured.grown hinv.data_pos (by omega) hres
    change _ ≤ (la.grownTotalSize (la.headIndex + bytes.toUInt64)).toNat at hroom
    generalize la.grownTotalSize (la.headIndex + bytes.toUInt64) = grown at hroom hnext ⊢
    have hcurr := LinearAllocator.resize_currDataSize hinv.configured.header
      ((Nat.le_add_right _ _).trans hroom)
    refine ⟨⟨grown, List.mem_append_right _ (List.mem_singleton.mpr rfl), ?_⟩, rfl, rfl⟩
    have hmax : accessibleAfter grantingOs n.toNat [.mprotect grown] = max n.toNat grown.toNat := rfl
    have haccessible := hnext.accessible_le
    rw [hmax] at haccessible
    exact { hnext with
      accessible_le := (Nat.le_max_right _ _).trans haccessible
      data_le := hcurr.le }

private theorem alloc_outcome {n : UInt64}
    (hinv : LinearInv k j (filepathMapping k) (LinearSystem.start la n)) (bytes : UInt32) :
    let r := libdLinearAllocatorAlloc la false false bytes
    (r.result = .noMemory ∧ r.outPtr = none ∧ r.la = la ∧
      la.dataReservationSize.toNat < la.headIndex.toNat + bytes.toNat) ∨
    (r.result = .ok ∧ r.outPtr = some la.headIndex ∧
      la.headIndex.toNat + bytes.toNat ≤ r.la.currDataSize.toNat ∧
      r.la.headIndex.toNat = la.headIndex.toNat + roundUp bytes.toNat (2 ^ j)) := by
  intro r
  have hspec := (@LinearInv.alloc grantingOs k j _ _ hinv (fun _ => rfl) bytes []).2.2.2
  have hneeded : (la.headIndex + bytes.toUInt64).toNat = la.headIndex.toNat + bytes.toNat :=
    hinv.needed_toNat bytes
  have hcase := alloc_cases la bytes
  change ∀ offset, r.outPtr = some offset → offset = la.headIndex ∧
    offset.toNat + bytes.toNat ≤ r.la.currDataSize.toNat ∧
    r.la.headIndex.toNat = la.headIndex.toNat + roundUp bytes.toNat (2 ^ j) at hspec
  change AllocCase la bytes r at hcase
  generalize r = r' at hcase hspec ⊢
  cases hcase with
  | full _ hres =>
    left
    rw [UInt64.lt_iff_toNat_lt, hneeded] at hres
    exact ⟨rfl, rfl, rfl, hres⟩
  | fit =>
    right
    exact ⟨rfl, rfl, (hspec _ rfl).2⟩
  | grow =>
    right
    exact ⟨rfl, rfl, (hspec _ rfl).2⟩

private theorem wrapper_alloc {w : FilepathAllocatorWrapper} (h : w.a = some la) (bytes : UInt32) :
    libdAllocatorWrapperAlloc w bytes =
      let r := libdLinearAllocatorAlloc la false false bytes
      { ptr := if r.result != .ok then none else r.outPtr, wrapper := { a := some r.la }
        calls := r.calls } := by
  simp [libdAllocatorWrapperAlloc, FilepathAllocatorWrapper.target, h]

private theorem FilepathOpen.alloc (h : FilepathOpen k j s la) (bytes : UInt32) :
    ∃ la', FilepathOpen k j (s.step os (.alloc bytes)) la' := by
  obtain ⟨n, hn, hinv⟩ := h.committed
  obtain ⟨hcommitted, hmapped, hres⟩ := committed_alloc hn hinv bytes
  have houtcome := alloc_outcome hinv bytes
  rw [FilepathSystem.step, h.methods.alloc, wrapper_alloc h.wrapper]
  generalize libdLinearAllocatorAlloc la false false bytes = r at hcommitted hmapped hres houtcome
  refine ⟨r.la, ?_⟩
  have htrace : (s.trace ++ r.calls).filterMap OsCall.mapped = [(filepathMapping k : Int)] := by
    rw [List.filterMap_append, hmapped, List.append_nil, h.trace]
  have hplaced : ∀ range ∈ s.live, range.Placed k (2 ^ j) (s.trace ++ r.calls) := by
    intro range hrange
    exact (h.placed range hrange).mono r.calls
  cases houtcome with
  | inl hfull =>
    obtain ⟨hresult, hptr, hla, -⟩ := hfull
    rw [hla] at hcommitted
    simp only [hresult, hla]
    exact ⟨rfl, ⟨h.methods.alloc, h.methods.reset⟩, h.reservation, hcommitted, h.disjoint, h.below,
      hplaced, h.used, htrace⟩
  | inr hfits =>
    obtain ⟨hresult, hptr, hstop, hhead⟩ := hfits
    simp only [hresult, hptr]
    have hround := le_roundUp (Nat.two_pow_pos j) bytes.toNat
    constructor
    case wrapper => rfl
    case methods => exact ⟨h.methods.alloc, h.methods.reset⟩
    case reservation => rw [hres, h.reservation]
    case committed => exact hcommitted
    case trace => exact htrace
    case disjoint =>
      apply List.pairwise_cons.mpr
      exact ⟨h.below, h.disjoint⟩
    case below =>
      intro range hrange
      cases List.mem_cons.mp hrange with
      | inl hnew =>
        rw [hnew]
        show la.headIndex.toNat + bytes.toNat ≤ _
        omega
      | inr hold =>
        have hbelow := h.below range hold
        omega
    case placed =>
      intro range hrange
      cases List.mem_cons.mp hrange with
      | inl hnew =>
        rw [hnew]
        refine ⟨hinv.head_dvd, ?_⟩
        obtain ⟨n', hn', hinv'⟩ := hcommitted
        refine ⟨n', hn', hinv'.accessible_le, ?_⟩
        have hdata := hinv'.data_le
        show _ + (la.headIndex.toNat + bytes.toNat) ≤ _
        change _ + r.la.currDataSize.toNat ≤ n'.toNat at hdata
        omega
      | inr hold => exact hplaced range hold
    case used =>
      rw [hhead, h.used, FilepathSystem.used, FilepathSystem.used]
      simp
      omega

private theorem FilepathOpen.reset (h : FilepathOpen k j s la) :
    ∃ la', FilepathOpen k j (s.step os .reset) la' := by
  obtain ⟨n, hn, hinv⟩ := h.committed
  refine ⟨{ la with headIndex := 0 }, ?_⟩
  have hreset : libdAllocatorWrapperReset s.fpa.wrapper =
      { ptr := none, wrapper := { a := some { la with headIndex := 0 } }, calls := [] } := by
    simp [libdAllocatorWrapperReset, libdLinearAllocatorReset, FilepathAllocatorWrapper.target,
      h.wrapper]
  have hmoved : LinearInv k j (filepathMapping k)
      (LinearSystem.start { la with headIndex := 0 } n) :=
    hinv.moveHead 0 [] (fun _ => true) (Nat.dvd_zero _) (Nat.add_pos_left hinv.data_pos _)
  rw [FilepathSystem.step, h.methods.reset, hreset]
  constructor
  case wrapper => rfl
  case methods => exact ⟨h.methods.alloc, h.methods.reset⟩
  case reservation => exact h.reservation
  case committed => exact ⟨n, List.mem_append_left _ hn, hmoved⟩
  case disjoint => exact .nil
  case below | placed =>
    intro range hrange
    cases hrange
  case used => rfl
  case trace => rw [List.append_nil, h.trace]

private theorem FilepathOpen.destroy (h : FilepathOpen k j s la) :
    FilepathClosed k (s.step os .destroy) := by
  obtain ⟨n, hn, hinv⟩ := h.committed
  have hlength : la.totalReservationSize.toNat = filepathMapping k := hinv.total
  have hdestroy : libdFilepathAllocatorDestroy os s.fpa =
      ({ s.fpa with wrapper := { a := none } }, [.munmap la.totalReservationSize]) := by
    cases hmunmap : os.munmap la.totalReservationSize with
    | true =>
      simp [libdFilepathAllocatorDestroy, libdAllocatorWrapperDestroy, libdLinearAllocatorDestroy,
        FilepathAllocatorWrapper.target, h.wrapper, hmunmap]
    | false =>
      simp [libdFilepathAllocatorDestroy, libdAllocatorWrapperDestroy, libdLinearAllocatorDestroy,
        FilepathAllocatorWrapper.target, h.wrapper, hmunmap]
  rw [FilepathSystem.step, hdestroy]
  constructor
  case wrapper => rfl
  case methods => exact ⟨h.methods.alloc, h.methods.reset⟩
  case live => rfl
  case trace => simp [h.trace, OsCall.mapped, hlength]
  case last => exact ⟨_, List.getLast?_concat⟩

private theorem FilepathClosed.step (h : FilepathClosed k s) (call : FilepathCall) :
    s.step os call = s := by
  have hmethods : s.fpa = { wrapper := { a := none }, alloc := libdAllocatorWrapperAlloc
                            reset := libdAllocatorWrapperReset } := by
    rw [← h.wrapper, ← h.methods.alloc, ← h.methods.reset]
  have hs : s = { fpa := { wrapper := { a := none }, alloc := libdAllocatorWrapperAlloc
                           reset := libdAllocatorWrapperReset }
                  trace := s.trace, live := [] } := by
    rw [← hmethods, ← h.live]
  rw [hs]
  cases call with
  | alloc bytes =>
    simp [FilepathSystem.step, libdAllocatorWrapperAlloc, libdLinearAllocatorAlloc]
  | reset => simp [FilepathSystem.step, libdAllocatorWrapperReset, libdLinearAllocatorReset]
  | destroy =>
    simp [FilepathSystem.step, libdFilepathAllocatorDestroy, libdAllocatorWrapperDestroy,
      libdLinearAllocatorDestroy]

private theorem FilepathClosed.run (h : FilepathClosed k s) (calls : List FilepathCall) :
    s.run os calls = s := by
  induction calls with
  | nil => rfl
  | cons call calls ih =>
    rw [FilepathSystem.run, List.foldl_cons, h.step call]
    exact ih

private theorem FilepathOpen.run (h : FilepathOpen k j s la) (calls : List FilepathCall) :
    (.destroy ∈ calls → FilepathClosed k (s.run os calls)) ∧
      (.destroy ∉ calls → ∃ la', FilepathOpen k j (s.run os calls) la') := by
  induction calls generalizing s la with
  | nil =>
    constructor
    · intro hdestroy
      cases hdestroy
    · intro _
      exact ⟨la, h⟩
  | cons call calls ih =>
    cases call with
    | destroy =>
      constructor
      · intro _
        have hclosed := @FilepathOpen.destroy os k j s la h
        rw [FilepathSystem.run, List.foldl_cons]
        rw [← @FilepathClosed.run os k _ hclosed calls] at hclosed
        exact hclosed
      · intro hno
        exact absurd List.mem_cons_self hno
    | alloc bytes =>
      obtain ⟨la', hnext⟩ := @FilepathOpen.alloc os k j s la h bytes
      simpa [FilepathSystem.run] using ih hnext
    | reset =>
      obtain ⟨la', hnext⟩ := @FilepathOpen.reset os k j s la h
      simpa [FilepathSystem.run] using ih hnext

private theorem FilepathOpen.create {out : FilepathAllocator} {alignment : UInt8}
    (hpage : os.pageSize.toInt = 2 ^ k) (hos : os.Guards (filepathMapping k))
    (hok : (libdFilepathAllocatorCreate os out alignment).result = .ok) :
    ∃ j la, alignment.toNat = 2 ^ j ∧
      FilepathOpen k j
        { fpa := (libdFilepathAllocatorCreate os out alignment).out
          trace := (libdFilepathAllocatorCreate os out alignment).calls
          live := [] } la := by
  obtain ⟨hvalid, hsmall⟩ :=
    (filepath_allocator_created_iff hpage hos out alignment).mp hok
  obtain ⟨reserved, committed, la, hlength, hfit, hcreate⟩ := linear_create_valid hpage hos hvalid
  have hle := hfit.mpr hsmall
  rw [if_pos hle] at hcreate
  obtain ⟨j, halign, hinv⟩ := LinearInv.create hpage hcreate (by decide) hle
  rw [hlength] at hinv
  have hcreated := libdLinearAllocatorCreate_createdAs hpage hcreate
  have hr : libdFilepathAllocatorCreate os out alignment =
      { result := .ok
        out := { wrapper := { a := some la }, alloc := libdAllocatorWrapperAlloc
                 reset := libdAllocatorWrapperReset }
        calls := [.mmap reserved, .mprotect committed] } := by
    simp [libdFilepathAllocatorCreate, libdAllocatorWrapperCreate, hcreate]
  rw [hr]
  refine ⟨j, la, halign, ?_⟩
  constructor
  case wrapper => rfl
  case methods => exact ⟨rfl, rfl⟩
  case reservation =>
    rw [hcreated.reservation]
    rfl
  case committed => exact ⟨committed, by simp, hinv⟩
  case disjoint => exact .nil
  case below | placed =>
    intro range hrange
    cases hrange
  case used =>
    rw [hcreated.head]
    rfl
  case trace => simp [OsCall.mapped, hlength]

end Runs

/-- In every run on a filepath allocator that was created, also after its destruction: the live
ranges are disjoint, aligned and inside memory made accessible, a request is refused only when the
8 KiB are used up, `munmap` is called once and on the whole mapping by the first destruction, and
from then on nothing is handed out and no system call is made. -/
theorem filepath_allocator_runs (os : Os) (k : Nat) (hpage : os.pageSize.toInt = 2 ^ k)
    (hos : os.Guards (filepathMapping k)) (out : FilepathAllocator) (alignment : UInt8)
    (hok : (libdFilepathAllocatorCreate os out alignment).result = .ok)
    (calls : List FilepathCall) :
    let r := libdFilepathAllocatorCreate os out alignment
    let s := FilepathSystem.run os { fpa := r.out, trace := r.calls, live := [] } calls
    (.destroy ∉ calls →
      s.live.Pairwise (fun newer older => older.stop ≤ newer.offset) ∧
      (∀ range ∈ s.live, range.Placed k alignment.toNat s.trace) ∧
      (∀ bytes, s.used alignment.toNat + bytes.toNat ≤ 8192 →
        (s.fpa.alloc s.fpa.wrapper bytes).ptr =
          some (UInt64.ofNat (s.used alignment.toNat))) ∧
      s.trace.filterMap OsCall.mapped = [(filepathMapping k : Int)]) ∧
    (.destroy ∈ calls →
      s.live = [] ∧ (∀ call, s.step os call = s) ∧
      s.trace.filterMap OsCall.mapped = [(filepathMapping k : Int), -filepathMapping k] ∧
      ∃ n, s.trace.getLast? = some (.munmap n)) := by
  intro r s
  obtain ⟨j, la, halign, hopen⟩ := FilepathOpen.create hpage hos hok
  obtain ⟨hclosed, hstill⟩ := @FilepathOpen.run os k j _ la hopen calls
  rw [halign]
  constructor
  · intro hno
    obtain ⟨la', h⟩ := hstill hno
    refine ⟨h.disjoint, h.placed, ?_, h.trace⟩
    intro bytes hfits
    obtain ⟨n, -, hinv⟩ := h.committed
    have hused : la'.headIndex = UInt64.ofNat (s.used (2 ^ j)) := by
      rw [← h.used, UInt64.ofNat_toNat]
    rw [h.methods.alloc, wrapper_alloc h.wrapper, ← hused]
    cases alloc_outcome hinv bytes with
    | inl hfull =>
      have hbehind := hfull.2.2.2
      have hhead : la'.headIndex.toNat = s.used (2 ^ j) := h.used
      rw [h.reservation, hhead] at hbehind
      omega
    | inr hgranted => simp [hgranted.1, hgranted.2.1]
  · intro hdestroy
    have h : FilepathClosed k s := hclosed hdestroy
    exact ⟨h.live, fun call => h.step call, h.trace, h.last⟩

theorem filepath_allocator_runs_small_pages :
    let r := libdFilepathAllocatorCreate (guardingOs 12) blankFilepathAllocator 8
    let calls : List FilepathCall := [.alloc 100, .alloc 9, .destroy, .alloc 1, .reset, .destroy]
    let s := FilepathSystem.run (guardingOs 12) { fpa := r.out, trace := r.calls, live := [] } calls
    s.live = [] ∧ (∀ call, s.step (guardingOs 12) call = s) ∧
      s.trace.filterMap OsCall.mapped = [(filepathMapping 12 : Int), -filepathMapping 12] ∧
      ∃ n, s.trace.getLast? = some (.munmap n) :=
  (filepath_allocator_runs (guardingOs 12) 12 (by decide) (guardingOs_guards 12)
    blankFilepathAllocator 8 rfl _).2 (by decide)

end Libdane
