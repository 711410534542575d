import Libdane.Memory.LinearBounds

/-!
# The filepath allocator

The filesystem wraps a linear allocator of fixed sizes behind two function pointers. The sizes are
made for small pages: above pages of 8 KiB the header and the first page do not fit the mapping.
-/

namespace Libdane

open MaskRounding LinearInv

def kiB : UInt32 := 1024

/-- `struct filepath_allocator_wrapper`, whose pointer is NULL when the allocator is destroyed. -/
structure FilepathAllocatorWrapper where
  a : Option LinearAllocator

/-- A NULL allocator is handed on to functions that do not read it. -/
def FilepathAllocatorWrapper.target (w : FilepathAllocatorWrapper) : LinearAllocator :=
  w.a.getD
    { currDataSize := 0, headIndex := 0, alignment := 0, headerSize := 0, sysPageSize := 0
      dataReservationSize := 0 }

structure WrapperReturn where
  /-- What the allocation returned. -/
  ptr : Option UInt64
  wrapper : FilepathAllocatorWrapper
  calls : List OsCall

abbrev AllocF : Type := FilepathAllocatorWrapper → UInt32 → WrapperReturn

abbrev ResetF : Type := FilepathAllocatorWrapper → WrapperReturn

def libdAllocatorWrapperCreate (os : Os) (reserve size : UInt32) (alignment : UInt8) :
    LinearCreateReturn :=
  libdLinearAllocatorCreate os false reserve size alignment

def libdAllocatorWrapperAlloc : AllocF := fun w bytes =>
  let r := libdLinearAllocatorAlloc w.target w.a.isNone false bytes
  { ptr := if r.result != .ok then none else r.outPtr
    wrapper := { a := w.a.map fun _ => r.la }
    calls := r.calls }

def libdAllocatorWrapperReset : ResetF := fun w =>
  let r := libdLinearAllocatorReset w.target w.a.isNone
  { ptr := none, wrapper := { a := w.a.map fun _ => r.la }, calls := r.calls }

/-- Whether `munmap` succeeds does not matter. -/
def libdAllocatorWrapperDestroy (os : Os) (w : FilepathAllocatorWrapper) : WrapperReturn :=
  let r := libdLinearAllocatorDestroy os w.target w.a.isNone
  { ptr := none, wrapper := { a := none }, calls := r.calls }

structure FilepathAllocator where
  wrapper : FilepathAllocatorWrapper
  alloc : AllocF
  reset : ResetF

structure FilepathCreateReturn where
  result : LibdResult
  out : FilepathAllocator
  calls : List OsCall

def libdFilepathAllocatorCreate (os : Os) (out : FilepathAllocator) (alignment : UInt8) :
    FilepathCreateReturn :=
  let r := libdAllocatorWrapperCreate os (8 * kiB) kiB alignment
  if r.result != .ok then
    { result := .noMemory, out := out, calls := r.calls }
  else
    { result := .ok
      out := { wrapper := { a := r.out }, alloc := libdAllocatorWrapperAlloc
               reset := libdAllocatorWrapperReset }
      calls := r.calls }

def libdFilepathAllocatorDestroy (os : Os) (fpa : FilepathAllocator) :
    FilepathAllocator × List OsCall :=
  let r := libdAllocatorWrapperDestroy os fpa.wrapper
  ({ fpa with wrapper := r.wrapper }, r.calls)

/-- The address space that a call takes from the system, or gives back. -/
def OsCall.mapped : OsCall → Option Int
  | .mmap length => some length.toNat
  | .munmap length => some (-length.toNat)
  | .mprotect _ => none

/-- The length of the mapping on pages of `2 ^ k` bytes. -/
def filepathMapping (k : Nat) : Nat := roundUp (sizeofLinearAllocator.toNat + 8192) (2 ^ k)

/-- `mmap` grants the mapping, and `mprotect` grants what lies inside and refuses what reaches behind
it. -/
structure Os.Guards (os : Os) (length : Nat) : Prop where
  mmap : ∀ n : UInt64, n.toNat = length → os.mmap n = true
  mprotect : ∀ n : UInt64, os.mprotect n = true ↔ n.toNat ≤ length

section Create

variable {os : Os} {k : Nat} {out : FilepathAllocator} {alignment : UInt8}

private theorem filepath_commit_iff (k : Nat) :
    roundUp (sizeofLinearAllocator.toNat + roundUp 1024 (2 ^ k)) (2 ^ k) ≤ filepathMapping k ↔
      2 ^ k ≤ 8192 := by
  have hheader : sizeofLinearAllocator.toNat = 32 := rfl
  have hpos := Nat.two_pow_pos k
  rw [filepathMapping, roundUp_le_iff hpos _ (dvd_roundUp _ _), hheader]
  constructor
  · intro hle
    by_contra hlarge
    have hk : 2 ^ 14 ≤ 2 ^ k := by
      apply Nat.pow_le_pow_right (by decide)
      exact (Nat.pow_lt_pow_iff_right Nat.one_lt_two).mp (Nat.not_le.mp hlarge)
    have hfirst := roundUp_pos hpos (by decide : 0 < 1024)
    have hmapping : roundUp (32 + 8192) (2 ^ k) ≤ 2 ^ k := roundUp_le hpos dvd_rfl (by omega)
    omega
  · intro hsmall
    have hk : k ≤ 13 := (Nat.pow_le_pow_iff_right Nat.one_lt_two).mp hsmall
    have hmapping := le_roundUp hpos (32 + 8192)
    have hround : roundUp 1024 (2 ^ k) ≤ 8192 := by
      apply roundUp_le hpos _ (by decide)
      exact Nat.pow_dvd_pow 2 hk
    omega

private theorem linear_create_invalid (os : Os) (h : libdMemoryIsValidAlignment alignment = false) :
    libdLinearAllocatorCreate os false (8 * kiB) kiB alignment =
      { result := .invalidAlignment, out := none, calls := [] } := by
  simp [libdLinearAllocatorCreate, h, kiB]

/-- A creation with a valid alignment maps the reservation and then stands or falls with its first
commitment. -/
theorem linear_create_valid (hpage : os.pageSize.toInt = 2 ^ k)
    (hos : os.Guards (filepathMapping k)) (h : libdMemoryIsValidAlignment alignment = true) :
    ∃ (reserved committed : UInt64) (la : LinearAllocator), reserved.toNat = filepathMapping k ∧
      (committed ≤ reserved ↔ 2 ^ k ≤ 8192) ∧
      libdLinearAllocatorCreate os false (8 * kiB) kiB alignment =
        if committed ≤ reserved then
          { result := .ok, out := some la, calls := [.mmap reserved, .mprotect committed] }
        else { result := .err, out := none, calls := [.mmap reserved, .mprotect committed] } := by
  have hsize := PageSize.of_toInt hpage
  have hreserved := hsize.reserved (8 * kiB)
  have hcommitted := hsize.committed kiB
  have hcreate := libdLinearAllocatorCreate.eq_1 os false (8 * kiB) kiB alignment
  have hne : (kiB == 0) = false := rfl
  have hpageSize : (os.pageSize == -1) = false := beq_eq_false_iff_ne.mpr hsize.ne
  simp only [h, hne, hpageSize, Bool.or_self, Bool.not_true, Bool.false_eq_true, if_false]
    at hcreate
  generalize libdMemoryAlignUp (sizeofLinearAllocator.toUInt32 + 8 * kiB).toUInt64
    os.pageSize.toUInt64 = reserved at hreserved hcreate
  generalize libdMemoryAlignUp (sizeofLinearAllocator.toUInt64 +
    libdMemoryAlignUp kiB.toUInt64 os.pageSize.toUInt64) os.pageSize.toUInt64 = committed
    at hcommitted hcreate
  have hlength : reserved.toNat = filepathMapping k := hreserved
  have hle : committed ≤ reserved ↔ os.mprotect committed = true := by
    rw [hos.mprotect, UInt64.le_iff_toNat_le, hlength]
  have hiff : committed ≤ reserved ↔ 2 ^ k ≤ 8192 := by
    rw [UInt64.le_iff_toNat_le, hlength, hcommitted]
    exact filepath_commit_iff k
  rw [hos.mmap reserved hlength] at hcreate
  by_cases hfit : committed ≤ reserved
  · rw [hle.mp hfit] at hcreate
    obtain ⟨la, hla⟩ : ∃ la, libdLinearAllocatorCreate os false (8 * kiB) kiB alignment =
        { result := .ok, out := some la, calls := [.mmap reserved, .mprotect committed] } :=
      ⟨_, hcreate⟩
    refine ⟨reserved, committed, la, hlength, hiff, ?_⟩
    rw [if_pos hfit]
    exact hla
  · have hrefused : os.mprotect committed = false := Bool.eq_false_iff.mpr (mt hle.mpr hfit)
    rw [hrefused] at hcreate
    refine ⟨reserved, committed, FilepathAllocatorWrapper.target ⟨none⟩, hlength, hiff, ?_⟩
    rw [if_neg hfit]
    exact hcreate

theorem filepath_allocator_created_iff (hpage : os.pageSize.toInt = 2 ^ k)
    (hos : os.Guards (filepathMapping k)) (out : FilepathAllocator) (alignment : UInt8) :
    (libdFilepathAllocatorCreate os out alignment).result = .ok ↔
      libdMemoryIsValidAlignment alignment = true ∧ 2 ^ k ≤ 8192 := by
  cases hvalid : libdMemoryIsValidAlignment alignment with
  | false =>
    simp [libdFilepathAllocatorCreate, libdAllocatorWrapperCreate, linear_create_invalid os hvalid]
  | true =>
    obtain ⟨reserved, committed, la, -, hfit, hcreate⟩ := linear_create_valid hpage hos hvalid
    rw [← hfit]
    by_cases hle : committed ≤ reserved
    · simp [libdFilepathAllocatorCreate, libdAllocatorWrapperCreate, hcreate, hle]
    · simp [libdFilepathAllocatorCreate, libdAllocatorWrapperCreate, hcreate, hle]

end Create

/-- On a system that grants the mapping and what lies inside, a filepath allocator can be created
exactly with a valid alignment on pages of at most 8 KiB. Where it cannot, the caller is told
`libd_no_memory` for any reason and its allocator is left as it was, and the mapping of a valid
request is never given back. -/
theorem filepath_allocator_create_iff (os : Os) (k : Nat) (hpage : os.pageSize.toInt = 2 ^ k)
    (hos : os.Guards (filepathMapping k)) (out : FilepathAllocator) (alignment : UInt8) :
    let r := libdFilepathAllocatorCreate os out alignment
    (r.result = .ok ↔ libdMemoryIsValidAlignment alignment = true ∧ 2 ^ k ≤ 8192) ∧
      (r.result ≠ .ok → r.result = .noMemory ∧ r.out = out ∧
        r.calls.filterMap OsCall.mapped =
          if libdMemoryIsValidAlignment alignment then [filepathMapping k] else []) := by
  intro r
  refine ⟨filepath_allocator_created_iff hpage hos out alignment, ?_⟩
  intro hfailed
  rw [Ne, filepath_allocator_created_iff hpage hos out alignment] at hfailed
  cases hvalid : libdMemoryIsValidAlignment alignment with
  | false =>
    have hr : r = { result := .noMemory, out := out, calls := [] } := by
      show libdFilepathAllocatorCreate os out alignment = _
      simp [libdFilepathAllocatorCreate, libdAllocatorWrapperCreate, linear_create_invalid os hvalid]
    rw [hr]
    simp
  | true =>
    obtain ⟨reserved, committed, la, hlength, hfit, hcreate⟩ := linear_create_valid hpage hos hvalid
    have hle : ¬committed ≤ reserved := by
      intro hle
      exact hfailed ⟨hvalid, hfit.mp hle⟩
    have hr : r = { result := .noMemory, out := out
                    calls := [.mmap reserved, .mprotect committed] } := by
      show libdFilepathAllocatorCreate os out alignment = _
      simp [libdFilepathAllocatorCreate, libdAllocatorWrapperCreate, hcreate, hle]
    rw [hr]
    simp [OsCall.mapped, hlength]

/-- A machine with pages of `2 ^ k` bytes that grants the mapping and what lies inside. -/
def guardingOs (k : Nat) : Os :=
  { pageSize := Int64.ofNat (2 ^ k), mmap := fun _ => true
    mprotect := fun n => n.toNat ≤ filepathMapping k, munmap := fun _ => true }

theorem guardingOs_guards (k : Nat) : (guardingOs k).Guards (filepathMapping k) := by
  constructor
  case mmap =>
    intro n _
    rfl
  case mprotect => simp [guardingOs]

/-- An allocator variable that has not been set. -/
def blankFilepathAllocator : FilepathAllocator :=
  { wrapper := { a := none }
    alloc := fun w _ => { ptr := none, wrapper := w, calls := [] }
    reset := fun w => { ptr := none, wrapper := w, calls := [] } }

/-- Pages of 16 KiB leave a mapping behind. -/
theorem filepath_allocator_create_iff_large_pages :
    let r := libdFilepathAllocatorCreate (guardingOs 14) blankFilepathAllocator 8
    r.result = .noMemory ∧ r.calls.filterMap OsCall.mapped = [(filepathMapping 14 : Int)] := by
  intro r
  obtain ⟨hiff, hfailed⟩ := filepath_allocator_create_iff (guardingOs 14) 14 (by decide)
    (guardingOs_guards 14) blankFilepathAllocator 8
  have hne : r.result ≠ .ok := by
    rw [Ne, hiff]
    decide
  exact ⟨(hfailed hne).1, (hfailed hne).2.2⟩

end Libdane
