import Libdane.Memory.LinearAllocator

/-!
# Creating a linear allocator

The creation path computes the size of the reservation in 32 bits and the size of the initial
commitment by rounding twice. Both agree with the sizes used later exactly under the conditions
proved here.
-/

namespace Libdane

open MaskRounding

private theorem pageSize_toNat {k : Nat} {pageSize : Int64} (h : pageSize.toInt = 2 ^ k) :
    pageSize.toUInt64.toNat = 2 ^ k ∧ k ≤ 62 := by
  have hlt := pageSize.toInt_lt
  have hword : pageSize.toInt = pageSize.toUInt64.toBitVec.toInt := rfl
  have hk : k ≤ 62 := by
    by_contra hk
    have hpow : (2 : Int) ^ 63 ≤ 2 ^ k := pow_le_pow_right₀ (by norm_num) (by omega)
    omega
  rw [BitVec.toInt_eq_toNat_cond] at hword
  split at hword
  · rw [h] at hword
    exact ⟨by exact_mod_cast hword.symm, hk⟩
  · have hbound := pageSize.toUInt64.toBitVec.isLt
    have hpos : (0 : Int) < 2 ^ k := by positivity
    omega

/-- The page size of a machine whose pages are a power of two. -/
structure PageSize (os : Os) (k : Nat) : Prop where
  toNat : os.pageSize.toUInt64.toNat = 2 ^ k
  le : k ≤ 62
  ne : os.pageSize ≠ -1

theorem PageSize.of_toInt {os : Os} {k : Nat} (h : os.pageSize.toInt = 2 ^ k) : PageSize os k := by
  obtain ⟨hnat, hk⟩ := pageSize_toNat h
  refine ⟨hnat, hk, ?_⟩
  intro he
  have hpos : (0 : Int) < 2 ^ k := by positivity
  rw [he] at h
  have hneg : ((-1 : Int64)).toInt = -1 := by decide
  omega

theorem PageSize.pow_le {os : Os} {k : Nat} (h : PageSize os k) : 2 ^ k ≤ 2 ^ 62 :=
  Nat.pow_le_pow_right (by omega) h.le

private theorem PageSize.alignUp_toNat {os : Os} {k : Nat} (h : PageSize os k) {value : UInt64}
    (hvalue : value.toNat ≤ 2 ^ 63) :
    (libdMemoryAlignUp value os.pageSize.toUInt64).toNat = roundUp value.toNat (2 ^ k) := by
  have hpow := h.pow_le
  rw [libdMemoryAlignUp_toNat h.toNat (by rw [h.toNat]; omega), h.toNat]

theorem PageSize.reserved {os : Os} {k : Nat} (h : PageSize os k) (dataReservationSize : UInt32) :
    (libdMemoryAlignUp (sizeofLinearAllocator.toUInt32 + dataReservationSize).toUInt64
      os.pageSize.toUInt64).toNat =
      roundUp ((sizeofLinearAllocator.toNat + dataReservationSize.toNat) % 2 ^ 32) (2 ^ k) := by
  have hsum : (sizeofLinearAllocator.toUInt32 + dataReservationSize).toUInt64.toNat =
      (sizeofLinearAllocator.toNat + dataReservationSize.toNat) % 2 ^ 32 := by
    simp
  rw [h.alignUp_toNat (by rw [hsum]; omega), hsum]

private theorem PageSize.dataSize {os : Os} {k : Nat} (h : PageSize os k)
    (startingCapacity : UInt32) :
    (libdMemoryAlignUp startingCapacity.toUInt64 os.pageSize.toUInt64).toNat =
      roundUp startingCapacity.toNat (2 ^ k) := by
  have hlt := startingCapacity.toNat_lt
  rw [h.alignUp_toNat (by rw [UInt32.toNat_toUInt64]; omega), UInt32.toNat_toUInt64]

theorem PageSize.committed {os : Os} {k : Nat} (h : PageSize os k) (startingCapacity : UInt32) :
    (libdMemoryAlignUp (sizeofLinearAllocator.toUInt64 +
      libdMemoryAlignUp startingCapacity.toUInt64 os.pageSize.toUInt64)
      os.pageSize.toUInt64).toNat =
      roundUp (sizeofLinearAllocator.toNat + roundUp startingCapacity.toNat (2 ^ k)) (2 ^ k) := by
  have hlt := startingCapacity.toNat_lt
  have hpow := h.pow_le
  have hround := roundUp_lt_add (Nat.two_pow_pos k) startingCapacity.toNat
  have hsum : (sizeofLinearAllocator.toUInt64 +
      libdMemoryAlignUp startingCapacity.toUInt64 os.pageSize.toUInt64).toNat =
      sizeofLinearAllocator.toNat + roundUp startingCapacity.toNat (2 ^ k) := by
    rw [UInt64.toNat_add, h.dataSize, Nat.mod_eq_of_lt]
    · rfl
    · change 32 + _ < _
      omega
  rw [h.alignUp_toNat, hsum]
  rw [hsum]
  change 32 + _ ≤ _
  omega

private theorem libdLinearAllocatorCreate_calls {os : Os} {outNull : Bool}
    {dataReservationSize startingCapacity : UInt32} {alignment : UInt8} {reserved committed : UInt64}
    (hcalls : (libdLinearAllocatorCreate os outNull dataReservationSize startingCapacity
      alignment).calls = [.mmap reserved, .mprotect committed]) :
    reserved = libdMemoryAlignUp (sizeofLinearAllocator.toUInt32 + dataReservationSize).toUInt64
        os.pageSize.toUInt64 ∧
      committed = libdMemoryAlignUp (sizeofLinearAllocator.toUInt64 +
        libdMemoryAlignUp startingCapacity.toUInt64 os.pageSize.toUInt64)
        os.pageSize.toUInt64 := by
  unfold libdLinearAllocatorCreate at hcalls
  split at hcalls
  · simp at hcalls
  split at hcalls
  · simp at hcalls
  split at hcalls
  · simp at hcalls
  dsimp only at hcalls
  split at hcalls
  · simp at hcalls
  split at hcalls
  all_goals
    simp only [List.cons.injEq, OsCall.mmap.injEq, OsCall.mprotect.injEq, and_true] at hcalls
    exact ⟨hcalls.1.symm, hcalls.2.symm⟩

theorem libdLinearAllocatorCreate_ok {os : Os} {outNull : Bool}
    {dataReservationSize startingCapacity : UInt32} {alignment : UInt8} {la : LinearAllocator}
    {calls : List OsCall}
    (hcreate : libdLinearAllocatorCreate os outNull dataReservationSize startingCapacity alignment =
      { result := .ok, out := some la, calls := calls }) :
    startingCapacity ≠ 0 ∧ libdMemoryIsValidAlignment alignment = true ∧
      la =
        { currDataSize := libdMemoryAlignUp startingCapacity.toUInt64 os.pageSize.toUInt64
          headIndex := 0, alignment := alignment, headerSize := sizeofLinearAllocator
          sysPageSize := os.pageSize.toUInt64.toUInt32
          dataReservationSize := dataReservationSize.toUInt64 } := by
  unfold libdLinearAllocatorCreate at hcreate
  split at hcreate
  · simp at hcreate
  rename_i hargs
  split at hcreate
  · simp at hcreate
  rename_i halign
  split at hcreate
  · simp at hcreate
  dsimp only at hcreate
  split at hcreate
  · simp at hcreate
  split at hcreate
  · simp at hcreate
  simp only [LinearCreateReturn.mk.injEq, Option.some.injEq, true_and] at hcreate
  simp only [Bool.or_eq_true, beq_iff_eq, not_or] at hargs
  exact ⟨hargs.2, by simpa using halign, hcreate.1.symm⟩

theorem LinearAllocator.totalReservationSize_toNat {la : LinearAllocator} {k : Nat}
    (hpage : la.sysPageSize.toNat = 2 ^ k) (hroom : la.dataReservationSize.toNat ≤ 2 ^ 32) :
    la.totalReservationSize.toNat =
      roundUp (la.headerSize.toNat + la.dataReservationSize.toNat) (2 ^ k) := by
  have hheader := la.headerSize.toNat_lt
  have hlt := la.sysPageSize.toNat_lt
  have hsum : (la.headerSize.toUInt64 + la.dataReservationSize).toNat =
      la.headerSize.toNat + la.dataReservationSize.toNat := by
    rw [UInt64.toNat_add, UInt8.toNat_toUInt64, Nat.mod_eq_of_lt (by omega)]
  have hpage' : la.sysPageSize.toUInt64.toNat = 2 ^ k := by
    rw [UInt32.toNat_toUInt64, hpage]
  rw [totalReservationSize, libdMemoryAlignUp_toNat hpage' (by omega), hsum, hpage']

/-- A machine with pages of 4096 bytes that grants every request. -/
def grantingOs : Os :=
  { pageSize := 4096, mmap := fun _ => true, mprotect := fun _ => true, munmap := fun _ => true }

private theorem LinearAllocator.totalReservationSize_zero {la : LinearAllocator} {k : Nat}
    (hsys : la.sysPageSize.toNat = 2 ^ k % 2 ^ 32) (hbig : 2 ^ 32 ≤ 2 ^ k) :
    la.totalReservationSize = 0 := by
  have hdvd : 2 ^ 32 ∣ 2 ^ k :=
    Nat.pow_dvd_pow 2 ((Nat.pow_le_pow_iff_right Nat.one_lt_two).mp hbig)
  have hzero : la.sysPageSize = 0 := by
    apply UInt32.toNat_inj.mp
    rw [hsys, Nat.mod_eq_zero_of_dvd hdvd]
    rfl
  rw [LinearAllocator.totalReservationSize, hzero]
  exact libdMemoryAlignUp_zero _

/-- What a successful creation on pages of `2 ^ k` bytes has computed, as natural numbers. -/
structure LinearAllocator.CreatedAs (la : LinearAllocator) (k : Nat)
    (dataReservationSize startingCapacity : UInt32) (alignment : UInt8)
    (reserved committed : UInt64) : Prop where
  valid : ∃ j ≤ 4, alignment.toNat = 2 ^ j
  header : la.headerSize = sizeofLinearAllocator
  head : la.headIndex = 0
  unit : la.alignment = alignment
  page : la.sysPageSize.toNat = 2 ^ k % 2 ^ 32
  reservation : la.dataReservationSize.toNat = dataReservationSize.toNat
  data : la.currDataSize.toNat = roundUp startingCapacity.toNat (2 ^ k)
  page_le : 2 ^ k ≤ la.currDataSize.toNat
  reserved : reserved.toNat =
    roundUp ((sizeofLinearAllocator.toNat + dataReservationSize.toNat) % 2 ^ 32) (2 ^ k)
  committed : committed.toNat =
    roundUp (sizeofLinearAllocator.toNat + la.currDataSize.toNat) (2 ^ k)

theorem libdLinearAllocatorCreate_createdAs {os : Os} {k : Nat} (hpage : os.pageSize.toInt = 2 ^ k)
    {outNull : Bool} {dataReservationSize startingCapacity : UInt32} {alignment : UInt8}
    {la : LinearAllocator} {reserved committed : UInt64}
    (hcreate : libdLinearAllocatorCreate os outNull dataReservationSize startingCapacity alignment =
      { result := .ok, out := some la, calls := [.mmap reserved, .mprotect committed] }) :
    la.CreatedAs k dataReservationSize startingCapacity alignment reserved committed := by
  have hos := PageSize.of_toInt hpage
  obtain ⟨hreserved, hcommitted⟩ :=
    libdLinearAllocatorCreate_calls (congrArg LinearCreateReturn.calls hcreate)
  obtain ⟨hcapacity, halign, hla⟩ := libdLinearAllocatorCreate_ok hcreate
  have hcap : 0 < startingCapacity.toNat :=
    Nat.pos_of_ne_zero fun he => hcapacity (UInt32.toNat_inj.mp he)
  have hdata : la.currDataSize.toNat = roundUp startingCapacity.toNat (2 ^ k) := by
    rw [hla, ← hos.dataSize]
  constructor
  case valid => exact (libdMemoryIsValidAlignment_iff alignment).mp halign
  case header => rw [hla]
  case head => rw [hla]
  case unit => rw [hla]
  case page =>
    rw [hla, ← hos.toNat]
    exact UInt64.toNat_toUInt32 _
  case reservation =>
    rw [hla]
    exact UInt32.toNat_toUInt64 _
  case data => exact hdata
  case page_le =>
    rw [hdata]
    exact roundUp_pos (Nat.two_pow_pos k) hcap
  case reserved => rw [hreserved, hos.reserved]
  case committed => rw [hcommitted, hos.committed, hdata]

theorem LinearAllocator.CreatedAs.committed_ge {la : LinearAllocator} {k : Nat}
    {dataReservationSize startingCapacity : UInt32} {alignment : UInt8}
    {reserved committed : UInt64}
    (h : la.CreatedAs k dataReservationSize startingCapacity alignment reserved committed) :
    sizeofLinearAllocator.toNat + la.currDataSize.toNat ≤ committed.toNat := by
  rw [h.committed]
  exact le_roundUp (Nat.two_pow_pos k) _

/-- Creation reserves what the growth and destruction paths take as the size of the mapping exactly
when the header and the reservation add up below 2^32 and the page size fits the 32-bit field that
stores it. -/
theorem libdLinearAllocatorCreate_reserved_iff (os : Os) (k : Nat)
    (hpage : os.pageSize.toInt = 2 ^ k) (outNull : Bool)
    (dataReservationSize startingCapacity : UInt32) (alignment : UInt8) (la : LinearAllocator)
    (reserved committed : UInt64)
    (hcreate : libdLinearAllocatorCreate os outNull dataReservationSize startingCapacity alignment =
      { result := .ok, out := some la, calls := [.mmap reserved, .mprotect committed] }) :
    (la.headerSize.toNat + dataReservationSize.toNat ≤ reserved.toNat ∧
      reserved = la.totalReservationSize ∧
      (libdLinearAllocatorDestroy os la false).calls = [.munmap reserved]) ↔
      (sizeofLinearAllocator.toNat + dataReservationSize.toNat < 2 ^ 32 ∧ 2 ^ k < 2 ^ 32) := by
  have hcreated := libdLinearAllocatorCreate_createdAs hpage hcreate
  have hlt := dataReservationSize.toNat_lt
  have hnat := hcreated.reserved
  have hheader : la.headerSize.toNat = 32 := by
    rw [hcreated.header]
    rfl
  have hsize : sizeofLinearAllocator.toNat = 32 := rfl
  have hres := hcreated.reservation
  have hsys := hcreated.page
  have hdestroy : (libdLinearAllocatorDestroy os la false).calls =
      [.munmap la.totalReservationSize] := by
    by_cases h : os.munmap la.totalReservationSize <;> simp [libdLinearAllocatorDestroy, h]
  constructor
  · intro h
    rcases h with ⟨hcover, htotal, -⟩
    have hk : 2 ^ k < 2 ^ 32 := by
      by_contra hbig
      have hnone := LinearAllocator.totalReservationSize_zero hsys (not_lt.mp hbig)
      rw [htotal, hnone, hheader] at hcover
      simp at hcover
    refine ⟨?_, hk⟩
    by_contra hbig
    have hwrap : (sizeofLinearAllocator.toNat + dataReservationSize.toNat) % 2 ^ 32 =
        sizeofLinearAllocator.toNat + dataReservationSize.toNat - 2 ^ 32 := by
      omega
    have hupper := roundUp_lt_add (Nat.two_pow_pos k)
      ((sizeofLinearAllocator.toNat + dataReservationSize.toNat) % 2 ^ 32)
    have hhalf : 2 ^ k ≤ 2 ^ 31 :=
      Nat.pow_le_pow_right (by omega) (Nat.lt_succ_iff.mp ((Nat.pow_lt_pow_iff_right (by omega)).mp hk))
    omega
  · intro h
    rcases h with ⟨hroom, hk⟩
    have htotal := LinearAllocator.totalReservationSize_toNat
      (hsys.trans (Nat.mod_eq_of_lt hk)) (by omega)
    rw [Nat.mod_eq_of_lt hroom] at hnat
    rw [hheader, hres, ← hsize, ← hnat] at htotal
    have heq : reserved = la.totalReservationSize := UInt64.toNat_inj.mp htotal.symm
    refine ⟨?_, heq, by rw [hdestroy, heq]⟩
    rw [hheader, hnat, ← hsize]
    exact le_roundUp (Nat.two_pow_pos k) _

theorem libdLinearAllocatorCreate_reserved_iff_one_page :
    ∃ la : LinearAllocator,
      (la.headerSize.toNat + (4000 : UInt32).toNat ≤ (4096 : UInt64).toNat ∧
        (4096 : UInt64) = la.totalReservationSize ∧
        (libdLinearAllocatorDestroy grantingOs la false).calls = [.munmap 4096]) := by
  obtain ⟨la, hla⟩ : ∃ la, libdLinearAllocatorCreate grantingOs false 4000 16 8 =
      { result := .ok, out := some la, calls := [.mmap 4096, .mprotect 8192] } := ⟨_, rfl⟩
  exact ⟨la, (libdLinearAllocatorCreate_reserved_iff grantingOs 12 (by decide) false 4000 16 8 la
    4096 8192 hla).mpr (by decide)⟩

/-- A reservation of 2^32 - 1 bytes maps a single page. -/
theorem libdLinearAllocatorCreate_reserved_wraps :
    ∃ la : LinearAllocator,
      libdLinearAllocatorCreate grantingOs false 4294967295 16 8 =
        { result := .ok, out := some la, calls := [.mmap 4096, .mprotect 8192] } ∧
      grantingOs.pageSize.toInt = 2 ^ 12 ∧
      ¬(la.headerSize.toNat + (4294967295 : UInt32).toNat ≤ (4096 : UInt64).toNat ∧
        (4096 : UInt64) = la.totalReservationSize) :=
  ⟨_, rfl, by decide, by decide⟩

/-- A page boundary in front of the end of the reservation leaves room for the header that is added
after the capacity was rounded. -/
private theorem committed_le_of_boundary {k header capacity reservation pages : Nat}
    (hcapacity : capacity ≤ reservation) (hheader : header = 2 ^ 5)
    (hlo : capacity ≤ pages * 2 ^ k) (hhi : pages * 2 ^ k < header + reservation) :
    roundUp (header + roundUp capacity (2 ^ k)) (2 ^ k) ≤ roundUp (header + reservation) (2 ^ k) := by
  have hpos := Nat.two_pow_pos k
  have hend := dvd_roundUp (header + reservation) (2 ^ k)
  have hdata : roundUp capacity (2 ^ k) ≤ pages * 2 ^ k := roundUp_le hpos ⟨pages, Nat.mul_comm _ _⟩ hlo
  apply roundUp_le hpos hend
  rcases Nat.lt_or_ge k 5 with hk | hk
  · -- the header is a whole number of pages
    have hdvd : 2 ^ k ∣ header := hheader ▸ Nat.pow_dvd_pow 2 hk.le
    have hle := le_roundUp hpos (header + reservation)
    have hround : roundUp capacity (2 ^ k) ≤ roundUp (header + reservation) (2 ^ k) - header := by
      apply roundUp_le hpos (Nat.dvd_sub hend hdvd)
      omega
    omega
  · have hpage : header ≤ 2 ^ k := hheader ▸ Nat.pow_le_pow_right (by decide) hk
    have hlt : pages * 2 ^ k < roundUp (header + reservation) (2 ^ k) :=
      (lt_roundUp_iff hpos _ ⟨pages, Nat.mul_comm _ _⟩).mpr hhi
    have hnext : pages * 2 ^ k + 2 ^ k ≤ roundUp (header + reservation) (2 ^ k) :=
      Nat.add_le_of_le_sub hlt.le (Nat.le_of_dvd (Nat.sub_pos_of_lt hlt)
        (Nat.dvd_sub hend ⟨pages, Nat.mul_comm _ _⟩)) |> (Nat.add_comm _ _).trans_le
    omega

/-- Creation stays inside its own reservation exactly when some page boundary lies at or behind the
starting capacity and in front of the end of header and reservation. -/
theorem libdLinearAllocatorCreate_committed_iff (os : Os) (k : Nat)
    (hpage : os.pageSize.toInt = 2 ^ k) (outNull : Bool)
    (dataReservationSize startingCapacity : UInt32) (alignment : UInt8)
    (hcapacity : startingCapacity ≤ dataReservationSize)
    (hroom : sizeofLinearAllocator.toNat + dataReservationSize.toNat < 2 ^ 32)
    (reserved committed : UInt64)
    (hcalls : (libdLinearAllocatorCreate os outNull dataReservationSize startingCapacity
      alignment).calls = [.mmap reserved, .mprotect committed]) :
    committed ≤ reserved ↔
      ∃ pages : Nat, startingCapacity.toNat ≤ pages * 2 ^ k ∧
        pages * 2 ^ k < sizeofLinearAllocator.toNat + dataReservationSize.toNat := by
  have hos := PageSize.of_toInt hpage
  have hpos := Nat.two_pow_pos k
  obtain ⟨hreserved, hcommitted⟩ := libdLinearAllocatorCreate_calls hcalls
  have hr := hos.reserved dataReservationSize
  have hc := hos.committed startingCapacity
  rw [← hreserved, Nat.mod_eq_of_lt hroom] at hr
  rw [← hcommitted] at hc
  rw [UInt64.le_iff_toNat_le, hr, hc]
  constructor
  · intro hle
    obtain ⟨pages, hpages⟩ := dvd_roundUp startingCapacity.toNat (2 ^ k)
    refine ⟨pages, ?_, ?_⟩
    · rw [Nat.mul_comm, ← hpages]
      exact le_roundUp hpos _
    · rw [Nat.mul_comm, ← hpages, ← lt_roundUp_iff hpos _ (dvd_roundUp _ _)]
      apply lt_of_lt_of_le _ hle
      rw [lt_roundUp_iff hpos _ (dvd_roundUp _ _)]
      exact Nat.lt_add_of_pos_left (by decide)
  · intro h
    rcases h with ⟨pages, hlo, hhi⟩
    exact committed_le_of_boundary (UInt32.le_iff_toNat_le.mp hcapacity) rfl hlo hhi

theorem libdLinearAllocatorCreate_committed_iff_two_pages :
    ∃ reserved committed : UInt64, committed ≤ reserved ∧
      (libdLinearAllocatorCreate grantingOs false 4096 16 8).calls =
        [.mmap reserved, .mprotect committed] :=
  ⟨8192, 8192, (libdLinearAllocatorCreate_committed_iff grantingOs 12 (by decide) false 4096 16 8
    (by decide) (by decide) 8192 8192 rfl).mpr ⟨1, by decide, by decide⟩, rfl⟩

/-- A reservation of 4000 bytes maps one page and commits two. -/
theorem libdLinearAllocatorCreate_committed_exceeds :
    ∃ la : LinearAllocator,
      libdLinearAllocatorCreate grantingOs false 4000 16 8 =
        { result := .ok, out := some la, calls := [.mmap 4096, .mprotect 8192] } ∧
      grantingOs.pageSize.toInt = 2 ^ 12 ∧ (0 : UInt32) < 16 ∧ (16 : UInt32) ≤ 4000 ∧
      sizeofLinearAllocator.toNat + (4000 : UInt32).toNat < 2 ^ 32 ∧
      ¬(8192 : UInt64) ≤ 4096 :=
  ⟨_, rfl, by decide⟩

end Libdane
