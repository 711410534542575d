import Libdane.Memory.LinearCreate

/-!
# Bounds of the linear allocator

Growth rounds the data to a multiple of twice its current size, which need not be a power of two,
and the head then moves by an aligned size that was never checked. The head stays inside the data
because pages and header are multiples of the alignment.
-/

namespace Libdane

open MaskRounding

private theorem toNat_min_u64 (a b : UInt64) : (min a b).toNat = min a.toNat b.toNat := by
  show (if a ≤ b then a else b).toNat = _
  by_cases h : a ≤ b
  · rw [if_pos h, min_eq_left (UInt64.le_iff_toNat_le.mp h)]
  · rw [if_neg h, min_eq_right]
    rw [UInt64.le_iff_toNat_le] at h
    omega

theorem LinearAllocator.grownTotalSize_toNat (la : LinearAllocator) (needed : UInt64) :
    (la.grownTotalSize needed).toNat =
      min (la.newTotalSize needed).toNat la.totalReservationSize.toNat := by
  rw [LinearAllocator.grownTotalSize, toNat_min_u64]

/-- What a growth for `needed` bytes starts from: the page fits its field and no size is near the
end of the address space. -/
structure LinearAllocator.Growable (la : LinearAllocator) (k : Nat) (needed : UInt64) : Prop where
  header : la.headerSize = sizeofLinearAllocator
  page : la.sysPageSize.toNat = 2 ^ k
  reservation : la.dataReservationSize.toNat < 2 ^ 32
  data_pos : 0 < la.currDataSize.toNat
  data_le : la.currDataSize.toNat ≤ 2 ^ 33
  needed_le : needed ≤ la.dataReservationSize

namespace LinearAllocator.Growable

variable {la : LinearAllocator} {k : Nat} {needed : UInt64}

private theorem needed_lt (h : la.Growable k needed) : needed.toNat < 2 ^ 32 :=
  (UInt64.le_iff_toNat_le.mp h.needed_le).trans_lt h.reservation

theorem unit_toNat (h : la.Growable k needed) :
    (la.currDataSize * 2).toNat = 2 * la.currDataSize.toNat := by
  have hdata := h.data_le
  rw [UInt64.toNat_mul, Nat.mul_comm, Nat.mod_eq_of_lt]
  · rfl
  · show 2 * _ < _
    omega

theorem unit_fits (h : la.Growable k needed) :
    0 < (la.currDataSize * 2).toNat ∧
      needed.toNat + (la.currDataSize * 2).toNat - 1 < 2 ^ 64 := by
  have hneeded := h.needed_lt
  have hpos := h.data_pos
  have hdata := h.data_le
  rw [h.unit_toNat]
  omega

private theorem newDataSize_bounds (h : la.Growable k needed) :
    needed.toNat ≤ (la.newDataSize needed).toNat ∧ (la.newDataSize needed).toNat < 2 ^ 35 := by
  have hneeded := h.needed_lt
  have hdata := h.data_le
  have hunit := h.unit_toNat
  have hle := libdMemoryAlignUp_le h.unit_fits.1 h.unit_fits.2
  refine ⟨le_libdMemoryAlignUp h.unit_fits.1 h.unit_fits.2, ?_⟩
  rw [LinearAllocator.newDataSize]
  omega

theorem newTotalSize_toNat (h : la.Growable k needed) :
    (la.newTotalSize needed).toNat =
      roundUp (sizeofLinearAllocator.toNat + (la.newDataSize needed).toNat) (2 ^ k) := by
  have hlt := la.sysPageSize.toNat_lt
  have hdata := h.newDataSize_bounds.2
  have hsize : sizeofLinearAllocator.toNat = 32 := rfl
  have hsum : (la.headerSize.toUInt64 + la.newDataSize needed).toNat =
      sizeofLinearAllocator.toNat + (la.newDataSize needed).toNat := by
    rw [UInt64.toNat_add, h.header, Nat.mod_eq_of_lt]
    · rfl
    · show 32 + _ < _
      omega
  have hunit : la.sysPageSize.toUInt64.toNat = 2 ^ k := by
    rw [UInt32.toNat_toUInt64, h.page]
  have hfit : (la.headerSize.toUInt64 + la.newDataSize needed).toNat +
      la.sysPageSize.toUInt64.toNat - 1 < 2 ^ 64 := by
    rw [hsum, UInt32.toNat_toUInt64]
    omega
  rw [LinearAllocator.newTotalSize, libdMemoryAlignUp_toNat hunit hfit, hsum, hunit]

theorem total_toNat (h : la.Growable k needed) :
    la.totalReservationSize.toNat =
      roundUp (sizeofLinearAllocator.toNat + la.dataReservationSize.toNat) (2 ^ k) := by
  rw [LinearAllocator.totalReservationSize_toNat h.page h.reservation.le, h.header]

/-- Growth makes room for a request below the reservation, stays inside the mapping and ends on a
page. -/
theorem covers (h : la.Growable k needed) :
    sizeofLinearAllocator.toNat + needed.toNat ≤ (la.grownTotalSize needed).toNat ∧
      (la.grownTotalSize needed).toNat ≤ la.totalReservationSize.toNat ∧
      2 ^ k ∣ (la.grownTotalSize needed).toNat := by
  have hpos := Nat.two_pow_pos k
  have hneeded := UInt64.le_iff_toNat_le.mp h.needed_le
  have hdata := h.newDataSize_bounds.1
  have hnew := le_roundUp hpos (sizeofLinearAllocator.toNat + (la.newDataSize needed).toNat)
  have htotal := le_roundUp hpos (sizeofLinearAllocator.toNat + la.dataReservationSize.toNat)
  rw [la.grownTotalSize_toNat, h.newTotalSize_toNat, h.total_toNat]
  refine ⟨by omega, min_le_right _ _, ?_⟩
  cases min_choice (roundUp (sizeofLinearAllocator.toNat + (la.newDataSize needed).toNat) (2 ^ k))
    (roundUp (sizeofLinearAllocator.toNat + la.dataReservationSize.toNat) (2 ^ k)) with
  | inl hm =>
    rw [hm]
    exact dvd_roundUp _ _
  | inr hm =>
    rw [hm]
    exact dvd_roundUp _ _

end LinearAllocator.Growable

theorem LinearAllocator.resize_currDataSize {la : LinearAllocator} {newTotalSize : UInt64}
    (hheader : la.headerSize = sizeofLinearAllocator)
    (hle : sizeofLinearAllocator.toNat ≤ newTotalSize.toNat) :
    sizeofLinearAllocator.toNat + (la.resize newTotalSize).currDataSize.toNat =
      newTotalSize.toNat := by
  have hsize : la.headerSize.toUInt64.toNat = sizeofLinearAllocator.toNat := by
    rw [UInt8.toNat_toUInt64, hheader]
  have hsub : la.headerSize.toUInt64 ≤ newTotalSize := by
    rw [UInt64.le_iff_toNat_le, hsize]
    exact hle
  rw [LinearAllocator.resize, UInt64.toNat_sub_of_le _ _ hsub, hsize]
  exact Nat.add_sub_cancel' hle

theorem needed_toNat_of_lt {headIndex : UInt64} (hhead : headIndex.toNat < 2 ^ 63) (size : UInt32) :
    (headIndex + size.toUInt64).toNat = headIndex.toNat + size.toNat := by
  have hsize := size.toNat_lt
  rw [UInt64.toNat_add, UInt32.toNat_toUInt64, Nat.mod_eq_of_lt (by omega)]

/-- The fields that creation sets and no later operation changes. -/
structure LinearAllocator.Configured (la : LinearAllocator) (k j : Nat) : Prop where
  header : la.headerSize = sizeofLinearAllocator
  alignment : la.alignment.toNat = 2 ^ j
  alignment_le : j ≤ 4
  page : la.sysPageSize.toNat = 2 ^ k
  room : sizeofLinearAllocator.toNat + la.dataReservationSize.toNat < 2 ^ 32

namespace LinearAllocator.Configured

variable {la other : LinearAllocator} {k j : Nat}

private theorem page_le (h : la.Configured k j) : k < 32 := by
  have hlt := la.sysPageSize.toNat_lt
  rw [h.page] at hlt
  exact (Nat.pow_lt_pow_iff_right Nat.one_lt_two).mp hlt

private theorem pow_alignment_le (h : la.Configured k j) : 2 ^ j ≤ 16 :=
  Nat.pow_le_pow_right (by decide) h.alignment_le

theorem total (h : la.Configured k j) :
    la.totalReservationSize.toNat =
      roundUp (sizeofLinearAllocator.toNat + la.dataReservationSize.toNat) (2 ^ k) := by
  have hroom := h.room
  rw [LinearAllocator.totalReservationSize_toNat h.page (by omega), h.header]

private theorem total_le (h : la.Configured k j) : la.totalReservationSize.toNat ≤ 2 ^ 32 := by
  rw [h.total]
  exact roundUp_le (Nat.two_pow_pos k) (Nat.pow_dvd_pow 2 h.page_le.le) h.room.le

theorem grown (h : la.Configured k j) {needed : UInt64} (hpos : 0 < la.currDataSize.toNat)
    (hcurr : la.currDataSize.toNat ≤ 2 ^ 32) (hneeded : needed ≤ la.dataReservationSize) :
    sizeofLinearAllocator.toNat + needed.toNat ≤ (la.grownTotalSize needed).toNat ∧
      (la.grownTotalSize needed).toNat ≤ la.totalReservationSize.toNat ∧
      2 ^ k ∣ (la.grownTotalSize needed).toNat := by
  have hroom := h.room
  exact LinearAllocator.Growable.covers ⟨h.header, h.page, by omega, hpos, by omega, hneeded⟩

private theorem bump_headIndex (h : la.Configured k j) (size : UInt32)
    (hhead : la.headIndex.toNat ≤ 2 ^ 33) :
    (la.bump size).headIndex.toNat = la.headIndex.toNat + roundUp size.toNat (2 ^ j) := by
  have hsize := size.toNat_lt
  have halign : la.alignment.toUInt64.toNat = 2 ^ j := by
    rw [UInt8.toNat_toUInt64, h.alignment]
  have hpow := h.pow_alignment_le
  have hround := roundUp_lt_add (Nat.two_pow_pos j) size.toNat
  have hmove : (libdMemoryAlignUp size.toUInt64 la.alignment.toUInt64).toNat =
      roundUp size.toNat (2 ^ j) := by
    rw [libdMemoryAlignUp_toNat halign (by rw [UInt32.toNat_toUInt64, halign]; omega),
      UInt32.toNat_toUInt64, halign]
  rw [LinearAllocator.bump, UInt64.toNat_add, hmove, Nat.mod_eq_of_lt (by omega)]

private theorem congr (h : la.Configured k j) (hheader : other.headerSize = la.headerSize)
    (halign : other.alignment = la.alignment) (hpage : other.sysPageSize = la.sysPageSize)
    (hres : other.dataReservationSize = la.dataReservationSize) : other.Configured k j := by
  refine ⟨?_, ?_, h.alignment_le, ?_, ?_⟩
  · rw [hheader, h.header]
  · rw [halign, h.alignment]
  · rw [hpage, h.page]
  · rw [hres]
    exact h.room

end LinearAllocator.Configured

/-- What every run keeps: the sizes are in order, and the head and all savepoints are multiples of
the alignment that exceed the data by less than one alignment. -/
structure LinearInv (k j reserved : Nat) (s : LinearSystem) : Prop where
  configured : s.la.Configured k j
  total : s.la.totalReservationSize.toNat = reserved
  accessible_le : s.accessible ≤ reserved
  data_le : sizeofLinearAllocator.toNat + s.la.currDataSize.toNat ≤ s.accessible
  data_pos : 0 < s.la.currDataSize.toNat
  data_dvd : 5 ≤ k → 2 ^ j ∣ s.la.currDataSize.toNat
  head_dvd : 2 ^ j ∣ s.la.headIndex.toNat
  head_lt : s.la.headIndex.toNat < s.la.currDataSize.toNat + 2 ^ j
  taken_dvd : ∀ t ∈ s.taken, 2 ^ j ∣ t.sp.dataIndex.toNat
  taken_lt : ∀ t ∈ s.taken, t.sp.dataIndex.toNat < s.la.currDataSize.toNat + 2 ^ j

private theorem le_of_dvd_of_lt_add {unit left right : Nat} (hl : unit ∣ left) (hr : unit ∣ right)
    (h : left < right + unit) : left ≤ right := by
  by_contra hlt
  have hstep := Nat.le_of_dvd (by omega) (Nat.dvd_sub hl hr)
  omega

namespace LinearInv

variable {os : Os} {k j reserved : Nat} {s next : LinearSystem}

theorem data_bound (h : LinearInv k j reserved s) :
    sizeofLinearAllocator.toNat + s.la.currDataSize.toNat ≤ 2 ^ 32 := by
  have htotal := h.configured.total_le
  rw [h.total] at htotal
  exact h.data_le.trans (h.accessible_le.trans htotal)

private theorem head_le (h : LinearInv k j reserved s) (hk : 5 ≤ k) :
    s.la.headIndex.toNat ≤ s.la.currDataSize.toNat :=
  le_of_dvd_of_lt_add h.head_dvd (h.data_dvd hk) h.head_lt

theorem head_lt_word (h : LinearInv k j reserved s) : s.la.headIndex.toNat < 2 ^ 32 := by
  have hdata := h.data_bound
  have hhead := h.head_lt
  have hpow := h.configured.pow_alignment_le
  have hheader : sizeofLinearAllocator.toNat = 32 := rfl
  omega

theorem needed_toNat (h : LinearInv k j reserved s) (size : UInt32) :
    (s.la.headIndex + size.toUInt64).toNat = s.la.headIndex.toNat + size.toNat :=
  needed_toNat_of_lt (h.head_lt_word.trans (by decide)) size

/-- The three ways an allocation can go. -/
inductive AllocCase (la : LinearAllocator) (size : UInt32) : LinearAllocReturn → Prop where
  | full (hdata : la.currDataSize < la.headIndex + size.toUInt64)
      (hres : la.dataReservationSize < la.headIndex + size.toUInt64) :
      AllocCase la size { result := .noMemory, outPtr := none, la := la, calls := [] }
  | grow (hdata : la.currDataSize < la.headIndex + size.toUInt64)
      (hres : la.headIndex + size.toUInt64 ≤ la.dataReservationSize) :
      AllocCase la size
        { result := .ok, outPtr := some la.headIndex,
          la := (la.resize (la.grownTotalSize (la.headIndex + size.toUInt64))).bump size,
          calls := [.mprotect (la.grownTotalSize (la.headIndex + size.toUInt64))] }
  | fit (hdata : la.headIndex + size.toUInt64 ≤ la.currDataSize) :
      AllocCase la size
        { result := .ok, outPtr := some la.headIndex, la := la.bump size, calls := [] }

theorem alloc_cases (la : LinearAllocator) (size : UInt32) :
    AllocCase la size (libdLinearAllocatorAlloc la false false size) := by
  by_cases hdata : la.currDataSize < la.headIndex + size.toUInt64
  · by_cases hres : la.dataReservationSize < la.headIndex + size.toUInt64
    · simpa [libdLinearAllocatorAlloc, hdata, hres] using AllocCase.full hdata hres
    · simpa [libdLinearAllocatorAlloc, hdata, hres] using
        AllocCase.grow hdata (UInt64.not_lt.mp hres)
  · simpa [libdLinearAllocatorAlloc, hdata] using AllocCase.fit (UInt64.not_lt.mp hdata)

private theorem outPtr_of_ok {la : LinearAllocator} {size : UInt32}
    (hok : (libdLinearAllocatorAlloc la false false size).result = .ok) :
    ∃ offset, (libdLinearAllocatorAlloc la false false size).outPtr = some offset := by
  have hcase := alloc_cases la size
  generalize libdLinearAllocatorAlloc la false false size = r at hcase hok ⊢
  cases hcase with
  | full => cases hok
  | grow => exact ⟨_, rfl⟩
  | fit => exact ⟨_, rfl⟩

theorem noMemory_of_outPtr {la : LinearAllocator} {size : UInt32}
    (hptr : (libdLinearAllocatorAlloc la false false size).outPtr = none) :
    (libdLinearAllocatorAlloc la false false size).result = .noMemory := by
  have hcase := alloc_cases la size
  generalize libdLinearAllocatorAlloc la false false size = r at hcase hptr ⊢
  cases hcase with
  | full => rfl
  | grow => cases hptr
  | fit => cases hptr

private theorem bump (h : LinearInv k j reserved s) {size : UInt32}
    (hfit : s.la.headIndex.toNat + size.toNat ≤ s.la.currDataSize.toNat) (clock : Nat)
    (live : List LinearRange) :
    LinearInv k j reserved { s with la := s.la.bump size, clock := clock, live := live } ∧
      (s.la.bump size).headIndex.toNat = s.la.headIndex.toNat + roundUp size.toNat (2 ^ j) := by
  have hhead := h.head_lt_word
  have hround := roundUp_lt_add (Nat.two_pow_pos j) size.toNat
  have hbump := h.configured.bump_headIndex size (by omega)
  have hconf : (s.la.bump size).Configured k j := h.configured.congr rfl rfl rfl rfl
  refine ⟨⟨hconf, h.total, h.accessible_le, h.data_le, h.data_pos, h.data_dvd, ?_, ?_,
    h.taken_dvd, h.taken_lt⟩, hbump⟩
  · show 2 ^ j ∣ (s.la.bump size).headIndex.toNat
    rw [hbump]
    exact h.head_dvd.add (dvd_roundUp _ _)
  · show (s.la.bump size).headIndex.toNat < s.la.currDataSize.toNat + 2 ^ j
    omega

private theorem resize (h : LinearInv k j reserved s) {newTotalSize : UInt64}
    (hmore : sizeofLinearAllocator.toNat + s.la.currDataSize.toNat < newTotalSize.toNat)
    (hcap : newTotalSize.toNat ≤ reserved) (hdvd : 2 ^ k ∣ newTotalSize.toNat) :
    LinearInv k j reserved
        { s with la := s.la.resize newTotalSize,
                 accessible := max s.accessible newTotalSize.toNat } ∧
      sizeofLinearAllocator.toNat + (s.la.resize newTotalSize).currDataSize.toNat =
        newTotalSize.toNat := by
  have hcurr := LinearAllocator.resize_currDataSize h.configured.header
    ((Nat.le_add_right _ _).trans hmore.le)
  have hconf : (s.la.resize newTotalSize).Configured k j := h.configured.congr rfl rfl rfl rfl
  refine ⟨⟨hconf, h.total, max_le h.accessible_le hcap, ?_, ?_, ?_, h.head_dvd, ?_, h.taken_dvd,
    ?_⟩, hcurr⟩
  · show _ + (s.la.resize newTotalSize).currDataSize.toNat ≤ max s.accessible newTotalSize.toNat
    omega
  · show 0 < (s.la.resize newTotalSize).currDataSize.toNat
    omega
  · intro hk
    show 2 ^ j ∣ (s.la.resize newTotalSize).currDataSize.toNat
    have hj := h.configured.alignment_le
    have hpage : 2 ^ j ∣ 2 ^ k := Nat.pow_dvd_pow 2 (by omega)
    have hhead : 2 ^ j ∣ sizeofLinearAllocator.toNat :=
      Nat.pow_dvd_pow 2 (by omega : j ≤ 5)
    apply (Nat.dvd_add_right hhead).mp
    rw [hcurr]
    exact hpage.trans hdvd
  · have hhead := h.head_lt
    show s.la.headIndex.toNat < (s.la.resize newTotalSize).currDataSize.toNat + 2 ^ j
    omega
  · intro t ht
    have htaken := h.taken_lt t ht
    show _ < (s.la.resize newTotalSize).currDataSize.toNat + 2 ^ j
    omega

/-- After an allocation the data covers the request and has not shrunk. -/
theorem alloc (h : LinearInv k j reserved s) (hmprotect : ∀ length, os.mprotect length = true)
    (size : UInt32) (live : List LinearRange) :
    let r := libdLinearAllocatorAlloc s.la false false size
    LinearInv k j reserved
        { s with la := r.la, accessible := accessibleAfter os s.accessible r.calls,
                 clock := s.clock + 1, live := live } ∧
      s.la.currDataSize.toNat ≤ r.la.currDataSize.toNat ∧
      (r.result = .noMemory → r.la = s.la) ∧
      (∀ offset, r.outPtr = some offset → offset = s.la.headIndex ∧
        offset.toNat + size.toNat ≤ r.la.currDataSize.toNat ∧
        r.la.headIndex.toNat = s.la.headIndex.toNat + roundUp size.toNat (2 ^ j)) := by
  intro r
  have hneeded := h.needed_toNat size
  have hcase := alloc_cases s.la size
  generalize hr : libdLinearAllocatorAlloc s.la false false size = answer at hcase
  have hanswer : r = answer := hr
  clear_value r
  subst hanswer
  cases hcase with
  | full hfull hres =>
    refine ⟨⟨h.configured, h.total, h.accessible_le, h.data_le, h.data_pos, h.data_dvd, h.head_dvd,
      h.head_lt, h.taken_dvd, h.taken_lt⟩, le_rfl, fun _ => rfl, ?_⟩
    intro offset hoffset
    cases hoffset
  | fit hfit =>
    rw [UInt64.le_iff_toNat_le, hneeded] at hfit
    obtain ⟨hinv, hbump⟩ := h.bump hfit (s.clock + 1) live
    refine ⟨hinv, le_rfl, ?_, ?_⟩
    · intro hno
      cases hno
    · intro offset hoffset
      cases hoffset
      exact ⟨rfl, hfit, hbump⟩
  | grow hgrow hres =>
    have hdata := h.data_bound
    obtain ⟨hroom, hcap, hdvd⟩ := h.configured.grown h.data_pos (by omega) hres
    rw [UInt64.lt_iff_toNat_lt, hneeded] at hgrow
    rw [hneeded] at hroom
    rw [h.total] at hcap
    generalize s.la.grownTotalSize (s.la.headIndex + size.toUInt64) = newTotalSize at *
    obtain ⟨hgrown, hcurr⟩ := h.resize (by omega) hcap hdvd
    have hfit : s.la.headIndex.toNat + size.toNat ≤
        (s.la.resize newTotalSize).currDataSize.toNat := by omega
    obtain ⟨hinv, hbump⟩ := hgrown.bump hfit (s.clock + 1) live
    have haccess : accessibleAfter os s.accessible [.mprotect newTotalSize] =
        max s.accessible newTotalSize.toNat := by
      simp [accessibleAfter, hmprotect]
    rw [haccess]
    refine ⟨hinv, ?_, ?_, ?_⟩
    · show _ ≤ (s.la.resize newTotalSize).currDataSize.toNat
      omega
    · intro hno
      cases hno
    · intro offset hoffset
      cases hoffset
      exact ⟨rfl, hfit, hbump⟩

theorem setSavepoint (h : LinearInv k j reserved s) (birth clock : Nat) (valid : Bool) :
    LinearInv k j reserved
      { s with
        clock := clock
        taken := s.taken ++
          [{ birth := birth, sp := { dataIndex := s.la.headIndex.toUInt32 }, valid := valid }] } := by
  have hindex : s.la.headIndex.toUInt32.toNat = s.la.headIndex.toNat := by
    rw [UInt64.toNat_toUInt32, Nat.mod_eq_of_lt h.head_lt_word]
  refine ⟨h.configured, h.total, h.accessible_le, h.data_le, h.data_pos, h.data_dvd, h.head_dvd,
    h.head_lt, ?_, ?_⟩
  · intro t ht
    rcases List.mem_append.mp ht with ht | ht
    · exact h.taken_dvd t ht
    · rw [List.mem_singleton.mp ht]
      show 2 ^ j ∣ s.la.headIndex.toUInt32.toNat
      rw [hindex]
      exact h.head_dvd
  · intro t ht
    rcases List.mem_append.mp ht with ht | ht
    · exact h.taken_lt t ht
    · rw [List.mem_singleton.mp ht]
      show s.la.headIndex.toUInt32.toNat < _
      rw [hindex]
      exact h.head_lt

theorem moveHead (h : LinearInv k j reserved s) {headIndex : UInt64} (clock : Nat)
    (live : List LinearRange) (keep : TakenSavepoint → Bool) (hdvd : 2 ^ j ∣ headIndex.toNat)
    (hlt : headIndex.toNat < s.la.currDataSize.toNat + 2 ^ j) :
    LinearInv k j reserved
      { s with
        la := { s.la with headIndex := headIndex }
        clock := clock
        live := live
        taken := s.taken.map fun t => { t with valid := keep t } } := by
  refine ⟨h.configured.congr rfl rfl rfl rfl, h.total, h.accessible_le, h.data_le, h.data_pos,
    h.data_dvd, hdvd, hlt, ?_, ?_⟩
  · intro t ht
    obtain ⟨u, hu, rfl⟩ := List.mem_map.mp ht
    exact h.taken_dvd u hu
  · intro t ht
    obtain ⟨u, hu, rfl⟩ := List.mem_map.mp ht
    exact h.taken_lt u hu

theorem step (h : LinearInv k j reserved s) (hmprotect : ∀ length, os.mprotect length = true)
    {op : LinearOp} (hstep : LinearSystem.step os s op = some next) :
    LinearInv k j reserved next ∧ s.la.currDataSize.toNat ≤ next.la.currDataSize.toNat := by
  cases op with
  | alloc size =>
    have halloc := h.alloc hmprotect size
    simp only [LinearSystem.step, Option.some.injEq] at hstep
    subst hstep
    exact ⟨(halloc _).1, (halloc s.live).2.1⟩
  | setSavepoint =>
    simp only [LinearSystem.step, libdLinearAllocatorSetSavepoint, Bool.or_self,
      Bool.false_eq_true, if_false, Option.map_some, Option.toList_some, Option.some.injEq] at hstep
    subst hstep
    exact ⟨h.setSavepoint s.clock _ true, le_rfl⟩
  | restoreSavepoint index =>
    simp only [LinearSystem.step, Option.map_eq_some_iff] at hstep
    obtain ⟨t, ht, hnext⟩ := hstep
    subst hnext
    have hmem := List.mem_of_getElem? ht
    have hindex : t.sp.dataIndex.toUInt64.toNat = t.sp.dataIndex.toNat :=
      UInt32.toNat_toUInt64 _
    refine ⟨h.moveHead _ _ _ ?_ ?_, le_rfl⟩
    · rw [hindex]
      exact h.taken_dvd t hmem
    · rw [hindex]
      exact h.taken_lt t hmem
  | reset =>
    simp only [LinearSystem.step, Option.some.injEq] at hstep
    subst hstep
    exact ⟨h.moveHead _ _ _ (Nat.dvd_zero _) (Nat.add_pos_left h.data_pos _), le_rfl⟩

theorem run (h : LinearInv k j reserved s) (hmprotect : ∀ length, os.mprotect length = true)
    {ops : List LinearOp} {final : LinearSystem} (hrun : LinearSystem.run os s ops = some final) :
    LinearInv k j reserved final :=
  PartialRuns.run_invariant (LinearInv k j reserved)
    (fun _ _ _ hs hstep => (hs.step hmprotect hstep).1) h hrun

/-- A creation whose initial commitment fits the mapping starts with the invariant. -/
theorem create {outNull : Bool} {dataReservationSize startingCapacity : UInt32} {alignment : UInt8}
    {la : LinearAllocator} {reserved committed : UInt64} (hpage : os.pageSize.toInt = 2 ^ k)
    (hcreate : libdLinearAllocatorCreate os outNull dataReservationSize startingCapacity alignment =
      { result := .ok, out := some la, calls := [.mmap reserved, .mprotect committed] })
    (hroom : sizeofLinearAllocator.toNat + dataReservationSize.toNat < 2 ^ 32)
    (hfit : committed ≤ reserved) :
    ∃ j, alignment.toNat = 2 ^ j ∧
      LinearInv k j reserved.toNat (LinearSystem.start la committed) := by
  have hcreated := libdLinearAllocatorCreate_createdAs hpage hcreate
  have hpos := Nat.two_pow_pos k
  obtain ⟨j, hj, ha⟩ := hcreated.valid
  have hr := hcreated.reserved
  rw [Nat.mod_eq_of_lt hroom] at hr
  rw [UInt64.le_iff_toNat_le] at hfit
  have hdata := hcreated.page_le
  have hcommit := hcreated.committed_ge
  have hheader : sizeofLinearAllocator.toNat = 32 := rfl
  -- a page of 2^32 bytes or more leaves no room for header and data in the mapping
  have hk : 2 ^ k < 2 ^ 32 := by
    by_contra hbig
    have hupper : reserved.toNat ≤ 2 ^ k := by
      rw [hr]
      exact roundUp_le hpos dvd_rfl (by omega)
    omega
  have hconf : la.Configured k j := by
    constructor
    · exact hcreated.header
    · rw [hcreated.unit, ha]
    · exact hj
    · rw [hcreated.page, Nat.mod_eq_of_lt hk]
    · rw [hcreated.reservation]
      exact hroom
  have hhead : la.headIndex.toNat = 0 := by
    rw [hcreated.head]
    rfl
  refine ⟨j, ha, ?_⟩
  constructor
  case configured => exact hconf
  case total =>
    show la.totalReservationSize.toNat = _
    rw [hconf.total, hr, hcreated.reservation]
  case accessible_le => exact hfit
  case data_le => exact hcommit
  case data_pos => exact hpos.trans_le hdata
  case data_dvd =>
    intro hk5
    show 2 ^ j ∣ la.currDataSize.toNat
    rw [hcreated.data]
    exact (Nat.pow_dvd_pow 2 (by omega)).trans (dvd_roundUp _ _)
  case head_dvd =>
    show 2 ^ j ∣ la.headIndex.toNat
    rw [hhead]
    exact Nat.dvd_zero _
  case head_lt =>
    show la.headIndex.toNat < la.currDataSize.toNat + 2 ^ j
    omega
  case taken_dvd =>
    intro t ht
    cases ht
  case taken_lt =>
    intro t ht
    cases ht

end LinearInv

/-- In every state a client can reach, even by restoring invalidated savepoints, the head is inside
the data and the data inside what is accessible and reserved. The data never shrinks, an allocation
is an aligned range inside the data, and one that fails changes nothing. -/
theorem linear_bounds (os : Os) (k : Nat) (hpage : os.pageSize.toInt = 2 ^ k) (hbig : 32 ≤ 2 ^ k)
    (hmprotect : ∀ length, os.mprotect length = true) (outNull : Bool)
    (dataReservationSize startingCapacity : UInt32) (alignment : UInt8) (la : LinearAllocator)
    (reserved committed : UInt64)
    (hcreate : libdLinearAllocatorCreate os outNull dataReservationSize startingCapacity alignment =
      { result := .ok, out := some la, calls := [.mmap reserved, .mprotect committed] })
    (hroom : sizeofLinearAllocator.toNat + dataReservationSize.toNat < 2 ^ 32)
    (hfit : committed ≤ reserved) (ops : List LinearOp) (s : LinearSystem)
    (hrun : LinearSystem.run os (LinearSystem.start la committed) ops = some s) :
    s.la.headIndex ≤ s.la.currDataSize ∧
    s.la.headerSize.toNat + s.la.currDataSize.toNat ≤ s.accessible ∧
    s.accessible ≤ reserved.toNat ∧
    (∀ op next, LinearSystem.step os s op = some next →
      s.la.currDataSize ≤ next.la.currDataSize) ∧
    (∀ size,
      let r := libdLinearAllocatorAlloc s.la false false size
      (r.result = .ok → ∃ offset, r.outPtr = some offset ∧ alignment.toNat ∣ offset.toNat ∧
        offset.toNat + size.toNat ≤ r.la.currDataSize.toNat) ∧
      (r.result = .noMemory → r.la = s.la)) ∧
    (∃ free, (libdLinearAllocatorBytesFree s.la false false).outSizeBytes = some free ∧
      free.toNat + s.la.headIndex.toNat = s.la.currDataSize.toNat) := by
  obtain ⟨j, ha, hstart⟩ := LinearInv.create hpage hcreate hroom hfit
  have hinv := hstart.run hmprotect hrun
  have hk : 5 ≤ k := (Nat.pow_le_pow_iff_right Nat.one_lt_two).mp (by simpa using hbig)
  have hhead := hinv.head_le hk
  refine ⟨UInt64.le_iff_toNat_le.mpr hhead, ?_, hinv.accessible_le, ?_, ?_, ?_⟩
  · rw [hinv.configured.header]
    exact hinv.data_le
  · intro op next hstep
    exact UInt64.le_iff_toNat_le.mpr (hinv.step hmprotect hstep).2
  · intro size r
    obtain ⟨-, -, hno, hout⟩ := hinv.alloc hmprotect size []
    refine ⟨?_, hno⟩
    intro hok
    obtain ⟨offset, hoffset⟩ := LinearInv.outPtr_of_ok hok
    obtain ⟨rfl, hcover, -⟩ := hout offset hoffset
    exact ⟨_, hoffset, ha ▸ hinv.head_dvd, hcover⟩
  · refine ⟨_, rfl, ?_⟩
    rw [UInt64.toNat_sub_of_le _ _ (UInt64.le_iff_toNat_le.mpr hhead)]
    omega

theorem linear_bounds_two_pages :
    ∃ s, LinearSystem.run grantingOs
        (LinearSystem.start
          { currDataSize := 4096, headIndex := 0, alignment := 8, headerSize := 32,
            sysPageSize := 4096, dataReservationSize := 65536 } 8192)
        [.alloc 5, .setSavepoint, .alloc 9000, .setSavepoint, .restoreSavepoint 0,
          .restoreSavepoint 1, .reset, .alloc 70000] = some s ∧
      s.la.headIndex ≤ s.la.currDataSize := by
  obtain ⟨s, hrun⟩ : ∃ s, LinearSystem.run grantingOs
      (LinearSystem.start
        { currDataSize := 4096, headIndex := 0, alignment := 8, headerSize := 32,
          sysPageSize := 4096, dataReservationSize := 65536 } 8192)
      [.alloc 5, .setSavepoint, .alloc 9000, .setSavepoint, .restoreSavepoint 0,
        .restoreSavepoint 1, .reset, .alloc 70000] = some s := ⟨_, rfl⟩
  exact ⟨s, hrun, (linear_bounds grantingOs 12 (by decide) (by decide) (fun _ => rfl) false 65536
    16 8 _ 69632 8192 rfl (by decide) (by decide) _ s hrun).1⟩

end Libdane
