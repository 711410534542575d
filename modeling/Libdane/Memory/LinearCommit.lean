import Libdane.Memory.LinearBounds

/-!
# Page commits that fail

Every system call may fail, and differently at each step of a run. Creation leaves its mapping
behind when the first `mprotect` fails, and an allocation that grows the data goes on as if its
`mprotect` had succeeded. Everything else is reported and undone.
-/

namespace Libdane

open MaskRounding LinearInv

/-- The mappings that exist after a list of system calls. -/
def mappingsAfter (os : Os) (mappings : List UInt64) : List OsCall → List UInt64
  | [] => mappings
  | .mmap length :: calls =>
    mappingsAfter os (if os.mmap length then length :: mappings else mappings) calls
  | .munmap length :: calls =>
    mappingsAfter os (if os.munmap length then mappings.erase length else mappings) calls
  | .mprotect _ :: calls => mappingsAfter os mappings calls

/-- A creation that fails leaves no mapping behind and does not set `*out`. -/
def CreateSound (os : Os) (r : LinearCreateReturn) : Prop :=
  r.result ≠ .ok → r.out = none ∧ mappingsAfter os [] r.calls = []

/-- The arguments are accepted, the reservation is granted and the first commitment is not. -/
structure CommitFails (os : Os) (outNull : Bool) (dataReservationSize startingCapacity : UInt32)
    (alignment : UInt8) : Prop where
  out : outNull = false
  capacity : startingCapacity ≠ 0
  alignment : libdMemoryIsValidAlignment alignment = true
  page : os.pageSize ≠ -1
  mmap : os.mmap (libdMemoryAlignUp (sizeofLinearAllocator.toUInt32 + dataReservationSize).toUInt64
    os.pageSize.toUInt64) = true
  mprotect : os.mprotect (libdMemoryAlignUp (sizeofLinearAllocator.toUInt64 +
    libdMemoryAlignUp startingCapacity.toUInt64 os.pageSize.toUInt64) os.pageSize.toUInt64) = false

private theorem createSound_iff (os : Os) (outNull : Bool)
    (dataReservationSize startingCapacity : UInt32) (alignment : UInt8) :
    CreateSound os (libdLinearAllocatorCreate os outNull dataReservationSize startingCapacity
        alignment) ↔
      ¬CommitFails os outNull dataReservationSize startingCapacity alignment := by
  unfold libdLinearAllocatorCreate
  split
  · rename_i hargs
    refine iff_of_true (fun _ => ⟨rfl, rfl⟩) fun h => ?_
    simp [h.out, h.capacity] at hargs
  split
  · rename_i halign
    refine iff_of_true (fun _ => ⟨rfl, rfl⟩) fun h => ?_
    simp [h.alignment] at halign
  split
  · rename_i hpage
    refine iff_of_true (fun _ => ⟨rfl, rfl⟩) fun h => ?_
    simp [h.page] at hpage
  rename_i hargs halign hpage
  dsimp only
  split
  · rename_i hmmap
    refine iff_of_true (fun _ => ⟨rfl, ?_⟩) fun h => ?_
    · simpa [mappingsAfter] using hmmap
    · rw [h.mmap] at hmmap
      cases hmmap
  rename_i hmmap
  simp only [Bool.not_eq_true', Bool.not_eq_false] at hmmap
  split
  · -- the reservation is there and nothing gives it back
    rename_i hmprotect
    apply iff_of_false
    · intro h
      have hgone := (h (by simp)).2
      simp only [mappingsAfter, hmmap, if_true] at hgone
      cases hgone
    · simp only [Bool.or_eq_true, beq_iff_eq, not_or, Bool.not_eq_true] at hargs
      simp only [Bool.not_eq_true', Bool.not_eq_false, beq_iff_eq] at halign hpage hmprotect
      exact fun hnot => hnot ⟨hargs.1, hargs.2, halign, hpage, hmmap, hmprotect⟩
  · rename_i hmprotect
    refine iff_of_true (fun hno => absurd rfl hno) fun h => ?_
    rw [h.mprotect] at hmprotect
    exact hmprotect rfl

/-- Every byte of a granted range is accessible, and a refused request changes no size. -/
def AllocSound (os : Os) (s : LinearSystem) (size : UInt32) : Prop :=
  let r := libdLinearAllocatorAlloc s.la false false size
  (r.result = .ok → ∃ offset, r.outPtr = some offset ∧
    ∀ i < size.toNat, s.la.headerSize.toNat + offset.toNat + i <
      accessibleAfter os s.accessible r.calls) ∧
  (r.result ≠ .ok → r.la.headIndex = s.la.headIndex ∧ r.la.currDataSize = s.la.currDataSize)

/-- If the request makes the data grow, the system grants the larger size. -/
def GrowthCommits (os : Os) (la : LinearAllocator) (size : UInt32) : Prop :=
  la.currDataSize < la.headIndex + size.toUInt64 →
    la.headIndex + size.toUInt64 ≤ la.dataReservationSize →
      os.mprotect (la.grownTotalSize (la.headIndex + size.toUInt64)) = true

instance (os : Os) (la : LinearAllocator) (size : UInt32) : Decidable (GrowthCommits os la size) :=
  inferInstanceAs (Decidable (_ < _ → _ ≤ _ → _ = true))

namespace LinearSystem

/-- A step under the outcomes of its own system calls, in which no growth is denied. -/
def committedStep (s : LinearSystem) : Os × LinearOp → Option LinearSystem
  | (os, .alloc size) => if GrowthCommits os s.la size then step os s (.alloc size) else none
  | (os, op) => step os s op

def committedRun : LinearSystem → List (Os × LinearOp) → Option LinearSystem :=
  PartialRuns.run committedStep

end LinearSystem

open LinearSystem

theorem LinearAllocatorSavepoint.head_lt (sp : LinearAllocatorSavepoint) :
    sp.dataIndex.toUInt64.toNat < 2 ^ 63 := by
  have hlt := sp.dataIndex.toNat_lt
  rw [UInt32.toNat_toUInt64]
  omega

/-- The allocator claims no more than what was made accessible. Nothing is assumed of the mapping,
so a page may be too large for the field that stores its size. -/
structure CommitInv (k : Nat) (s : LinearSystem) : Prop where
  header : s.la.headerSize = sizeofLinearAllocator
  alignment : 0 < s.la.alignment.toNat
  reservation : s.la.dataReservationSize.toNat < 2 ^ 32
  page : k < 32 → s.la.sysPageSize.toNat = 2 ^ k ∧ s.la.currDataSize.toNat ≤ 2 ^ 33
  page_huge : 32 ≤ k → 2 ^ 32 ≤ s.la.currDataSize.toNat
  data_pos : 0 < s.la.currDataSize.toNat
  data_word : s.la.currDataSize.toNat ≤ 2 ^ 62
  data_le : sizeofLinearAllocator.toNat + s.la.currDataSize.toNat ≤ s.accessible
  head_word : s.la.headIndex.toNat < 2 ^ 63

namespace CommitInv

variable {os : Os} {k : Nat} {s next : LinearSystem}

theorem needed_toNat (h : CommitInv k s) (size : UInt32) :
    (s.la.headIndex + size.toUInt64).toNat = s.la.headIndex.toNat + size.toNat :=
  needed_toNat_of_lt h.head_word size

theorem moveHead (h : CommitInv k s) {headIndex : UInt64} (hhead : headIndex.toNat < 2 ^ 63)
    (clock : Nat) (live : List LinearRange) (taken : List TakenSavepoint) :
    CommitInv k
      { s with la := { s.la with headIndex := headIndex }, clock := clock, live := live,
               taken := taken } :=
  ⟨h.header, h.alignment, h.reservation, h.page, h.page_huge, h.data_pos, h.data_word, h.data_le,
    hhead⟩

private theorem bump (h : CommitInv k s) {size : UInt32}
    (hfit : s.la.headIndex.toNat + size.toNat ≤ s.la.currDataSize.toNat) :
    (s.la.bump size).headIndex.toNat < 2 ^ 63 := by
  have hdata := h.data_word
  have halign := h.alignment
  have hbyte := s.la.alignment.toNat_lt
  have hsize := size.toNat_lt
  have hround := @libdMemoryAlignUp_le size.toUInt64 s.la.alignment.toUInt64
    (by rwa [UInt8.toNat_toUInt64])
    (by rw [UInt8.toNat_toUInt64, UInt32.toNat_toUInt64]; omega)
  rw [UInt8.toNat_toUInt64, UInt32.toNat_toUInt64] at hround
  rw [LinearAllocator.bump, UInt64.toNat_add, Nat.mod_eq_of_lt (by omega)]
  omega

theorem growable (h : CommitInv k s) {needed : UInt64} (hdata : s.la.currDataSize < needed)
    (hres : needed ≤ s.la.dataReservationSize) : k < 32 ∧ s.la.Growable k needed := by
  have hreservation := h.reservation
  have hneeded := UInt64.le_iff_toNat_le.mp hres
  have hgrows := UInt64.lt_iff_toNat_lt.mp hdata
  have hk : k < 32 := by
    by_contra hhuge
    have hlarge := h.page_huge (not_lt.mp hhuge)
    omega
  obtain ⟨hpage, hcurr⟩ := h.page hk
  exact ⟨hk, h.header, hpage, hreservation, h.data_pos, hcurr, hres⟩

private theorem resize (h : CommitInv k s) {needed : UInt64} (hdata : s.la.currDataSize < needed)
    (hres : needed ≤ s.la.dataReservationSize) :
    CommitInv k
        { s with la := s.la.resize (s.la.grownTotalSize needed)
                 accessible := max s.accessible (s.la.grownTotalSize needed).toNat } ∧
      needed.toNat ≤ (s.la.resize (s.la.grownTotalSize needed)).currDataSize.toNat := by
  have hreservation := h.reservation
  have hgrows := UInt64.lt_iff_toNat_lt.mp hdata
  obtain ⟨hk, hgrowable⟩ := h.growable hdata hres
  obtain ⟨hcover, htotal, -⟩ := hgrowable.covers
  have hpage := hgrowable.page
  have hsize : sizeofLinearAllocator.toNat = 32 := rfl
  have htotal_le : s.la.totalReservationSize.toNat ≤ 2 ^ 33 := by
    rw [LinearAllocator.totalReservationSize_toNat hpage hreservation.le, h.header]
    exact roundUp_le (Nat.two_pow_pos k) (Nat.pow_dvd_pow 2 (by omega)) (by omega)
  have hnew := LinearAllocator.resize_currDataSize h.header
    ((Nat.le_add_right _ _).trans hcover)
  refine ⟨⟨h.header, h.alignment, h.reservation, fun _ => ⟨hpage, ?_⟩, ?_, ?_, ?_, ?_,
    h.head_word⟩, ?_⟩
  · show (s.la.resize (s.la.grownTotalSize needed)).currDataSize.toNat ≤ 2 ^ 33
    omega
  · intro hhuge
    omega
  · show 0 < (s.la.resize (s.la.grownTotalSize needed)).currDataSize.toNat
    omega
  · show (s.la.resize (s.la.grownTotalSize needed)).currDataSize.toNat ≤ 2 ^ 62
    omega
  · show _ + (s.la.resize (s.la.grownTotalSize needed)).currDataSize.toNat ≤ max s.accessible _
    omega
  · omega

theorem alloc (h : CommitInv k s) {size : UInt32} (hcommits : GrowthCommits os s.la size)
    (clock : Nat) (live : List LinearRange) :
    AllocSound os s size ∧
      (let r := libdLinearAllocatorAlloc s.la false false size
       CommitInv k { s with la := r.la, accessible := accessibleAfter os s.accessible r.calls,
                            clock := clock, live := live }) := by
  have hneeded := h.needed_toNat size
  have hdata := h.data_le
  rw [AllocSound, h.header]
  have hcase := alloc_cases s.la size
  generalize libdLinearAllocatorAlloc s.la false false size = r at hcase ⊢
  cases hcase with
  | full hfull hres =>
    refine ⟨⟨?_, fun _ => ⟨rfl, rfl⟩⟩, h.moveHead h.head_word clock live s.taken⟩
    intro hok
    cases hok
  | fit hfit =>
    rw [UInt64.le_iff_toNat_le, hneeded] at hfit
    refine ⟨⟨fun _ => ⟨_, rfl, ?_⟩, fun hno => absurd rfl hno⟩,
      h.moveHead (h.bump hfit) clock live s.taken⟩
    intro i hi
    show _ < s.accessible
    omega
  | grow hgrow hres =>
    obtain ⟨hgrown, hcover⟩ := h.resize hgrow hres
    have hgranted := hcommits hgrow hres
    have haccess : accessibleAfter os s.accessible
        [.mprotect (s.la.grownTotalSize (s.la.headIndex + size.toUInt64))] =
        max s.accessible (s.la.grownTotalSize (s.la.headIndex + size.toUInt64)).toNat := by
      simp [accessibleAfter, hgranted]
    rw [hneeded] at hcover
    have hend : sizeofLinearAllocator.toNat +
        (s.la.resize (s.la.grownTotalSize (s.la.headIndex + size.toUInt64))).currDataSize.toNat ≤
        max s.accessible (s.la.grownTotalSize (s.la.headIndex + size.toUInt64)).toNat :=
      hgrown.data_le
    refine ⟨⟨fun _ => ⟨_, rfl, ?_⟩, fun hno => absurd rfl hno⟩, ?_⟩
    · intro i hi
      simp only [haccess]
      omega
    · simp only [haccess]
      exact hgrown.moveHead (hgrown.bump hcover) clock live s.taken

private theorem step (h : CommitInv k s) {a : Os × LinearOp}
    (hstep : committedStep s a = some next) :
    CommitInv k next := by
  obtain ⟨os, op⟩ := a
  cases op with
  | alloc size =>
    rw [committedStep] at hstep
    split at hstep
    · rename_i hcommits
      simp only [LinearSystem.step, Option.some.injEq] at hstep
      subst hstep
      exact (h.alloc hcommits _ _).2
    · cases hstep
  | setSavepoint =>
    simp only [committedStep, LinearSystem.step, Option.some.injEq] at hstep
    subst hstep
    exact h.moveHead h.head_word _ _ _
  | restoreSavepoint index =>
    simp only [committedStep, LinearSystem.step, Option.map_eq_some_iff] at hstep
    obtain ⟨t, -, hnext⟩ := hstep
    subst hnext
    exact h.moveHead t.sp.head_lt _ _ _
  | reset =>
    simp only [committedStep, LinearSystem.step, Option.some.injEq] at hstep
    subst hstep
    exact h.moveHead (by decide) _ _ _

private theorem run (h : CommitInv k s) {ops : List (Os × LinearOp)} {final : LinearSystem}
    (hrun : committedRun s ops = some final) : CommitInv k final :=
  PartialRuns.run_invariant (CommitInv k) (fun _ _ _ hs hstep => hs.step hstep) h hrun

/-- A successful creation commits what it claims. -/
theorem create {outNull : Bool} {dataReservationSize startingCapacity : UInt32} {alignment : UInt8}
    {la : LinearAllocator} {reserved committed : UInt64} (hpage : os.pageSize.toInt = 2 ^ k)
    (hcreate : libdLinearAllocatorCreate os outNull dataReservationSize startingCapacity alignment =
      { result := .ok, out := some la, calls := [.mmap reserved, .mprotect committed] }) :
    CommitInv k (LinearSystem.start la committed) := by
  have hcreated := libdLinearAllocatorCreate_createdAs hpage hcreate
  have hpos := Nat.two_pow_pos k
  have hlt := startingCapacity.toNat_lt
  have hdata := hcreated.data
  have hpage_le := hcreated.page_le
  have hsmall (hk : k < 32) : la.currDataSize.toNat ≤ 2 ^ 32 := by
    rw [hdata]
    exact roundUp_le hpos (Nat.pow_dvd_pow 2 hk.le) hlt.le
  have hhuge (hk : 32 ≤ k) : la.currDataSize.toNat ≤ 2 ^ k := by
    have hpow : 2 ^ 32 ≤ 2 ^ k := Nat.pow_le_pow_right (by decide) hk
    rw [hdata]
    exact roundUp_le hpos dvd_rfl (by omega)
  constructor
  case header => exact hcreated.header
  case alignment =>
    obtain ⟨j, -, ha⟩ := hcreated.valid
    show 0 < la.alignment.toNat
    rw [hcreated.unit, ha]
    exact Nat.two_pow_pos j
  case reservation =>
    show la.dataReservationSize.toNat < 2 ^ 32
    rw [hcreated.reservation]
    exact dataReservationSize.toNat_lt
  case page =>
    intro hk
    show la.sysPageSize.toNat = 2 ^ k ∧ la.currDataSize.toNat ≤ 2 ^ 33
    have hpow : 2 ^ k < 2 ^ 32 := Nat.pow_lt_pow_right (by decide) hk
    have hbound := hsmall hk
    constructor
    · rw [hcreated.page, Nat.mod_eq_of_lt hpow]
    · omega
  case page_huge =>
    intro hk
    show 2 ^ 32 ≤ la.currDataSize.toNat
    have hpow : 2 ^ 32 ≤ 2 ^ k := Nat.pow_le_pow_right (by decide) hk
    omega
  case data_pos => exact hpos.trans_le hpage_le
  case data_word =>
    show la.currDataSize.toNat ≤ 2 ^ 62
    have hle := (PageSize.of_toInt hpage).pow_le
    cases Nat.lt_or_ge k 32 with
    | inl hk =>
      have hbound := hsmall hk
      omega
    | inr hk =>
      have hbound := hhuge hk
      omega
  case data_le => exact hcreated.committed_ge
  case head_word =>
    show la.headIndex.toNat < 2 ^ 63
    rw [hcreated.head]
    decide

end CommitInv

/-- Creation undoes what it did exactly when it is not the first commitment that fails. In a run
where no growth is denied, whatever else fails, every request is granted accessible bytes or
refused without a change. -/
theorem linear_commit_failures (os : Os) (outNull : Bool)
    (dataReservationSize startingCapacity : UInt32) (alignment : UInt8) :
    (CreateSound os (libdLinearAllocatorCreate os outNull dataReservationSize startingCapacity
        alignment) ↔
      ¬CommitFails os outNull dataReservationSize startingCapacity alignment) ∧
    ∀ (k : Nat) (la : LinearAllocator) (reserved committed : UInt64),
      os.pageSize.toInt = 2 ^ k →
      libdLinearAllocatorCreate os outNull dataReservationSize startingCapacity alignment =
        { result := .ok, out := some la, calls := [.mmap reserved, .mprotect committed] } →
      ∀ (ops : List (Os × LinearOp)) (s : LinearSystem),
        committedRun (LinearSystem.start la committed) ops = some s →
        ∀ (now : Os) (size : UInt32), GrowthCommits now s.la size → AllocSound now s size := by
  refine ⟨createSound_iff os outNull dataReservationSize startingCapacity alignment, ?_⟩
  intro k la reserved committed hpage hcreate ops s hrun now size hcommits
  have hinv := (CommitInv.create hpage hcreate).run hrun
  exact (hinv.alloc hcommits s.clock s.live).1

/-- A machine that reserves and never commits. -/
def reservingOs : Os := { grantingOs with mprotect := fun _ => false }

theorem linear_commit_failures_two_pages :
    ∃ s, committedRun
        (LinearSystem.start
          { currDataSize := 4096, headIndex := 0, alignment := 8, headerSize := 32,
            sysPageSize := 4096, dataReservationSize := 65536 } 8192)
        [(reservingOs, .alloc 4000), (grantingOs, .alloc 9000), (reservingOs, .alloc 65000)] =
          some s ∧
      AllocSound reservingOs s 3000 := by
  obtain ⟨s, hrun⟩ : ∃ s, committedRun
      (LinearSystem.start
        { currDataSize := 4096, headIndex := 0, alignment := 8, headerSize := 32,
          sysPageSize := 4096, dataReservationSize := 65536 } 8192)
      [(reservingOs, .alloc 4000), (grantingOs, .alloc 9000), (reservingOs, .alloc 65000)] =
        some s := ⟨_, rfl⟩
  have hcommits : GrowthCommits reservingOs s.la 3000 := by
    cases hrun
    decide
  exact ⟨s, hrun, (linear_commit_failures grantingOs false 65536 16 8).2 12 _ 69632 8192 (by decide)
    rfl _ s hrun reservingOs 3000 hcommits⟩

/-- Creation leaves its reservation behind, and a request for 9000 bytes is granted with 8160 of
them accessible. -/
theorem linear_commit_failures_unreported :
    ¬CreateSound reservingOs (libdLinearAllocatorCreate reservingOs false 65536 16 8) ∧
    ∃ la, libdLinearAllocatorCreate grantingOs false 65536 16 8 =
        { result := .ok, out := some la, calls := [.mmap 69632, .mprotect 8192] } ∧
      ¬AllocSound reservingOs (LinearSystem.start la 8192) 9000 := by
  constructor
  · intro h
    have hgone := (h (by decide)).2
    revert hgone
    decide
  · refine ⟨_, rfl, ?_⟩
    intro h
    obtain ⟨offset, hoffset, hbytes⟩ := h.1 rfl
    have hlast := hbytes 8999 (by decide)
    cases hoffset
    revert hlast
    decide

end Libdane
