import Libdane.Memory.LinearCommit
import Mathlib.Data.Nat.Log

/-!
# How the linear allocator grows

A growth rounds to a multiple of twice the current data with the bit mask of the alignment helper.
The current data is a number of pages at first and a number of pages less one header later, so the
unit is rarely a power of two, and the mask finds the least multiple exactly when it fits the unit.
-/

namespace Libdane

open MaskRounding LinearInv LinearSystem

namespace LinearAllocator

variable {la : LinearAllocator} {k : Nat} {size : UInt32}

/-- The request does not fit the data and fits the reservation. -/
def Grows (la : LinearAllocator) (size : UInt32) : Prop :=
  la.currDataSize < la.headIndex + size.toUInt64 ∧
    la.headIndex + size.toUInt64 ≤ la.dataReservationSize

instance (la : LinearAllocator) (size : UInt32) : Decidable (la.Grows size) :=
  inferInstanceAs (Decidable (_ ∧ _))

/-- The new size is the next multiple of twice the data, and a growth that the reservation does not
cap at least doubles the data. -/
def GrowthSound (la : LinearAllocator) (size : UInt32) : Prop :=
  IsLeast {n | 2 * la.currDataSize.toNat ∣ n ∧ la.headIndex.toNat + size.toNat ≤ n}
      (la.newDataSize (la.headIndex + size.toUInt64)).toNat ∧
    (la.newTotalSize (la.headIndex + size.toUInt64) ≤ la.totalReservationSize →
      2 * la.currDataSize.toNat ≤
        (libdLinearAllocatorAlloc la false false size).la.currDataSize.toNat)

/-- The mask of twice the data rounds the end of the request to the next multiple. -/
def GrowthFits (la : LinearAllocator) (size : UInt32) : Prop :=
  MaskFits (la.headIndex.toNat + size.toNat) (2 * la.currDataSize.toNat)

instance (la : LinearAllocator) (size : UInt32) : Decidable (la.GrowthFits size) :=
  inferInstanceAs (Decidable (MaskFits _ _))

private theorem alloc_grows (hgrows : la.Grows size) :
    libdLinearAllocatorAlloc la false false size =
      { result := .ok, outPtr := some la.headIndex,
        la := (la.resize (la.grownTotalSize (la.headIndex + size.toUInt64))).bump size,
        calls := [.mprotect (la.grownTotalSize (la.headIndex + size.toUInt64))] } := by
  have hcase := alloc_cases la size
  generalize libdLinearAllocatorAlloc la false false size = r at hcase ⊢
  cases hcase with
  | full _ hres => exact absurd hgrows.2 (UInt64.not_le.mpr hres)
  | grow => rfl
  | fit hfit => exact absurd hgrows.1 (UInt64.not_lt.mpr hfit)

namespace Growable

variable {needed : UInt64}

private theorem isLeast_newDataSize_iff (h : la.Growable k needed) :
    IsLeast {n | 2 * la.currDataSize.toNat ∣ n ∧ needed.toNat ≤ n} (la.newDataSize needed).toNat ↔
      MaskFits needed.toNat (2 * la.currDataSize.toNat) := by
  have hpos := h.data_pos
  have hround := libdMemoryAlignUp_eq_roundUp_iff h.unit_fits.1 h.unit_fits.2
  rw [h.unit_toNat] at hround
  have hleast : IsLeast {n | 2 * la.currDataSize.toNat ∣ n ∧ needed.toNat ≤ n}
      (roundUp needed.toNat (2 * la.currDataSize.toNat)) :=
    isLeast_roundUp (by omega) needed.toNat
  rw [← hround]
  constructor
  · intro h
    exact h.unique hleast
  · intro h
    rw [LinearAllocator.newDataSize, h]
    exact hleast

private theorem newDataSize_le (h : la.Growable k needed)
    (hcap : la.newTotalSize needed ≤ la.totalReservationSize) :
    (la.newDataSize needed).toNat ≤ (la.resize (la.grownTotalSize needed)).currDataSize.toNat := by
  have htotal := la.grownTotalSize_toNat needed
  rw [min_eq_left (UInt64.le_iff_toNat_le.mp hcap), h.newTotalSize_toNat] at htotal
  have hround := le_roundUp (Nat.two_pow_pos k)
    (sizeofLinearAllocator.toNat + (la.newDataSize needed).toNat)
  have hheader : sizeofLinearAllocator.toNat ≤ (la.grownTotalSize needed).toNat := by omega
  have hnew := resize_currDataSize h.header hheader
  omega

private theorem reservation_le (h : la.Growable k needed)
    (hcap : ¬la.newTotalSize needed ≤ la.totalReservationSize) :
    la.dataReservationSize.toNat ≤
      (la.resize (la.grownTotalSize needed)).currDataSize.toNat := by
  rw [UInt64.le_iff_toNat_le] at hcap
  have htotal := la.grownTotalSize_toNat needed
  rw [min_eq_right (by omega), h.total_toNat] at htotal
  have hround := le_roundUp (Nat.two_pow_pos k)
    (sizeofLinearAllocator.toNat + la.dataReservationSize.toNat)
  have hheader : sizeofLinearAllocator.toNat ≤ (la.grownTotalSize needed).toNat := by omega
  have hnew := resize_currDataSize h.header hheader
  omega

end Growable

end LinearAllocator

namespace LinearSystem

/-- A step under the outcomes of its own system calls. -/
def variedStep (s : LinearSystem) : Os × LinearOp → Option LinearSystem
  | (os, op) => step os s op

def variedRun : LinearSystem → List (Os × LinearOp) → Option LinearSystem :=
  PartialRuns.run variedStep

/-- The sizes of an allocator do not depend on what the system has granted. -/
def Sized (k : Nat) (s : LinearSystem) : Prop :=
  ∃ accessible, CommitInv k { s with accessible := accessible }

end LinearSystem

namespace LinearSystem.Sized

variable {k : Nat} {s next : LinearSystem} {size : UInt32}

theorem step (h : Sized k s) {a : Os × LinearOp} (hstep : variedStep s a = some next) :
    Sized k next := by
  obtain ⟨accessible, hinv⟩ := h
  obtain ⟨os, op⟩ := a
  cases op with
  | alloc size =>
    cases hstep
    have hcommits : GrowthCommits grantingOs s.la size := fun _ _ => rfl
    exact ⟨_, (hinv.alloc hcommits _ _).2⟩
  | setSavepoint =>
    cases hstep
    exact ⟨accessible, hinv.moveHead hinv.head_word _ _ _⟩
  | restoreSavepoint index =>
    simp only [variedStep, LinearSystem.step, Option.map_eq_some_iff] at hstep
    obtain ⟨t, ht, hnext⟩ := hstep
    subst hnext
    exact ⟨accessible, hinv.moveHead t.sp.head_lt _ _ _⟩
  | reset =>
    cases hstep
    exact ⟨accessible, hinv.moveHead (by decide) _ _ _⟩

private theorem growable (h : Sized k s) (hgrows : s.la.Grows size) :
    s.la.Growable k (s.la.headIndex + size.toUInt64) := by
  obtain ⟨accessible, hinv⟩ := h
  exact (hinv.growable hgrows.1 hgrows.2).2

private theorem needed_toNat (h : Sized k s) (size : UInt32) :
    (s.la.headIndex + size.toUInt64).toNat = s.la.headIndex.toNat + size.toNat := by
  obtain ⟨accessible, hinv⟩ := h
  exact hinv.needed_toNat size

private theorem growthSound_iff (h : Sized k s) (hgrows : s.la.Grows size) :
    s.la.GrowthSound size ↔ s.la.GrowthFits size := by
  have hgrowable := h.growable hgrows
  have hleast := hgrowable.isLeast_newDataSize_iff
  have hneeded := UInt64.lt_iff_toNat_lt.mp hgrows.1
  rw [h.needed_toNat] at hleast hneeded
  rw [LinearAllocator.GrowthFits, ← hleast]
  constructor
  · intro hsound
    exact hsound.1
  · intro hnext
    refine ⟨hnext, ?_⟩
    intro hcap
    rw [LinearAllocator.alloc_grows hgrows]
    calc 2 * s.la.currDataSize.toNat
        ≤ (s.la.newDataSize (s.la.headIndex + size.toUInt64)).toNat :=
          Nat.le_of_dvd ((Nat.zero_le _).trans_lt hneeded |>.trans_le hnext.1.2) hnext.1.1
      _ ≤ _ := hgrowable.newDataSize_le hcap

end LinearSystem.Sized

/-- A run that counts its growths and the bytes its client was granted. -/
structure GrowthTally where
  sys : LinearSystem
  growths : Nat
  bytes : Nat

namespace GrowthTally

def start (la : LinearAllocator) (committed : UInt64) : GrowthTally :=
  { sys := LinearSystem.start la committed, growths := 0, bytes := 0 }

/-- A step in which no growth is rounded by a mask that does not fit. -/
def roundedStep (t : GrowthTally) : Os × LinearOp → Option GrowthTally
  | (os, .alloc size) =>
    (LinearSystem.step os t.sys (.alloc size)).bind fun next =>
      if t.sys.la.Grows size then
        if t.sys.la.GrowthFits size then
          some { sys := next, growths := t.growths + 1, bytes := t.bytes + size.toNat }
        else none
      else if (libdLinearAllocatorAlloc t.sys.la false false size).result = .ok then
        some { t with sys := next, bytes := t.bytes + size.toNat }
      else some { t with sys := next }
  | (os, op) => (LinearSystem.step os t.sys op).map fun next => { t with sys := next }

def roundedRun : GrowthTally → List (Os × LinearOp) → Option GrowthTally :=
  PartialRuns.run roundedStep

end GrowthTally

/-- Each growth of a rounded run has doubled the data or was the last, and the growths before the
last one are paid for by the bytes that were granted. -/
structure GrowthInv (k j first : Nat) (t : GrowthTally) : Prop where
  sized : t.sys.Sized k
  alignment : t.sys.la.alignment.toNat = 2 ^ j
  head_le : t.sys.la.headIndex.toNat ≤ 2 ^ j * t.bytes
  taken_le : ∀ u ∈ t.sys.taken, u.sp.dataIndex.toNat ≤ 2 ^ j * t.bytes
  grown : first * 2 ^ t.growths ≤ t.sys.la.currDataSize.toNat ∨
    t.sys.la.dataReservationSize.toNat ≤ t.sys.la.currDataSize.toNat
  paid : 0 < t.growths → first * 2 ^ (t.growths - 1) < 2 ^ j * t.bytes

private theorem LinearAllocator.bump_headIndex_le {la : LinearAllocator} {j : Nat}
    (halign : la.alignment.toNat = 2 ^ j) (size : UInt32) :
    (la.bump size).headIndex.toNat ≤ la.headIndex.toNat + 2 ^ j * size.toNat := by
  have hpos := Nat.two_pow_pos j
  have hunit : la.alignment.toUInt64.toNat = 2 ^ j := by
    rw [UInt8.toNat_toUInt64, halign]
  have hfit : size.toUInt64.toNat + la.alignment.toUInt64.toNat - 1 < 2 ^ 64 := by
    have hsize := size.toNat_lt
    have hbyte := la.alignment.toNat_lt
    rw [UInt32.toNat_toUInt64, UInt8.toNat_toUInt64]
    omega
  have hround : roundUp size.toNat (2 ^ j) ≤ 2 ^ j * size.toNat :=
    roundUp_le hpos (Dvd.intro _ rfl) (Nat.le_mul_of_pos_left _ hpos)
  rw [LinearAllocator.bump, UInt64.toNat_add, libdMemoryAlignUp_toNat hunit hfit,
    UInt32.toNat_toUInt64, hunit]
  exact (Nat.mod_le _ _).trans (Nat.add_le_add_left hround _)

namespace GrowthInv

variable {k j first : Nat} {t next : GrowthTally} {size : UInt32}

private theorem grow (h : GrowthInv k j first t) (hgrows : t.sys.la.Grows size)
    (hfits : t.sys.la.GrowthFits size) :
    let la := (libdLinearAllocatorAlloc t.sys.la false false size).la
    (first * 2 ^ (t.growths + 1) ≤ la.currDataSize.toNat ∨
        la.dataReservationSize.toNat ≤ la.currDataSize.toNat) ∧
      first * 2 ^ t.growths < 2 ^ j * (t.bytes + size.toNat) := by
  intro la
  have hsound := (h.sized.growthSound_iff hgrows).mpr hfits
  have hgrowable := h.sized.growable hgrows
  have hla : la = (t.sys.la.resize (t.sys.la.grownTotalSize
      (t.sys.la.headIndex + size.toUInt64))).bump size := by
    simp only [la, LinearAllocator.alloc_grows hgrows]
  have hdata := UInt64.lt_iff_toNat_lt.mp hgrows.1
  have hres := UInt64.le_iff_toNat_le.mp hgrows.2
  rw [h.sized.needed_toNat] at hdata hres
  have hdoubled : first * 2 ^ t.growths ≤ t.sys.la.currDataSize.toNat := by
    cases h.grown with
    | inl hdoubled => exact hdoubled
    | inr hlast => omega
  constructor
  · by_cases hcap : t.sys.la.newTotalSize (t.sys.la.headIndex + size.toUInt64) ≤
        t.sys.la.totalReservationSize
    · left
      have hdouble := hsound.2 hcap
      rw [Nat.pow_succ, ← Nat.mul_assoc]
      show _ ≤ (libdLinearAllocatorAlloc t.sys.la false false size).la.currDataSize.toNat
      omega
    · right
      rw [hla]
      exact hgrowable.reservation_le hcap
  · have hhead := h.head_le
    have hsize : size.toNat ≤ 2 ^ j * size.toNat :=
      Nat.le_mul_of_pos_left _ (Nat.two_pow_pos j)
    rw [Nat.mul_add]
    omega

private theorem taken_le_add (h : GrowthInv k j first t) (bytes : Nat) :
    ∀ u ∈ t.sys.taken, u.sp.dataIndex.toNat ≤ 2 ^ j * (t.bytes + bytes) := by
  intro u hu
  rw [Nat.mul_add]
  exact (h.taken_le u hu).trans (Nat.le_add_right _ _)

private theorem alloc (h : GrowthInv k j first t) {os : Os}
    (hstep : t.roundedStep (os, .alloc size) = some next) : GrowthInv k j first next := by
  simp only [GrowthTally.roundedStep, LinearSystem.step, Option.bind_some] at hstep
  have hsized : Sized k _ := h.sized.step (a := (os, .alloc size)) rfl
  have hhead := h.head_le
  have hmore := h.taken_le_add size.toNat
  have hcase := alloc_cases t.sys.la size
  split at hstep
  · rename_i hgrows
    split at hstep
    · rename_i hfits
      cases hstep
      obtain ⟨hgrown, hpaid⟩ := h.grow hgrows hfits
      rw [LinearAllocator.alloc_grows hgrows] at hsized hgrown ⊢
      have hresized : (t.sys.la.resize (t.sys.la.grownTotalSize
          (t.sys.la.headIndex + size.toUInt64))).alignment.toNat = 2 ^ j := h.alignment
      have hbump := LinearAllocator.bump_headIndex_le hresized size
      refine ⟨hsized, h.alignment, hbump.trans ?_, hmore, hgrown, fun _ => hpaid⟩
      rw [Nat.mul_add]
      exact Nat.add_le_add_right hhead _
    · cases hstep
  · rename_i hgrows
    generalize libdLinearAllocatorAlloc t.sys.la false false size = r at hcase hsized hstep
    cases hcase with
    | grow hdata hres => exact absurd ⟨hdata, hres⟩ hgrows
    | full =>
      cases hstep
      exact ⟨hsized, h.alignment, hhead, h.taken_le, h.grown, h.paid⟩
    | fit =>
      cases hstep
      have hbump := LinearAllocator.bump_headIndex_le h.alignment size
      have hbytes : 2 ^ j * (t.bytes + size.toNat) = 2 ^ j * t.bytes + 2 ^ j * size.toNat :=
        Nat.mul_add _ _ _
      refine ⟨hsized, h.alignment, ?_, hmore, h.grown, ?_⟩
      · show (t.sys.la.bump size).headIndex.toNat ≤ 2 ^ j * (t.bytes + size.toNat)
        omega
      · intro hgrowths
        have hpaid := h.paid hgrowths
        show first * 2 ^ (t.growths - 1) < 2 ^ j * (t.bytes + size.toNat)
        omega

theorem step (h : GrowthInv k j first t) {a : Os × LinearOp}
    (hstep : t.roundedStep a = some next) : GrowthInv k j first next := by
  obtain ⟨os, op⟩ := a
  cases op with
  | alloc size => exact h.alloc hstep
  | setSavepoint =>
    cases hstep
    have hsized : Sized k _ := h.sized.step (a := (os, .setSavepoint)) rfl
    refine ⟨hsized, h.alignment, h.head_le, ?_, h.grown, h.paid⟩
    intro u hu
    cases List.mem_append.mp hu with
    | inl hu => exact h.taken_le u hu
    | inr hu =>
      rw [List.mem_singleton.mp hu]
      show t.sys.la.headIndex.toUInt32.toNat ≤ _
      rw [UInt64.toNat_toUInt32]
      exact (Nat.mod_le _ _).trans h.head_le
  | restoreSavepoint index =>
    simp only [GrowthTally.roundedStep, Option.map_eq_some_iff] at hstep
    obtain ⟨s, hs, hnext⟩ := hstep
    subst hnext
    have hsized : Sized k s := h.sized.step (a := (os, .restoreSavepoint index)) hs
    simp only [LinearSystem.step, Option.map_eq_some_iff] at hs
    obtain ⟨u, hu, hs⟩ := hs
    subst hs
    refine ⟨hsized, h.alignment, ?_, ?_, h.grown, h.paid⟩
    · show u.sp.dataIndex.toUInt64.toNat ≤ _
      rw [UInt32.toNat_toUInt64]
      exact h.taken_le u (List.mem_of_getElem? hu)
    · intro v hv
      obtain ⟨w, hw, rfl⟩ := List.mem_map.mp hv
      exact h.taken_le w hw
  | reset =>
    cases hstep
    have hsized : Sized k _ := h.sized.step (a := (os, .reset)) rfl
    refine ⟨hsized, h.alignment, Nat.zero_le _, ?_, h.grown, h.paid⟩
    intro v hv
    obtain ⟨w, hw, rfl⟩ := List.mem_map.mp hv
    exact h.taken_le w hw

private theorem run (h : GrowthInv k j first t) {ops : List (Os × LinearOp)} {final : GrowthTally}
    (hrun : t.roundedRun ops = some final) : GrowthInv k j first final :=
  PartialRuns.run_invariant (GrowthInv k j first) (fun _ _ _ ht hstep => ht.step hstep) h hrun

private theorem growths_le (h : GrowthInv k j first t) (hfirst : 0 < first) :
    t.growths ≤ Nat.log 2 (2 ^ j * t.bytes / first) + 1 := by
  cases Nat.eq_zero_or_pos t.growths with
  | inl hnone => omega
  | inr hsome =>
    have hpaid := h.paid hsome
    have hpow : 2 ^ (t.growths - 1) ≤ 2 ^ j * t.bytes / first := by
      rw [Nat.le_div_iff_mul_le hfirst, Nat.mul_comm]
      exact hpaid.le
    have hlog := Nat.le_log_of_pow_le Nat.one_lt_two hpow
    omega

end GrowthInv

/-- In every reachable state a growth finds the next multiple of twice the data, and doubles the
data if the reservation does not cap it, exactly when the mask fits. A run whose growths all fit
grows a number of times that is logarithmic in the bytes it was granted. -/
theorem linear_growth_iff (os : Os) (k : Nat) (hpage : os.pageSize.toInt = 2 ^ k) (outNull : Bool)
    (dataReservationSize startingCapacity : UInt32) (alignment : UInt8) (la : LinearAllocator)
    (reserved committed : UInt64)
    (hcreate : libdLinearAllocatorCreate os outNull dataReservationSize startingCapacity alignment =
      { result := .ok, out := some la, calls := [.mmap reserved, .mprotect committed] }) :
    (∀ ops s, variedRun (LinearSystem.start la committed) ops = some s →
      ∀ size, s.la.Grows size → (s.la.GrowthSound size ↔ s.la.GrowthFits size)) ∧
    ∀ ops t, (GrowthTally.start la committed).roundedRun ops = some t →
      t.growths ≤ Nat.log 2 (alignment.toNat * t.bytes / la.currDataSize.toNat) + 1 := by
  have hcreated := libdLinearAllocatorCreate_createdAs hpage hcreate
  have hsized : Sized k (LinearSystem.start la committed) :=
    ⟨_, CommitInv.create hpage hcreate⟩
  constructor
  · intro ops s hrun size hgrows
    have hreached : Sized k s :=
      PartialRuns.run_invariant (Sized k) (fun _ _ _ hs hstep => hs.step hstep) hsized hrun
    exact hreached.growthSound_iff hgrows
  · intro ops t hrun
    obtain ⟨j, -, hj⟩ := hcreated.valid
    have hstart : GrowthInv k j la.currDataSize.toNat (GrowthTally.start la committed) := by
      constructor
      case sized => exact hsized
      case alignment =>
        show la.alignment.toNat = 2 ^ j
        rw [hcreated.unit, hj]
      case head_le =>
        show la.headIndex.toNat ≤ _
        rw [hcreated.head]
        exact Nat.zero_le _
      case taken_le =>
        intro u hu
        cases hu
      case grown => exact Or.inl (Nat.mul_one _).le
      case paid =>
        intro hnone
        cases hnone
    rw [hj]
    exact (hstart.run hrun).growths_le ((Nat.two_pow_pos k).trans_le hcreated.page_le)

/-- Requests of 4000 and 5000 bytes grow one page of data by a power of two. -/
theorem linear_growth_iff_one_page :
    ∃ s t,
      variedRun (LinearSystem.start
          { currDataSize := 4096, headIndex := 0, alignment := 8, headerSize := 32,
            sysPageSize := 4096, dataReservationSize := 1048576 } 8192)
        [(reservingOs, .alloc 4000)] = some s ∧ s.la.GrowthSound 5000 ∧
      (GrowthTally.start
          { currDataSize := 4096, headIndex := 0, alignment := 8, headerSize := 32,
            sysPageSize := 4096, dataReservationSize := 1048576 } 8192).roundedRun
        [(reservingOs, .alloc 4000), (grantingOs, .alloc 5000)] = some t ∧
      t.growths = 1 ∧ t.growths ≤ Nat.log 2 (8 * t.bytes / 4096) + 1 := by
  have hboth := linear_growth_iff grantingOs 12 (by decide) false 1048576 16 8 _ 1052672 8192 rfl
  obtain ⟨s, hs⟩ : ∃ s, variedRun (LinearSystem.start
      { currDataSize := 4096, headIndex := 0, alignment := 8, headerSize := 32,
        sysPageSize := 4096, dataReservationSize := 1048576 } 8192)
      [(reservingOs, .alloc 4000)] = some s := ⟨_, rfl⟩
  obtain ⟨t, ht⟩ : ∃ t, (GrowthTally.start
      { currDataSize := 4096, headIndex := 0, alignment := 8, headerSize := 32,
        sysPageSize := 4096, dataReservationSize := 1048576 } 8192).roundedRun
      [(reservingOs, .alloc 4000), (grantingOs, .alloc 5000)] = some t := ⟨_, rfl⟩
  have hgrows : s.la.Grows 5000 ∧ s.la.GrowthFits 5000 := by
    cases hs
    decide
  have hbound := hboth.2 _ t ht
  refine ⟨s, t, hs, (hboth.1 _ s hs 5000 hgrows.1).mpr hgrows.2, ht, ?_, hbound⟩
  cases ht
  rfl

/-- Five pages of data and one byte more: twice the data is 40960 bytes, the new size is 24576, and
the data grows to 28640 bytes. -/
theorem linear_growth_mask_misses :
    ∃ la, libdLinearAllocatorCreate grantingOs false 1048576 20480 8 =
        { result := .ok, out := some la, calls := [.mmap 1052672, .mprotect 24576] } ∧
      la.Grows 20481 ∧
      ¬IsLeast {n | 2 * la.currDataSize.toNat ∣ n ∧ la.headIndex.toNat + (20481 : UInt32).toNat ≤ n}
        (la.newDataSize (la.headIndex + (20481 : UInt32).toUInt64)).toNat ∧
      la.newTotalSize (la.headIndex + (20481 : UInt32).toUInt64) ≤ la.totalReservationSize ∧
      (libdLinearAllocatorAlloc la false false 20481).la.currDataSize.toNat = 28640 ∧
      28640 < 2 * la.currDataSize.toNat := by
  refine ⟨_, rfl, by decide, ?_, by decide, by decide, by decide⟩
  intro h
  have hmultiple := h.1.1
  revert hmultiple
  decide

end Libdane
