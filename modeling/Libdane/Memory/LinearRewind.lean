import Libdane.Memory.LinearBounds

/-!
# Rewinding the linear allocator

Restoring a savepoint and resetting move the head back and leave the data at its grown size. The
reservation is only looked at when the data has to grow, so an allocator whose data has once grown
over the page padding behind the reservation accepts requests there that it refused before.
-/

namespace Libdane

open MaskRounding LinearInv

namespace LinearAllocator

/-- The allocator after a list of requests. -/
def allocAll (la : LinearAllocator) : List UInt32 → LinearAllocator
  | [] => la
  | size :: sizes => (libdLinearAllocatorAlloc la false false size).la.allocAll sizes

/-- What the client sees of one request. -/
def allocAnswer (la : LinearAllocator) (size : UInt32) : LibdResult × Option UInt64 :=
  let r := libdLinearAllocatorAlloc la false false size
  (r.result, r.outPtr)

/-- The result codes and the offsets of a list of requests. -/
def allocResults (la : LinearAllocator) : List UInt32 → List (LibdResult × Option UInt64)
  | [] => []
  | size :: sizes =>
    la.allocAnswer size :: (libdLinearAllocatorAlloc la false false size).la.allocResults sizes

/-- The data reaches behind the reservation. -/
def CoversPadding (la : LinearAllocator) : Prop := la.dataReservationSize < la.currDataSize

/-- The request ends behind the reservation and inside the mapping. -/
def EndsInPadding (la : LinearAllocator) (size : UInt32) : Prop :=
  la.dataReservationSize.toNat < la.headIndex.toNat + size.toNat ∧
    la.headerSize.toNat + la.headIndex.toNat + size.toNat ≤ la.totalReservationSize.toNat

/-- No request of the list finds the padding it ends in covered by the data of only one of the two
allocators. -/
def PaddingAgrees (la other : LinearAllocator) : List UInt32 → Prop
  | [] => True
  | size :: sizes =>
    (la.EndsInPadding size → (la.CoversPadding ↔ other.CoversPadding)) ∧
      (libdLinearAllocatorAlloc la false false size).la.PaddingAgrees
        (libdLinearAllocatorAlloc other false false size).la sizes

/-- A request is accepted when it ends inside the data or inside the reservation. -/
def Accepts (la : LinearAllocator) (size : UInt32) : Prop :=
  la.headIndex + size.toUInt64 ≤ la.currDataSize ∨
    la.headIndex + size.toUInt64 ≤ la.dataReservationSize

theorem alloc_accepted {la : LinearAllocator} {size : UInt32} (h : la.Accepts size) :
    la.allocAnswer size = (.ok, some la.headIndex) ∧
      (libdLinearAllocatorAlloc la false false size).la.headIndex =
        la.headIndex + libdMemoryAlignUp size.toUInt64 la.alignment.toUInt64 := by
  rw [allocAnswer]
  have hcase := alloc_cases la size
  generalize libdLinearAllocatorAlloc la false false size = r at hcase ⊢
  cases hcase with
  | full hdata hres =>
    cases h with
    | inl hfit => exact absurd hdata (UInt64.not_lt.mpr hfit)
    | inr hfit => exact absurd hres (UInt64.not_lt.mpr hfit)
  | grow => exact ⟨rfl, rfl⟩
  | fit => exact ⟨rfl, rfl⟩

theorem alloc_refused {la : LinearAllocator} {size : UInt32} (h : ¬la.Accepts size) :
    la.allocAnswer size = (.noMemory, none) ∧
      (libdLinearAllocatorAlloc la false false size).la = la := by
  rw [allocAnswer]
  have hcase := alloc_cases la size
  generalize libdLinearAllocatorAlloc la false false size = r at hcase ⊢
  cases hcase with
  | full => exact ⟨rfl, rfl⟩
  | grow hdata hres => exact absurd (Or.inr hres) h
  | fit hfit => exact absurd (Or.inl hfit) h

private theorem allocAnswer_eq_iff {la other : LinearAllocator}
    (hhead : la.headIndex = other.headIndex) (size : UInt32) :
    la.allocAnswer size = other.allocAnswer size ↔ (la.Accepts size ↔ other.Accepts size) := by
  by_cases hla : la.Accepts size
  · by_cases hother : other.Accepts size
    · simp [(alloc_accepted hla).1, (alloc_accepted hother).1, hla, hother, hhead]
    · simp [(alloc_accepted hla).1, (alloc_refused hother).1, hla, hother]
  · by_cases hother : other.Accepts size
    · simp [(alloc_refused hla).1, (alloc_accepted hother).1, hla, hother]
    · simp [(alloc_refused hla).1, (alloc_refused hother).1, hla, hother]

/-- Growth that passes the reservation takes in the whole mapping. -/
def Settled (la : LinearAllocator) : Prop :=
  la.CoversPadding →
    la.headerSize.toNat + la.currDataSize.toNat = la.totalReservationSize.toNat

end LinearAllocator

open LinearAllocator

/-- What an allocator keeps of the one it was created as: all fields but the sizes, and the size of
the data if that is larger than the reservation from the start. -/
structure RewindInv (created la : LinearAllocator) : Prop where
  config : la = { created with currDataSize := la.currDataSize, headIndex := la.headIndex }
  fixed : created.CoversPadding → la.currDataSize = created.currDataSize
  settled : ¬created.CoversPadding → la.Settled

namespace RewindInv

variable {os : Os} {k j reserved : Nat} {created la other : LinearAllocator}
  {s t next : LinearSystem}

theorem start (created : LinearAllocator) : RewindInv created created :=
  ⟨rfl, fun _ => rfl, fun hnot hcovers => absurd hcovers hnot⟩

theorem reservation (h : RewindInv created la) :
    la.dataReservationSize = created.dataReservationSize := by
  rw [h.config]

private theorem moveHead (h : RewindInv created la) (headIndex : UInt64) :
    RewindInv created { la with headIndex := headIndex } :=
  ⟨congrArg (fun l : LinearAllocator => { l with headIndex := headIndex }) h.config, h.fixed,
    h.settled⟩

private theorem grow (h : RewindInv created s.la) (hinv : LinearInv k j reserved s)
    {needed : UInt64}
    (hdata : s.la.currDataSize < needed) (hres : needed ≤ s.la.dataReservationSize) :
    RewindInv created (s.la.resize (s.la.grownTotalSize needed)) := by
  have hbound := hinv.data_bound
  obtain ⟨hroom, hcap, hdvd⟩ := hinv.configured.grown hinv.data_pos (by omega) hres
  have htotal := hinv.configured.total
  have hheader : s.la.headerSize.toNat = sizeofLinearAllocator.toNat := by
    rw [hinv.configured.header]
  have hcurr := LinearAllocator.resize_currDataSize hinv.configured.header
    ((Nat.le_add_right _ _).trans hroom)
  refine ⟨congrArg (fun l : LinearAllocator => { l with
    currDataSize := s.la.grownTotalSize needed - s.la.headerSize.toUInt64 }) h.config, ?_, ?_⟩
  · intro hcovers
    have hsame := h.fixed hcovers
    have hlt : created.dataReservationSize < s.la.currDataSize := by
      rw [hsame]
      exact hcovers
    rw [← h.reservation] at hlt
    exact absurd hlt (UInt64.lt_asymm (UInt64.lt_of_lt_of_le hdata hres))
  · intro _ hcovers
    have hbehind := UInt64.lt_iff_toNat_lt.mp hcovers
    change s.la.dataReservationSize.toNat <
      (s.la.resize (s.la.grownTotalSize needed)).currDataSize.toNat at hbehind
    show s.la.headerSize.toNat + (s.la.resize (s.la.grownTotalSize needed)).currDataSize.toNat =
      s.la.totalReservationSize.toNat
    rw [hheader, hcurr]
    have hend : s.la.totalReservationSize.toNat ≤ (s.la.grownTotalSize needed).toNat := by
      rw [htotal]
      exact roundUp_le (Nat.two_pow_pos k) hdvd (by omega)
    omega

private theorem alloc (h : RewindInv created s.la) (hinv : LinearInv k j reserved s)
    (size : UInt32) :
    RewindInv created (libdLinearAllocatorAlloc s.la false false size).la := by
  have hcase := alloc_cases s.la size
  generalize libdLinearAllocatorAlloc s.la false false size = r at hcase ⊢
  cases hcase with
  | full => exact h
  | grow hdata hres => exact (h.grow hinv hdata hres).moveHead _
  | fit => exact h.moveHead _

private theorem step (h : RewindInv created s.la) (hinv : LinearInv k j reserved s) {op : LinearOp}
    (hstep : LinearSystem.step os s op = some next) : RewindInv created next.la := by
  cases op with
  | alloc size =>
    simp only [LinearSystem.step, Option.some.injEq] at hstep
    subst hstep
    exact h.alloc hinv size
  | setSavepoint =>
    simp only [LinearSystem.step, Option.some.injEq] at hstep
    subst hstep
    exact h
  | restoreSavepoint index =>
    simp only [LinearSystem.step, Option.map_eq_some_iff] at hstep
    obtain ⟨t, -, hnext⟩ := hstep
    subst hnext
    exact h.moveHead _
  | reset =>
    simp only [LinearSystem.step, Option.some.injEq] at hstep
    subst hstep
    exact h.moveHead _

theorem run (h : RewindInv created s.la) (hinv : LinearInv k j reserved s)
    (hmprotect : ∀ length, os.mprotect length = true) {ops : List LinearOp} {final : LinearSystem}
    (hrun : LinearSystem.run os s ops = some final) : RewindInv created final.la := by
  have hboth := PartialRuns.run_invariant
    (fun now => RewindInv created now.la ∧ LinearInv k j reserved now)
    (fun now op next hnow hstep =>
      ⟨hnow.1.step hnow.2 hstep, (hnow.2.step hmprotect hstep).1⟩) ⟨h, hinv⟩ hrun
  exact hboth.1

/-- With one head, both allocators accept the same requests outside the padding, and inside it when
their data covers it. -/
private theorem accepts_iff (hs : RewindInv created s.la) (ht : RewindInv created t.la)
    (hsInv : LinearInv k j reserved s) (htInv : LinearInv k j reserved t)
    (hhead : s.la.headIndex = t.la.headIndex) (size : UInt32) :
    (s.la.Accepts size ↔ t.la.Accepts size) ↔
      (s.la.EndsInPadding size → (s.la.CoversPadding ↔ t.la.CoversPadding)) := by
  have hres : s.la.dataReservationSize = t.la.dataReservationSize :=
    hs.reservation.trans ht.reservation.symm
  by_cases hcreated : created.CoversPadding
  · have hcurr : s.la.currDataSize = t.la.currDataSize :=
      (hs.fixed hcreated).trans (ht.fixed hcreated).symm
    simp only [Accepts, CoversPadding, hcurr, hres, hhead, implies_true]
  · have hsSettled := hs.settled hcreated
    have htSettled := ht.settled hcreated
    have htNeeded := htInv.needed_toNat size
    have hsTotal := hsInv.total
    have htTotal := htInv.total
    have hsHeader := hsInv.configured.header
    have htHeader := htInv.configured.header
    simp only [Settled, CoversPadding, Accepts, EndsInPadding, UInt64.le_iff_toNat_le,
      UInt64.lt_iff_toNat_lt, htNeeded, hsTotal, htTotal, hsHeader, htHeader, hres,
      hhead] at hsSettled htSettled ⊢
    omega

/-- A list of requests is answered alike by both allocators exactly when they agree on the padding
wherever a request ends in it. -/
private theorem allocResults_eq_iff (hs : RewindInv created s.la) (ht : RewindInv created t.la)
    (hsInv : LinearInv k j reserved s) (htInv : LinearInv k j reserved t)
    (hmprotect : ∀ length, os.mprotect length = true)
    (hhead : s.la.headIndex = t.la.headIndex) (sizes : List UInt32) :
    s.la.allocResults sizes = t.la.allocResults sizes ↔ s.la.PaddingAgrees t.la sizes := by
  induction sizes generalizing s t with
  | nil => simp [allocResults, PaddingAgrees]
  | cons size sizes ih =>
    have hanswer := allocAnswer_eq_iff hhead size
    rw [allocResults, allocResults, List.cons_eq_cons, PaddingAgrees,
      ← hs.accepts_iff ht hsInv htInv hhead size, hanswer]
    apply and_congr_right
    intro hagree
    have hsNext := (hsInv.alloc hmprotect size s.live).1
    have htNext := (htInv.alloc hmprotect size t.live).1
    apply ih (hs.alloc hsInv size) (ht.alloc htInv size) hsNext htNext
    have halign : s.la.alignment = t.la.alignment := by
      rw [hs.config, ht.config]
    by_cases haccept : s.la.Accepts size
    · have hleft := (alloc_accepted haccept).2
      have hright := (alloc_accepted (hagree.mp haccept)).2
      show (libdLinearAllocatorAlloc s.la false false size).la.headIndex =
        (libdLinearAllocatorAlloc t.la false false size).la.headIndex
      rw [hleft, hright, hhead, halign]
    · have hleft := (alloc_refused haccept).2
      have hright := (alloc_refused (fun h => haccept (hagree.mpr h))).2
      show (libdLinearAllocatorAlloc s.la false false size).la.headIndex =
        (libdLinearAllocatorAlloc t.la false false size).la.headIndex
      rw [hleft, hright, hhead]

private theorem allocAll (h : RewindInv created s.la) (hinv : LinearInv k j reserved s)
    (hmprotect : ∀ length, os.mprotect length = true) (sizes : List UInt32) :
    ∃ t, t.la = s.la.allocAll sizes ∧ RewindInv created t.la ∧ LinearInv k j reserved t ∧
      s.la.currDataSize.toNat ≤ t.la.currDataSize.toNat := by
  induction sizes generalizing s with
  | nil => exact ⟨s, rfl, h, hinv, le_rfl⟩
  | cons size sizes ih =>
    obtain ⟨hnext, hgrows, -, -⟩ := hinv.alloc hmprotect size s.live
    obtain ⟨t, ht, hrewind, htInv, hle⟩ := ih (h.alloc hinv size) hnext
    exact ⟨t, ht, hrewind, htInv, hgrows.trans hle⟩

end RewindInv

theorem room_of_committed_le {os : Os} {k : Nat} (hpage : os.pageSize.toInt = 2 ^ k)
    {outNull : Bool} {dataReservationSize startingCapacity : UInt32} {alignment : UInt8}
    {la : LinearAllocator} {reserved committed : UInt64}
    (hcreate : libdLinearAllocatorCreate os outNull dataReservationSize startingCapacity alignment =
      { result := .ok, out := some la, calls := [.mmap reserved, .mprotect committed] })
    (hfit : committed ≤ reserved) :
    sizeofLinearAllocator.toNat + dataReservationSize.toNat < 2 ^ 32 := by
  have hcreated := libdLinearAllocatorCreate_createdAs hpage hcreate
  have hpos := Nat.two_pow_pos k
  have hlt := dataReservationSize.toNat_lt
  have hr := hcreated.reserved
  have hcommit := hcreated.committed_ge
  rw [UInt64.le_iff_toNat_le] at hfit
  have hdata := hcreated.page_le
  have hheader : sizeofLinearAllocator.toNat = 32 := rfl
  by_contra hwraps
  have hsmall : (sizeofLinearAllocator.toNat + dataReservationSize.toNat) % 2 ^ 32 < 32 := by
    omega
  have hupper := roundUp_lt_add hpos
    ((sizeofLinearAllocator.toNat + dataReservationSize.toNat) % 2 ^ 32)
  omega

/-- In every reachable state, requests made after a savepoint was restored are answered as they
would have been without the requests in between, and after a reset as by the allocator as it was
created, exactly when no request ends in padding that the data of only one of the two covers. -/
theorem linear_rewind_iff (os : Os) (k : Nat) (hpage : os.pageSize.toInt = 2 ^ k)
    (hmprotect : ∀ length, os.mprotect length = true) (outNull : Bool)
    (dataReservationSize startingCapacity : UInt32) (alignment : UInt8) (la : LinearAllocator)
    (reserved committed : UInt64)
    (hcreate : libdLinearAllocatorCreate os outNull dataReservationSize startingCapacity alignment =
      { result := .ok, out := some la, calls := [.mmap reserved, .mprotect committed] })
    (hfit : committed ≤ reserved) (ops : List LinearOp) (s : LinearSystem)
    (hrun : LinearSystem.run os (LinearSystem.start la committed) ops = some s)
    (between after : List UInt32) :
    (∃ sp, (libdLinearAllocatorSetSavepoint s.la false false).outSp = some sp ∧
      let restored :=
        (libdLinearAllocatorRestoreSavepoint (s.la.allocAll between) false false sp).la
      (restored.allocResults after = s.la.allocResults after ↔
        restored.PaddingAgrees s.la after)) ∧
    (let rewound := (libdLinearAllocatorReset s.la false).la
     rewound.allocResults after = la.allocResults after ↔ rewound.PaddingAgrees la after) := by
  have hroom := room_of_committed_le hpage hcreate hfit
  obtain ⟨j, -, hstart⟩ := LinearInv.create hpage hcreate hroom hfit
  have hinv := hstart.run hmprotect hrun
  have hrewind := (RewindInv.start la).run hstart hmprotect hrun
  refine ⟨⟨_, rfl, ?_⟩, ?_⟩
  · obtain ⟨t, ht, htRewind, htInv, hgrows⟩ := hrewind.allocAll hinv hmprotect between
    have hindex : s.la.headIndex.toUInt32.toUInt64 = s.la.headIndex := by
      apply UInt64.toNat_inj.mp
      rw [UInt32.toNat_toUInt64, UInt64.toNat_toUInt32, Nat.mod_eq_of_lt hinv.head_lt_word]
    have hhead := hinv.head_lt
    have hmoved := htInv.moveHead t.clock t.live (fun _ => true) hinv.head_dvd
      (lt_of_lt_of_le hhead (Nat.add_le_add_right hgrows _))
    intro restored
    have hrestored : restored = { t.la with headIndex := s.la.headIndex } := by
      show { s.la.allocAll between with headIndex := s.la.headIndex.toUInt32.toUInt64 } = _
      rw [hindex, ht]
    rw [hrestored]
    exact (htRewind.moveHead s.la.headIndex).allocResults_eq_iff hrewind hmoved hinv hmprotect rfl
      after
  · have hdvd : 2 ^ j ∣ (0 : UInt64).toNat := Nat.dvd_zero _
    have hmoved := hinv.moveHead s.clock s.live (fun _ => true) hdvd
      (Nat.add_pos_left hinv.data_pos _)
    have hzero : (0 : UInt64) = la.headIndex := by
      rw [(libdLinearAllocatorCreate_ok hcreate).2.2]
    exact (hrewind.moveHead 0).allocResults_eq_iff (RewindInv.start la) hmoved hstart hmprotect
      hzero after

/-- An allocator with 8000 reserved bytes on pages of 4096 bytes. -/
def paddedAllocator : LinearAllocator :=
  { currDataSize := 4096, headIndex := 0, alignment := 8, headerSize := 32, sysPageSize := 4096,
    dataReservationSize := 8000 }

theorem linear_rewind_iff_padded :
    ∃ s sp, LinearSystem.run grantingOs (LinearSystem.start paddedAllocator 8192) [.alloc 24] =
        some s ∧
      (libdLinearAllocatorSetSavepoint s.la false false).outSp = some sp ∧
      let restored :=
        (libdLinearAllocatorRestoreSavepoint (s.la.allocAll [5000]) false false sp).la
      (restored.allocResults [7976] = s.la.allocResults [7976] ↔
        restored.PaddingAgrees s.la [7976]) := by
  obtain ⟨s, hrun⟩ : ∃ s, LinearSystem.run grantingOs
      (LinearSystem.start paddedAllocator 8192) [.alloc 24] = some s := ⟨_, rfl⟩
  obtain ⟨sp, hsp, hiff⟩ := (linear_rewind_iff grantingOs 12 (by decide) (fun _ => rfl) false
    8000 16 8 paddedAllocator 8192 8192 rfl (by decide) _ s hrun [5000] [7976]).1
  exact ⟨s, sp, hrun, hsp, hiff⟩

/-- A request of 8100 bytes is refused by the new allocator. After one request of 5000 bytes it is
accepted, both behind a restored savepoint and behind a reset. -/
theorem linear_rewind_fails :
    libdLinearAllocatorCreate grantingOs false 8000 16 8 =
      { result := .ok, out := some paddedAllocator, calls := [.mmap 8192, .mprotect 8192] } ∧
    (libdLinearAllocatorSetSavepoint paddedAllocator false false).outSp = some { dataIndex := 0 } ∧
    (libdLinearAllocatorRestoreSavepoint (paddedAllocator.allocAll [5000]) false false
        { dataIndex := 0 }).la.allocResults [8100] ≠ paddedAllocator.allocResults [8100] ∧
    (libdLinearAllocatorReset (paddedAllocator.allocAll [5000]) false).la.allocResults [8100] ≠
      paddedAllocator.allocResults [8100] := by
  decide

end Libdane
