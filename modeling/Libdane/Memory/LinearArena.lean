import Libdane.Memory.LinearRewind

/-!
# The linear allocator as an arena

A client cares about the bytes it reserved, not about pages, the first commitment and growth. What
it should see is a bump allocator over the reservation. It does unless the mapping is larger than
the reservation and the data can grow into the rest.
-/

namespace Libdane

open MaskRounding LinearInv

/-- A bump allocator over a fixed number of bytes. -/
structure Arena where
  capacity : Nat
  alignment : Nat
  head : Nat
  savepoints : List Nat

namespace Arena

def start (capacity alignment : Nat) : Arena :=
  { capacity := capacity, alignment := alignment, head := 0, savepoints := [] }

def step (a : Arena) : LinearOp → Option Arena
  | .alloc size =>
    if a.head + size.toNat ≤ a.capacity then
      some { a with head := a.head + roundUp size.toNat a.alignment }
    else some a
  | .setSavepoint => some { a with savepoints := a.savepoints ++ [a.head] }
  | .restoreSavepoint index => a.savepoints[index]?.map fun head => { a with head := head }
  | .reset => some { a with head := 0 }

/-- The result code, and the offset of a range that is handed out. -/
def answer (a : Arena) : LinearOp → LibdResult × Option Nat
  | .alloc size =>
    if a.head + size.toNat ≤ a.capacity then (.ok, some a.head) else (.noMemory, none)
  | .setSavepoint | .restoreSavepoint _ | .reset => (.ok, none)

end Arena

/-- The result code of the function behind an action, and the offset of a range that is handed
out. -/
def LinearSystem.answer (s : LinearSystem) : LinearOp → LibdResult × Option Nat
  | .alloc size =>
    let r := libdLinearAllocatorAlloc s.la false false size
    (r.result, r.outPtr.map UInt64.toNat)
  | .setSavepoint => ((libdLinearAllocatorSetSavepoint s.la false false).result, none)
  | .restoreSavepoint index =>
    match s.taken[index]? with
    | some t => ((libdLinearAllocatorRestoreSavepoint s.la false false t.sp).result, none)
    | none => (.invalidParameter, none)
  | .reset => ((libdLinearAllocatorReset s.la false).result, none)

/-- What the client of an allocator sees of it. -/
def LinearSystem.arena (s : LinearSystem) (j : Nat) : Arena :=
  { capacity := s.la.dataReservationSize.toNat
    alignment := 2 ^ j
    head := s.la.headIndex.toNat
    savepoints := s.taken.map fun t => t.sp.dataIndex.toNat }

/-- The data cannot grow over the reservation: the mapping ends there, or the data does already. -/
structure TightInv (k j reserved : Nat) (s : LinearSystem) : Prop where
  inv : LinearInv k j reserved s
  tight : reserved = sizeofLinearAllocator.toNat + s.la.dataReservationSize.toNat ∨
    s.la.currDataSize = s.la.dataReservationSize

namespace TightInv

variable {os : Os} {k j reserved : Nat} {s next : LinearSystem}

private theorem data_le (h : TightInv k j reserved s) :
    s.la.currDataSize.toNat ≤ s.la.dataReservationSize.toNat := by
  cases h.tight with
  | inl hmapping =>
    have hdata := h.inv.data_le.trans h.inv.accessible_le
    omega
  | inr hsame => rw [hsame]

private theorem accepts_iff (h : TightInv k j reserved s) (size : UInt32) :
    s.la.Accepts size ↔
      s.la.headIndex.toNat + size.toNat ≤ s.la.dataReservationSize.toNat := by
  have hneeded := h.inv.needed_toNat size
  have hdata := h.data_le
  rw [LinearAllocator.Accepts, UInt64.le_iff_toNat_le, UInt64.le_iff_toNat_le, hneeded]
  omega

private theorem alloc_tight (h : TightInv k j reserved s) (size : UInt32) :
    let r := libdLinearAllocatorAlloc s.la false false size
    r.la.dataReservationSize = s.la.dataReservationSize ∧
      (reserved = sizeofLinearAllocator.toNat + s.la.dataReservationSize.toNat ∨
        r.la.currDataSize = s.la.dataReservationSize) := by
  intro r
  have hcase := alloc_cases s.la size
  change AllocCase s.la size r at hcase
  generalize r = r' at hcase
  cases hcase with
  | full => exact ⟨rfl, h.tight⟩
  | fit => exact ⟨rfl, h.tight⟩
  | grow hdata hres =>
    cases h.tight with
    | inl hmapping => exact ⟨rfl, Or.inl hmapping⟩
    | inr hsame =>
      rw [hsame] at hdata
      exact absurd hdata (UInt64.not_lt.mpr hres)

private theorem step_alloc (h : TightInv k j reserved s)
    (hmprotect : ∀ length, os.mprotect length = true) (size : UInt32) :
    ∃ next, LinearSystem.step os s (.alloc size) = some next ∧ TightInv k j reserved next ∧
      (s.arena j).step (.alloc size) = some (next.arena j) ∧
      s.answer (.alloc size) = (s.arena j).answer (.alloc size) := by
  obtain ⟨hres, htight⟩ := h.alloc_tight size
  refine ⟨_, rfl, ⟨(h.inv.alloc hmprotect size _).1, ?_⟩, ?_⟩
  · rw [← hres] at htight
    exact htight
  · obtain ⟨-, -, -, hout⟩ := h.inv.alloc hmprotect size []
    by_cases haccept : s.la.Accepts size
    · have hanswer := (LinearAllocator.alloc_accepted haccept).1
      rw [LinearAllocator.allocAnswer, Prod.mk.injEq] at hanswer
      obtain ⟨-, -, hhead⟩ := hout _ hanswer.2
      have hfits := (h.accepts_iff size).mp haccept
      constructor
      · simp [Arena.step, LinearSystem.arena, hfits, hres, hhead]
      · simp [LinearSystem.answer, Arena.answer, LinearSystem.arena, hfits, hanswer]
    · obtain ⟨hanswer, hsame⟩ := LinearAllocator.alloc_refused haccept
      rw [LinearAllocator.allocAnswer, Prod.mk.injEq] at hanswer
      have hfull := mt (h.accepts_iff size).mpr haccept
      constructor
      · simp [Arena.step, LinearSystem.arena, hfull, hsame]
      · simp [LinearSystem.answer, Arena.answer, LinearSystem.arena, hfull, hanswer]

private theorem step (h : TightInv k j reserved s) (hmprotect : ∀ length, os.mprotect length = true)
    (op : LinearOp) :
    Option.Rel (fun next a => TightInv k j reserved next ∧ a = next.arena j)
      (LinearSystem.step os s op) ((s.arena j).step op) := by
  cases op with
  | alloc size =>
    obtain ⟨next, hnext, htight, harena, -⟩ := h.step_alloc hmprotect size
    rw [hnext, harena]
    exact .some ⟨htight, rfl⟩
  | setSavepoint =>
    have hindex : s.la.headIndex.toUInt32.toNat = s.la.headIndex.toNat := by
      rw [UInt64.toNat_toUInt32, Nat.mod_eq_of_lt h.inv.head_lt_word]
    apply Option.Rel.some
    constructor
    · exact ⟨h.inv.setSavepoint _ _ _, h.tight⟩
    · simp [LinearSystem.arena, libdLinearAllocatorSetSavepoint, hindex]
  | restoreSavepoint index =>
    cases htaken : s.taken[index]? with
    | none =>
      simp [LinearSystem.step, Arena.step, LinearSystem.arena, htaken]
    | some t =>
      have hmem := List.mem_of_getElem? htaken
      simp only [LinearSystem.step, Arena.step, LinearSystem.arena, htaken, List.getElem?_map,
        Option.map_some]
      apply Option.Rel.some
      constructor
      · refine ⟨h.inv.moveHead _ _ _ ?_ ?_, h.tight⟩
        · rw [UInt32.toNat_toUInt64]
          exact h.inv.taken_dvd t hmem
        · rw [UInt32.toNat_toUInt64]
          exact h.inv.taken_lt t hmem
      · simp [libdLinearAllocatorRestoreSavepoint, Function.comp_def]
  | reset =>
    apply Option.Rel.some
    constructor
    · exact ⟨h.inv.moveHead _ _ _ (Nat.dvd_zero _) (Nat.add_pos_left h.inv.data_pos _), h.tight⟩
    · simp [LinearSystem.arena, libdLinearAllocatorReset, Function.comp_def]

private theorem answer (h : TightInv k j reserved s)
    (hmprotect : ∀ length, os.mprotect length = true)
    {op : LinearOp} (hallowed : (LinearSystem.step os s op).isSome) :
    s.answer op = (s.arena j).answer op := by
  cases op with
  | alloc size =>
    obtain ⟨-, -, -, -, hanswer⟩ := h.step_alloc hmprotect size
    exact hanswer
  | setSavepoint => rfl
  | restoreSavepoint index =>
    cases htaken : s.taken[index]? with
    | none => simp [LinearSystem.step, htaken] at hallowed
    | some t => simp [LinearSystem.answer, Arena.answer, htaken, libdLinearAllocatorRestoreSavepoint]
  | reset => rfl

end TightInv

private theorem LinearInv.reserved_eq {k j reserved : Nat} {s : LinearSystem}
    (h : LinearInv k j reserved s)
    (hdvd : 2 ^ k ∣ sizeofLinearAllocator.toNat + s.la.dataReservationSize.toNat) :
    reserved = sizeofLinearAllocator.toNat + s.la.dataReservationSize.toNat := by
  rw [← h.total, h.configured.total]
  apply Nat.le_antisymm
  · exact roundUp_le (Nat.two_pow_pos k) hdvd le_rfl
  · exact le_roundUp (Nat.two_pow_pos k) _

section Beyond

variable {os : Os} {k j reserved : Nat} {s : LinearSystem} {a : Arena} {size : UInt32}

private theorem Arena.isSome_step_alloc (a : Arena) (size : UInt32) :
    (a.step (.alloc size)).isSome := by
  rw [step]
  split
  · rfl
  · rfl

private theorem answer_beyond (h : LinearInv k j reserved s) (hhead : s.la.headIndex = 0)
    (hcovers : s.la.CoversPadding) (hsize : size.toNat = s.la.dataReservationSize.toNat + 1)
    (hcapacity : a.capacity = s.la.dataReservationSize.toNat) :
    s.answer (.alloc size) ≠ a.answer (.alloc size) := by
  have hneeded := h.needed_toNat size
  have haccept : s.la.Accepts size := by
    left
    rw [LinearAllocator.CoversPadding, UInt64.lt_iff_toNat_lt] at hcovers
    rw [UInt64.le_iff_toNat_le, hneeded, hhead]
    simp
    omega
  have hanswer := (LinearAllocator.alloc_accepted haccept).1
  rw [LinearAllocator.allocAnswer, Prod.mk.injEq] at hanswer
  have hfull : ¬a.head + size.toNat ≤ a.capacity := by omega
  simp [LinearSystem.answer, Arena.answer, hanswer, hfull]

private theorem grown_beyond (h : LinearInv k j reserved s) (hhead : s.la.headIndex = 0)
    (hsize : size.toNat = s.la.dataReservationSize.toNat)
    (hsmall : s.la.currDataSize < s.la.dataReservationSize)
    (hdvd : ¬2 ^ k ∣ sizeofLinearAllocator.toNat + s.la.dataReservationSize.toNat) :
    (libdLinearAllocatorAlloc s.la false false size).la.CoversPadding := by
  have hneeded : s.la.headIndex + size.toUInt64 = s.la.dataReservationSize := by
    apply UInt64.toNat_inj.mp
    rw [h.needed_toNat size, hhead, hsize]
    exact Nat.zero_add _
  have hcase := alloc_cases s.la size
  generalize libdLinearAllocatorAlloc s.la false false size = r at hcase ⊢
  rw [← hneeded] at hsmall
  cases hcase with
  | full _ hres =>
    rw [hneeded] at hres
    exact absurd hres (UInt64.lt_irrefl _)
  | fit hfit => exact absurd hsmall (UInt64.not_lt.mpr hfit)
  | grow _ hres =>
    have hdata := h.data_bound
    obtain ⟨hroom, -, hpage⟩ := h.configured.grown h.data_pos (by omega) hres
    have hcurr := LinearAllocator.resize_currDataSize h.configured.header
      ((Nat.le_add_right _ _).trans hroom)
    rw [hneeded] at hroom hpage hcurr ⊢
    rw [← hcurr] at hroom hpage
    show s.la.dataReservationSize < (s.la.resize _).currDataSize
    rw [UInt64.lt_iff_toNat_lt]
    apply Nat.lt_of_le_of_ne
    · omega
    · intro hsame
      rw [← hsame] at hpage
      exact hdvd hpage

end Beyond

/-- An allocator answers every run of requests, savepoints and resets as an arena of the bytes that
were reserved, whatever the page size, the starting capacity and the growth, exactly when header and
reservation fill their pages or the starting capacity is the reservation. -/
theorem linear_arena_iff (os : Os) (k : Nat) (hpage : os.pageSize.toInt = 2 ^ k)
    (hmprotect : ∀ length, os.mprotect length = true) (outNull : Bool)
    (dataReservationSize startingCapacity : UInt32) (alignment : UInt8) (la : LinearAllocator)
    (reserved committed : UInt64)
    (hcreate : libdLinearAllocatorCreate os outNull dataReservationSize startingCapacity alignment =
      { result := .ok, out := some la, calls := [.mmap reserved, .mprotect committed] })
    (hfit : committed ≤ reserved) :
    (∀ ops, PartialRuns.answers (LinearSystem.step os) LinearSystem.answer
        (LinearSystem.start la committed) ops =
      PartialRuns.answers Arena.step Arena.answer
        (Arena.start dataReservationSize.toNat alignment.toNat) ops) ↔
      (2 ^ k ∣ sizeofLinearAllocator.toNat + dataReservationSize.toNat ∨
        roundUp startingCapacity.toNat (2 ^ k) = dataReservationSize.toNat) := by
  have hroom := room_of_committed_le hpage hcreate hfit
  have hcreated := libdLinearAllocatorCreate_createdAs hpage hcreate
  obtain ⟨j, halign, hstart⟩ := LinearInv.create hpage hcreate hroom hfit
  have hres := hcreated.reservation
  have hheader : sizeofLinearAllocator.toNat = 32 := rfl
  rw [← hcreated.data, ← hres]
  constructor
  · intro hsame
    have hsize : (dataReservationSize + 1).toNat = la.dataReservationSize.toNat + 1 := by
      rw [UInt32.toNat_add, hres, Nat.mod_eq_of_lt]
      · rfl
      · show dataReservationSize.toNat + 1 < _
        omega
    by_contra hcond
    rw [not_or] at hcond
    cases Nat.lt_or_gt_of_ne hcond.2 with
    | inr hlarge =>
      -- the first commitment is already larger than the reservation
      have hcovers : la.CoversPadding := UInt64.lt_iff_toNat_lt.mpr hlarge
      have hfirst := PartialRuns.answer_eq_of_answers hsame [] rfl rfl
        (a := .alloc (dataReservationSize + 1)) rfl (Arena.isSome_step_alloc _ _)
      exact answer_beyond hstart hcreated.head hcovers hsize rfl hfirst
    | inl hsmall =>
      -- growth up to the reservation passes it, and a reset leaves the data as it is
      let before : List LinearOp := [.alloc dataReservationSize, .reset]
      have hgrown := grown_beyond hstart hcreated.head hres.symm
        (UInt64.lt_iff_toNat_lt.mpr hsmall) hcond.1
      have harena : ∃ a : Arena, PartialRuns.run Arena.step
          (Arena.start la.dataReservationSize.toNat alignment.toNat) before = some a ∧
          a.capacity = la.dataReservationSize.toNat := by
        simp [before, Arena.step, Arena.start, hres]
      obtain ⟨a, ha, hcapacity⟩ := harena
      have hrun : ∃ mid, PartialRuns.run (LinearSystem.step os) (LinearSystem.start la committed)
          before = some mid ∧
          mid.la = { (libdLinearAllocatorAlloc la false false dataReservationSize).la with
            headIndex := 0 } := ⟨_, rfl, rfl⟩
      obtain ⟨mid, hmid, hla⟩ := hrun
      have hkept := ((RewindInv.start la).run hstart hmprotect hmid).reservation
      have hlast := PartialRuns.answer_eq_of_answers hsame before hmid ha
        (a := .alloc (dataReservationSize + 1)) rfl (Arena.isSome_step_alloc _ _)
      refine answer_beyond (hstart.run hmprotect hmid) ?_ ?_ ?_ ?_ hlast
      · rw [hla]
      · rw [hla]
        exact hgrown
      · rw [hkept, hsize]
      · rw [hkept, hcapacity]
  · intro hcond
    have htight : TightInv k j reserved.toNat (LinearSystem.start la committed) := by
      refine ⟨hstart, ?_⟩
      cases hcond with
      | inl hdvd => exact Or.inl (hstart.reserved_eq hdvd)
      | inr hdata => exact Or.inr (UInt64.toNat_inj.mp hdata)
    have harena : Arena.start la.dataReservationSize.toNat alignment.toNat =
        (LinearSystem.start la committed).arena j := by
      simp [Arena.start, LinearSystem.arena, LinearSystem.start, halign, hcreated.head]
    rw [harena]
    apply PartialRuns.answers_simulates
      (fun s a => TightInv k j reserved.toNat s ∧ a = s.arena j) _ _ ⟨htight, rfl⟩
    · intro s a op h
      rw [h.2]
      exact h.1.step hmprotect op
    · intro s a op h hallowed
      rw [h.2]
      exact h.1.answer hmprotect hallowed

/-- A reservation that fills two pages together with the header. -/
theorem linear_arena_iff_two_pages :
    ∃ la : LinearAllocator,
      (∀ ops, PartialRuns.answers (LinearSystem.step grantingOs) LinearSystem.answer
          (LinearSystem.start la 8192) ops =
        PartialRuns.answers Arena.step Arena.answer
          (Arena.start (8160 : UInt32).toNat (8 : UInt8).toNat) ops) ∧
      2 ^ 12 ∣ sizeofLinearAllocator.toNat + (8160 : UInt32).toNat := by
  obtain ⟨la, hla⟩ : ∃ la, libdLinearAllocatorCreate grantingOs false 8160 16 8 =
      { result := .ok, out := some la, calls := [.mmap 8192, .mprotect 8192] } := ⟨_, rfl⟩
  have hdvd : 2 ^ 12 ∣ sizeofLinearAllocator.toNat + (8160 : UInt32).toNat := by decide
  exact ⟨la, (linear_arena_iff grantingOs 12 (by decide) (fun _ => rfl) false 8160 16 8 la 8192
    8192 hla (by decide)).mpr (Or.inl hdvd), hdvd⟩

end Libdane
