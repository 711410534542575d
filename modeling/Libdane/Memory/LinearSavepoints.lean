import Libdane.Memory.LinearBounds

/-!
# Nested savepoints of the linear allocator

As long as no invalidated savepoint is restored, every valid savepoint separates the live ranges:
those handed out before it end at or below its index, those handed out after it start at or above.
-/

namespace Libdane

open MaskRounding LinearSystem

/-- Live ranges lie below the head in the order of their birth, newest first, and each valid
savepoint lies between the ranges older and newer than itself. -/
structure SavepointInv (s : LinearSystem) : Prop where
  live_birth : ∀ r ∈ s.live, r.birth < s.clock
  live_order : s.live.Pairwise fun newer older =>
    older.birth < newer.birth ∧ older.stop ≤ newer.offset
  live_stop : ∀ r ∈ s.live, r.stop ≤ s.la.headIndex.toNat
  valid_birth : ∀ t ∈ s.taken, t.valid = true → t.birth < s.clock
  valid_index : ∀ t ∈ s.taken, t.valid = true → t.sp.dataIndex.toNat ≤ s.la.headIndex.toNat
  before : ∀ t ∈ s.taken, t.valid = true → ∀ r ∈ s.live, r.birth < t.birth →
    r.stop ≤ t.sp.dataIndex.toNat
  after : ∀ t ∈ s.taken, t.valid = true → ∀ r ∈ s.live, t.birth ≤ r.birth →
    t.sp.dataIndex.toNat ≤ r.offset
  nested : ∀ t ∈ s.taken, ∀ u ∈ s.taken, t.valid = true → u.valid = true → t.birth ≤ u.birth →
    t.sp.dataIndex.toNat ≤ u.sp.dataIndex.toNat

private theorem orderlyStep_restore {os : Os} {s next : LinearSystem} {index : Nat} :
    orderlyStep os s (.restoreSavepoint index) = some next ↔
      ∃ t, s.taken[index]? = some t ∧ t.valid = true ∧
        LinearSystem.step os s (.restoreSavepoint index) = some next := by
  rw [orderlyStep]
  cases s.taken[index]? with
  | none => simp
  | some t => cases hvalid : t.valid <;> simp [hvalid]

private theorem step_of_orderlyStep {os : Os} {s next : LinearSystem} {op : LinearOp}
    (hstep : orderlyStep os s op = some next) : LinearSystem.step os s op = some next := by
  cases op with
  | restoreSavepoint index =>
    obtain ⟨-, -, -, h⟩ := orderlyStep_restore.mp hstep
    exact h
  | alloc size => exact hstep
  | setSavepoint => exact hstep
  | reset => exact hstep

namespace SavepointInv

variable {os : Os} {k j reserved : Nat} {s next : LinearSystem}

private theorem start (la : LinearAllocator) (committed : UInt64) :
    SavepointInv (LinearSystem.start la committed) := by
  constructor <;> simp [LinearSystem.start]

private theorem push (h : SavepointInv s) {la : LinearAllocator} (accessible size : Nat)
    (hhead : s.la.headIndex.toNat + size ≤ la.headIndex.toNat) :
    SavepointInv
      { s with
        la := la
        accessible := accessible
        clock := s.clock + 1
        live := { birth := s.clock, offset := s.la.headIndex.toNat, size := size } :: s.live } := by
  refine ⟨?_, ?_, ?_, ?_, ?_, ?_, ?_, h.nested⟩
  · intro r hr
    rcases List.mem_cons.mp hr with rfl | hr
    · exact Nat.lt_succ_self _
    · exact Nat.lt_succ_of_lt (h.live_birth r hr)
  · exact List.pairwise_cons.mpr ⟨fun r hr => ⟨h.live_birth r hr, h.live_stop r hr⟩, h.live_order⟩
  · intro r hr
    rcases List.mem_cons.mp hr with rfl | hr
    · exact hhead
    · have hstop := h.live_stop r hr
      show r.stop ≤ la.headIndex.toNat
      omega
  · intro t ht hvalid
    exact Nat.lt_succ_of_lt (h.valid_birth t ht hvalid)
  · intro t ht hvalid
    have hindex := h.valid_index t ht hvalid
    show _ ≤ la.headIndex.toNat
    omega
  · intro t ht hvalid r hr hbirth
    rcases List.mem_cons.mp hr with rfl | hr
    · exact absurd (h.valid_birth t ht hvalid) (Nat.lt_asymm hbirth)
    · exact h.before t ht hvalid r hr hbirth
  · intro t ht hvalid r hr hbirth
    rcases List.mem_cons.mp hr with rfl | hr
    · exact h.valid_index t ht hvalid
    · exact h.after t ht hvalid r hr hbirth

private theorem tick (h : SavepointInv s) : SavepointInv { s with clock := s.clock + 1 } := by
  refine ⟨?_, h.live_order, h.live_stop, ?_, h.valid_index, h.before, h.after, h.nested⟩
  · intro r hr
    exact Nat.lt_succ_of_lt (h.live_birth r hr)
  · intro t ht hvalid
    exact Nat.lt_succ_of_lt (h.valid_birth t ht hvalid)

private theorem setSavepoint (h : SavepointInv s) (hword : s.la.headIndex.toNat < 2 ^ 32) :
    SavepointInv
      { s with
        clock := s.clock + 1
        taken := s.taken ++
          [{ birth := s.clock, sp := { dataIndex := s.la.headIndex.toUInt32 }, valid := true }] } := by
  have hindex : s.la.headIndex.toUInt32.toNat = s.la.headIndex.toNat := by
    rw [UInt64.toNat_toUInt32, Nat.mod_eq_of_lt hword]
  refine ⟨h.tick.live_birth, h.live_order, h.live_stop, ?_, ?_, ?_, ?_, ?_⟩
  · intro t ht hvalid
    rcases List.mem_append.mp ht with ht | ht
    · exact h.tick.valid_birth t ht hvalid
    · rw [List.mem_singleton.mp ht]
      exact Nat.lt_succ_self _
  · intro t ht hvalid
    rcases List.mem_append.mp ht with ht | ht
    · exact h.valid_index t ht hvalid
    · rw [List.mem_singleton.mp ht]
      exact hindex.le
  · intro t ht hvalid r hr hbirth
    rcases List.mem_append.mp ht with ht | ht
    · exact h.before t ht hvalid r hr hbirth
    · rw [List.mem_singleton.mp ht]
      exact (h.live_stop r hr).trans hindex.ge
  · intro t ht hvalid r hr hbirth
    rcases List.mem_append.mp ht with ht | ht
    · exact h.after t ht hvalid r hr hbirth
    · rw [List.mem_singleton.mp ht] at hbirth
      exact absurd (h.live_birth r hr) (Nat.not_lt.mpr hbirth)
  · intro t ht u hu htv huv hbirth
    rcases List.mem_append.mp ht with ht | ht
    · rcases List.mem_append.mp hu with hu | hu
      · exact h.nested t ht u hu htv huv hbirth
      · rw [List.mem_singleton.mp hu]
        exact (h.valid_index t ht htv).trans hindex.ge
    · rw [List.mem_singleton.mp ht] at hbirth ⊢
      rcases List.mem_append.mp hu with hu | hu
      · exact absurd (h.valid_birth u hu huv) (Nat.not_lt.mpr hbirth)
      · rw [List.mem_singleton.mp hu]

private theorem restore (h : SavepointInv s) {t : TakenSavepoint} (ht : t ∈ s.taken)
    (hvalid : t.valid = true) :
    SavepointInv
      { s with
        la := { s.la with headIndex := t.sp.dataIndex.toUInt64 }
        clock := s.clock + 1
        live := s.live.filter fun r => r.birth < t.birth
        taken := s.taken.map fun u => { u with valid := u.valid && u.birth ≤ t.birth } } := by
  have hindex : t.sp.dataIndex.toUInt64.toNat = t.sp.dataIndex.toNat := UInt32.toNat_toUInt64 _
  refine ⟨?_, h.live_order.filter _, ?_, ?_, ?_, ?_, ?_, ?_⟩
  · intro r hr
    exact h.tick.live_birth r (List.mem_of_mem_filter hr)
  · intro r hr
    obtain ⟨hlive, hbirth⟩ := List.mem_filter.mp hr
    show r.stop ≤ t.sp.dataIndex.toUInt64.toNat
    rw [hindex]
    exact h.before t ht hvalid r hlive (by simpa using hbirth)
  · intro v hv hkept
    obtain ⟨u, hu, rfl⟩ := List.mem_map.mp hv
    simp only [Bool.and_eq_true] at hkept
    exact h.tick.valid_birth u hu hkept.1
  · intro v hv hkept
    obtain ⟨u, hu, rfl⟩ := List.mem_map.mp hv
    simp only [Bool.and_eq_true, decide_eq_true_eq] at hkept
    show _ ≤ t.sp.dataIndex.toUInt64.toNat
    rw [hindex]
    exact h.nested u hu t ht hkept.1 hvalid hkept.2
  · intro v hv hkept r hr hbirth
    obtain ⟨u, hu, rfl⟩ := List.mem_map.mp hv
    simp only [Bool.and_eq_true] at hkept
    exact h.before u hu hkept.1 r (List.mem_of_mem_filter hr) hbirth
  · intro v hv hkept r hr hbirth
    obtain ⟨u, hu, rfl⟩ := List.mem_map.mp hv
    simp only [Bool.and_eq_true] at hkept
    exact h.after u hu hkept.1 r (List.mem_of_mem_filter hr) hbirth
  · intro v hv w hw hvk hwk hbirth
    obtain ⟨u, hu, rfl⟩ := List.mem_map.mp hv
    obtain ⟨x, hx, rfl⟩ := List.mem_map.mp hw
    simp only [Bool.and_eq_true] at hvk hwk
    exact h.nested u hu x hx hvk.1 hwk.1 hbirth

private theorem reset (s : LinearSystem) :
    SavepointInv
      { s with
        la := { s.la with headIndex := 0 }
        clock := s.clock + 1
        live := []
        taken := s.taken.map fun u => { u with valid := false } } := by
  constructor <;> simp

private theorem step (h : SavepointInv s) (hinv : LinearInv k j reserved s)
    (hmprotect : ∀ length, os.mprotect length = true) {op : LinearOp}
    (hstep : orderlyStep os s op = some next) : SavepointInv next := by
  cases op with
  | alloc size =>
    obtain ⟨-, -, hno, hout⟩ := hinv.alloc hmprotect size []
    simp only [orderlyStep, LinearSystem.step, Option.some.injEq] at hstep
    subst hstep
    cases hptr : (libdLinearAllocatorAlloc s.la false false size).outPtr with
    | none =>
      have hla := hno (LinearInv.noMemory_of_outPtr hptr)
      simp only [hla]
      exact ⟨h.tick.live_birth, h.live_order, h.live_stop, h.tick.valid_birth, h.valid_index,
        h.before, h.after, h.nested⟩
    | some offset =>
      obtain ⟨rfl, -, hhead⟩ := hout offset hptr
      have hround := le_roundUp (Nat.two_pow_pos j) size.toNat
      exact h.push _ size.toNat (by omega)
  | setSavepoint =>
    simp only [orderlyStep, LinearSystem.step, libdLinearAllocatorSetSavepoint, Bool.or_self,
      Bool.false_eq_true, if_false, Option.map_some, Option.toList_some, Option.some.injEq] at hstep
    subst hstep
    exact h.setSavepoint hinv.head_lt_word
  | restoreSavepoint index =>
    obtain ⟨t, ht, hvalid, hstep⟩ := orderlyStep_restore.mp hstep
    simp only [LinearSystem.step, ht, Option.map_some, Option.some.injEq] at hstep
    subst hstep
    exact h.restore (List.mem_of_getElem? ht) hvalid
  | reset =>
    simp only [orderlyStep, LinearSystem.step, Option.some.injEq] at hstep
    subst hstep
    exact SavepointInv.reset s

private theorem run (h : SavepointInv s) (hinv : LinearInv k j reserved s)
    (hmprotect : ∀ length, os.mprotect length = true) {ops : List LinearOp} {final : LinearSystem}
    (hrun : orderlyRun os s ops = some final) :
    SavepointInv final ∧ LinearInv k j reserved final := by
  apply PartialRuns.run_invariant (fun now => SavepointInv now ∧ LinearInv k j reserved now) ?_
    ⟨h, hinv⟩ hrun
  rintro now op next ⟨hnow, hnowInv⟩ hstep
  exact ⟨hnow.step hnowInv hmprotect hstep,
    (hnowInv.step hmprotect (step_of_orderlyStep hstep)).1⟩

end SavepointInv

/-- In every run that restores no invalidated savepoint, the live ranges are pairwise disjoint and
below the head, a savepoint copies the whole head index, and restoring a valid one gives back
exactly the ranges handed out after it was set. -/
theorem linear_savepoints_disjoint (os : Os) (k : Nat) (hpage : os.pageSize.toInt = 2 ^ k)
    (hmprotect : ∀ length, os.mprotect length = true) (outNull : Bool)
    (dataReservationSize startingCapacity : UInt32) (alignment : UInt8) (la : LinearAllocator)
    (reserved committed : UInt64)
    (hcreate : libdLinearAllocatorCreate os outNull dataReservationSize startingCapacity alignment =
      { result := .ok, out := some la, calls := [.mmap reserved, .mprotect committed] })
    (hroom : sizeofLinearAllocator.toNat + dataReservationSize.toNat < 2 ^ 32)
    (hfit : committed ≤ reserved) (ops : List LinearOp) (s : LinearSystem)
    (hrun : orderlyRun os (LinearSystem.start la committed) ops = some s) :
    s.live.Pairwise (fun newer older => older.birth < newer.birth ∧
      (older.stop ≤ newer.offset ∨ newer.stop ≤ older.offset)) ∧
    (∀ r ∈ s.live, r.stop ≤ s.la.headIndex.toNat) ∧
    (∃ sp, (libdLinearAllocatorSetSavepoint s.la false false).outSp = some sp ∧
      sp.dataIndex.toUInt64 = s.la.headIndex) ∧
    (∀ index t next, s.taken[index]? = some t →
      orderlyStep os s (.restoreSavepoint index) = some next →
        next.live = s.live.filter (fun r => r.birth < t.birth) ∧
        (∀ r ∈ s.live, r.birth < t.birth → r.stop ≤ next.la.headIndex.toNat) ∧
        (∀ r ∈ s.live, t.birth ≤ r.birth → next.la.headIndex.toNat ≤ r.offset)) := by
  obtain ⟨j, -, hstart⟩ := LinearInv.create hpage hcreate hroom hfit
  obtain ⟨hsave, hinv⟩ := (SavepointInv.start la committed).run hstart hmprotect hrun
  refine ⟨hsave.live_order.imp fun h => ⟨h.1, Or.inl h.2⟩, hsave.live_stop, ⟨_, rfl, ?_⟩, ?_⟩
  · apply UInt64.toNat_inj.mp
    rw [UInt32.toNat_toUInt64, UInt64.toNat_toUInt32, Nat.mod_eq_of_lt hinv.head_lt_word]
  · intro index t next ht hstep
    obtain ⟨u, hu, hvalid, hstep⟩ := orderlyStep_restore.mp hstep
    rw [ht, Option.some.injEq] at hu
    subst hu
    simp only [LinearSystem.step, ht, Option.map_some, Option.some.injEq] at hstep
    subst hstep
    have hmem := List.mem_of_getElem? ht
    have hindex : t.sp.dataIndex.toUInt64.toNat = t.sp.dataIndex.toNat := UInt32.toNat_toUInt64 _
    refine ⟨rfl, ?_, ?_⟩
    · intro r hr hbirth
      exact (hsave.before t hmem hvalid r hr hbirth).trans hindex.ge
    · intro r hr hbirth
      exact hindex.le.trans (hsave.after t hmem hvalid r hr hbirth)

theorem linear_savepoints_disjoint_nested :
    ∃ s, orderlyRun grantingOs
        (LinearSystem.start
          { currDataSize := 4096, headIndex := 0, alignment := 8, headerSize := 32,
            sysPageSize := 4096, dataReservationSize := 65536 } 8192)
        [.alloc 5, .setSavepoint, .alloc 9000, .setSavepoint, .alloc 3, .restoreSavepoint 1,
          .restoreSavepoint 0, .alloc 7] = some s ∧
      ∀ r ∈ s.live, r.stop ≤ s.la.headIndex.toNat := by
  obtain ⟨s, hrun⟩ : ∃ s, orderlyRun grantingOs
      (LinearSystem.start
        { currDataSize := 4096, headIndex := 0, alignment := 8, headerSize := 32,
          sysPageSize := 4096, dataReservationSize := 65536 } 8192)
      [.alloc 5, .setSavepoint, .alloc 9000, .setSavepoint, .alloc 3, .restoreSavepoint 1,
        .restoreSavepoint 0, .alloc 7] = some s := ⟨_, rfl⟩
  exact ⟨s, hrun, (linear_savepoints_disjoint grantingOs 12 (by decide) (fun _ => rfl) false 65536
    16 8 _ 69632 8192 rfl (by decide) (by decide) _ s hrun).2.1⟩

end Libdane
