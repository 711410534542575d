import Libdane.Utils.DarrayRuns

/-!
# Sizes of the dynamic array

The sum in the loop test, the doubling and the size in bytes are all computed in 64 bits. Which of
them wraps depends on the capacity, the element size and the count together. Creation and
`memcpy_at` size the block soundly exactly when none of them does on the way to the first capacity
that fits.
-/

namespace Libdane

open ByteMachine ByteMachine.Exec

variable {α : Type}

/-- The capacity after `k` doublings, each of which may wrap around. -/
def doubledCapacity (capacity : UInt64) (k : Nat) : UInt64 := UInt64.ofNat (capacity.toNat * 2 ^ k)

@[simp] theorem doubledCapacity_zero (capacity : UInt64) :
    doubledCapacity capacity 0 = capacity := by
  simp [doubledCapacity]

@[simp] private theorem doubledCapacity_double (capacity : UInt64) (k : Nat) :
    doubledCapacity (capacity * 2) k = doubledCapacity capacity (k + 1) := by
  have hpow : capacity.toNat * 2 ^ (k + 1) = capacity.toNat * 2 * 2 ^ k := by
    rw [Nat.pow_succ', Nat.mul_assoc]
  rw [doubledCapacity, doubledCapacity, hpow, UInt64.ofNat_mul, UInt64.ofNat_mul,
    UInt64.ofNat_mul, UInt64.ofNat_toNat, UInt64.ofNat_toNat]
  rfl

/-- The request fits after `k` doublings and not before. -/
structure FirstFit (needed capacity : UInt64) (k : Nat) : Prop where
  fits : needed ≤ doubledCapacity capacity k
  first : ∀ j < k, doubledCapacity capacity j < needed

namespace FirstFit

variable {needed capacity final : UInt64} {k fuel : Nat}

theorem loop (h : FirstFit needed capacity k) (hfuel : k + 1 ≤ fuel) :
    loop (doubleBody needed) fuel capacity = ret (doubledCapacity capacity k) := by
  induction k generalizing capacity fuel with
  | zero =>
    have hfits := h.fits
    rw [doubledCapacity_zero] at hfits ⊢
    exact double_done hfits fuel hfuel
  | succ k ih =>
    have hsmall := h.first 0 (Nat.succ_pos k)
    rw [doubledCapacity_zero] at hsmall
    have hnext : FirstFit needed (capacity * 2) k := by
      constructor
      · rw [doubledCapacity_double]
        exact h.fits
      · intro j hj
        rw [doubledCapacity_double]
        exact h.first (j + 1) (Nat.succ_lt_succ hj)
    rw [← doubledCapacity_double]
    exact double_step (UInt64.not_le.mpr hsmall) (fun _ hrest => ih hnext hrest) fuel hfuel

private theorem of_loop (h : ByteMachine.loop (doubleBody needed) fuel capacity = ret final) :
    ∃ k, FirstFit needed capacity k ∧ final = doubledCapacity capacity k := by
  induction fuel generalizing capacity with
  | zero => cases h
  | succ fuel ih =>
    by_cases hfits : needed ≤ capacity
    · rw [double_done hfits (fuel + 1) (Nat.succ_pos fuel), ret.injEq] at h
      refine ⟨0, ⟨?_, ?_⟩, ?_⟩
      · rwa [doubledCapacity_zero]
      · intro j hj
        cases hj
      · rw [doubledCapacity_zero, h]
    · have hsmall := UInt64.not_le.mp hfits
      have hbody : doubleBody needed capacity = ret (.inl (capacity * 2)) := by
        simp [doubleBody, hsmall]
      rw [loop_next fuel hbody] at h
      obtain ⟨k, hk, hfinal⟩ := ih h
      rw [doubledCapacity_double] at hfinal
      refine ⟨k + 1, ⟨?_, ?_⟩, hfinal⟩
      · rw [← doubledCapacity_double]
        exact hk.fits
      · intro j hj
        cases j with
        | zero => rwa [doubledCapacity_zero]
        | succ j =>
          rw [← doubledCapacity_double]
          exact hk.first j (Nat.lt_of_succ_lt_succ hj)

private theorem loop_endless (h : ∀ k, doubledCapacity capacity k < needed) (fuel : Nat) :
    ByteMachine.loop (doubleBody needed) fuel capacity = outOfFuel := by
  induction fuel generalizing capacity with
  | zero => rfl
  | succ fuel ih =>
    have hsmall := h 0
    rw [doubledCapacity_zero] at hsmall
    have hbody : doubleBody needed capacity = ret (.inl (capacity * 2)) := by
      simp [doubleBody, hsmall]
    rw [loop_next fuel hbody]
    apply ih
    intro k
    rw [doubledCapacity_double]
    exact h (k + 1)

theorem lt_doubledCapacity (h : FirstFit needed capacity (k + 1)) :
    capacity < doubledCapacity capacity (k + 1) := by
  have hsmall := h.first 0 (Nat.succ_pos k)
  rw [doubledCapacity_zero] at hsmall
  exact UInt64.lt_of_lt_of_le hsmall h.fits

end FirstFit

/-- What `memcpy_at` does with the capacity that the loop found. -/
def growInto (sizeofType : UInt64) (realloc : UInt64 → Bool) (arr : LibdDarray α)
    (block : DarrayBlock α) (i : UInt64) (source : List α) (n newCap : UInt64) :
    Exec (DarrayReturn α) :=
  if newCap != arr.capacity then
    if !realloc (newCap * sizeofType) then ret { result := -1, arr := arr }
    else
      let r := block.realloc sizeofType (newCap * sizeofType)
      copyIn sizeofType { arr with dat := some r, capacity := newCap } r i source n
  else copyIn sizeofType arr block i source n

section Call

variable {sizeofType i n newCap : UInt64} {realloc : UInt64 → Bool} {arr : LibdDarray α}
  {block : DarrayBlock α} {source : List α} {r : DarrayReturn α} {k fuel : Nat}

theorem growInto_same (h : newCap = arr.capacity) :
    growInto sizeofType realloc arr block i source n newCap =
      copyIn sizeofType arr block i source n := by
  simp [growInto, h]

theorem growInto_refused (h : newCap ≠ arr.capacity)
    (hrealloc : realloc (newCap * sizeofType) = false) :
    growInto sizeofType realloc arr block i source n newCap = ret { result := -1, arr := arr } := by
  simp [growInto, h, hrealloc]

theorem growInto_moved (h : newCap ≠ arr.capacity)
    (hrealloc : realloc (newCap * sizeofType) = true) :
    growInto sizeofType realloc arr block i source n newCap =
      copyIn sizeofType
        { arr with
          dat := some (block.realloc sizeofType (newCap * sizeofType)), capacity := newCap }
        (block.realloc sizeofType (newCap * sizeofType)) i source n := by
  simp [growInto, h, hrealloc]

private theorem memcpyAt_firstFit (hblock : arr.dat = some block) (hi : i ≤ arr.size)
    (hfit : FirstFit (i + n) arr.capacity k) (hfuel : k + 1 ≤ fuel) :
    libdDarrayMemcpyAt sizeofType realloc arr false i (some source) n fuel =
      growInto sizeofType realloc arr block i source n (doubledCapacity arr.capacity k) := by
  rw [memcpyAt_eq _ _ hblock, if_neg (UInt64.not_lt.mpr hi), hfit.loop hfuel, ret_bind]
  rfl

theorem memcpyAt_ret (hblock : arr.dat = some block) (hi : i ≤ arr.size)
    (h : libdDarrayMemcpyAt sizeofType realloc arr false i (some source) n fuel = ret r) :
    ∃ k, FirstFit (i + n) arr.capacity k ∧
      growInto sizeofType realloc arr block i source n (doubledCapacity arr.capacity k) =
        ret r := by
  rw [memcpyAt_eq _ _ hblock, if_neg (UInt64.not_lt.mpr hi)] at h
  obtain ⟨newCap, hloop, hrest⟩ := eq_ret_of_bind h
  obtain ⟨k, hfit, rfl⟩ := FirstFit.of_loop hloop
  exact ⟨k, hfit, hrest⟩

theorem copyIn_ret (h : copyIn sizeofType arr block i source n = ret r) :
    r.result = 0 ∧ r.arr.capacity = arr.capacity ∧
      i.toNat * sizeofType.toNat + (n * sizeofType).toNat ≤ block.bytes.toNat ∧
      ∃ after, r.arr.dat = some after ∧ after.bytes = block.bytes := by
  obtain ⟨after, hcopy, hret⟩ := eq_ret_of_bind h
  cases hret
  rw [DarrayBlock.memcpy] at hcopy
  split at hcopy
  · rename_i hinside
    cases hcopy
    exact ⟨rfl, rfl, hinside.1, _, rfl, rfl⟩
  · cases hcopy

/-- The two ways a call can return. -/
inductive MemcpyCase (arr : LibdDarray α) (i : UInt64) (dat : Option (List α)) :
    DarrayReturn α → Prop where
  | refused {code : Int} (hcode : code ≠ 0) : MemcpyCase arr i dat { result := code, arr := arr }
  | copied {r : DarrayReturn α} (source : List α) (hdat : dat = some source) (hi : i ≤ arr.size)
      (hzero : r.result = 0) : MemcpyCase arr i dat r

theorem memcpyAt_cases {dat : Option (List α)}
    (h : libdDarrayMemcpyAt sizeofType realloc arr false i dat n fuel = ret r) :
    MemcpyCase arr i dat r := by
  cases dat with
  | none =>
    rw [memcpyAt_null] at h
    cases h
    exact .refused (by decide)
  | some source =>
    cases hdat : arr.dat with
    | none =>
      simp only [libdDarrayMemcpyAt, hdat] at h
      cases h
      exact .refused (by decide)
    | some block =>
      by_cases hi : i ≤ arr.size
      · obtain ⟨k, -, hgrow⟩ := memcpyAt_ret hdat hi h
        by_cases hsame : doubledCapacity arr.capacity k = arr.capacity
        · rw [growInto_same hsame] at hgrow
          exact .copied source rfl hi (copyIn_ret hgrow).1
        · cases hrealloc : realloc (doubledCapacity arr.capacity k * sizeofType) with
          | false =>
            rw [growInto_refused hsame hrealloc] at hgrow
            cases hgrow
            exact .refused (by decide)
          | true =>
            rw [growInto_moved hsame hrealloc] at hgrow
            exact .copied source rfl hi (copyIn_ret hgrow).1
      · rw [memcpyAt_eq _ _ hdat, if_pos (UInt64.not_le.mp hi)] at h
        cases h
        exact .refused (by decide)

/-- The block has room for the capacity in exact arithmetic, and the capacity for the size. -/
structure SoundBlock (sizeofType : UInt64) (arr : LibdDarray α) (block : DarrayBlock α) : Prop where
  dat : arr.dat = some block
  capacity_pos : 1 ≤ arr.capacity
  size_le : arr.size ≤ arr.capacity
  bytes : arr.capacity.toNat * sizeofType.toNat ≤ block.bytes.toNat

def SoundSizes (sizeofType : UInt64) (arr : LibdDarray α) : Prop :=
  ∃ block, SoundBlock sizeofType arr block

/-- The call returns, whatever `realloc` does, and if it succeeds, the block it leaves has room for
its capacity and the capacity for the elements written. -/
def CallSized (sizeofType : UInt64) (arr : LibdDarray α) (i n : UInt64) : Prop :=
  ∀ (realloc : UInt64 → Bool) (source : List α), source.length = n.toNat →
    ∃ r, Converges (libdDarrayMemcpyAt sizeofType realloc arr false i (some source) n) r ∧
      (r.result = 0 → SoundSizes sizeofType r.arr ∧ i.toNat + n.toNat ≤ r.arr.capacity.toNat)

/-- The end of the request is a word, and some doubling covers it. The first one that does is the
capacity itself, or its size in bytes is a word. -/
def Sizable (sizeofType : UInt64) (arr : LibdDarray α) (i n : UInt64) : Prop :=
  i.toNat + n.toNat < 2 ^ 64 ∧ ∃ k, FirstFit (i + n) arr.capacity k ∧
    (k = 0 ∨ (doubledCapacity arr.capacity k).toNat * sizeofType.toNat < 2 ^ 64)

private theorem SoundBlock.copyIn (h : SoundBlock sizeofType arr block)
    (hsizeof : 1 ≤ sizeofType.toNat)
    (hroom : i.toNat + n.toNat ≤ arr.capacity.toNat) (hsource : source.length = n.toNat) :
    ∃ after, copyIn sizeofType arr block i source n = ret { result := 0, arr := after } ∧
      SoundSizes sizeofType after ∧ after.capacity = arr.capacity := by
  have hcapacity := arr.capacity.toNat_lt
  have hbytes := block.bytes.toNat_lt
  have hsize := UInt64.le_iff_toNat_le.mp h.size_le
  have hall : (i.toNat + n.toNat) * sizeofType.toNat ≤ block.bytes.toNat :=
    (Nat.mul_le_mul_right _ hroom).trans h.bytes
  have hcount : n.toNat * sizeofType.toNat ≤ (i.toNat + n.toNat) * sizeofType.toNat :=
    Nat.mul_le_mul_right _ (Nat.le_add_left _ _)
  obtain ⟨after, hcopy, hafter, -⟩ := memcpy_whole hsizeof (by omega) hall hsource
  have hsum : (i + n).toNat = i.toNat + n.toNat := by
    rw [UInt64.toNat_add, Nat.mod_eq_of_lt (by omega)]
  refine ⟨{ arr with
    size := if i + n > arr.size then i + n else arr.size, dat := some after }, ?_, ?_, rfl⟩
  · rw [Libdane.copyIn, hcopy]
    rfl
  · refine ⟨after, rfl, h.capacity_pos, ?_, ?_⟩
    · show (if i + n > arr.size then i + n else arr.size) ≤ arr.capacity
      split
      · rw [UInt64.le_iff_toNat_le, hsum]
        exact hroom
      · exact h.size_le
    · rw [hafter]
      exact h.bytes

private theorem SoundBlock.moved (h : SoundBlock sizeofType arr block)
    (hgrows : arr.capacity ≤ newCap) (hword : newCap.toNat * sizeofType.toNat < 2 ^ 64) :
    SoundBlock sizeofType
      { arr with
        dat := some (block.realloc sizeofType (newCap * sizeofType)), capacity := newCap }
      (block.realloc sizeofType (newCap * sizeofType)) := by
  refine ⟨rfl, UInt64.le_trans h.capacity_pos hgrows, UInt64.le_trans h.size_le hgrows, ?_⟩
  show _ ≤ (newCap * sizeofType).toNat
  rw [UInt64.toNat_mul, Nat.mod_eq_of_lt hword]

private theorem Sizable.callSized (h : Sizable sizeofType arr i n) (hsizeof : 1 ≤ sizeofType.toNat)
    (hsound : SoundSizes sizeofType arr) (hi : i ≤ arr.size) : CallSized sizeofType arr i n := by
  obtain ⟨hlt, k, hfit, hword⟩ := h
  obtain ⟨block, hblock⟩ := hsound
  have hroom := UInt64.le_iff_toNat_le.mp hfit.fits
  rw [UInt64.toNat_add, Nat.mod_eq_of_lt hlt] at hroom
  intro realloc source hsource
  have hrun {r : DarrayReturn α} (h : growInto sizeofType realloc arr block i source n
      (doubledCapacity arr.capacity k) = ret r) :
      Converges (libdDarrayMemcpyAt sizeofType realloc arr false i (some source) n) r :=
    ⟨k + 1, fun fuel hfuel => (memcpyAt_firstFit hblock.dat hi hfit hfuel).trans h⟩
  cases k with
  | zero =>
    rw [doubledCapacity_zero] at hroom hrun
    obtain ⟨after, hcopy, hafter, hcapacity⟩ := hblock.copyIn hsizeof hroom hsource
    refine ⟨{ result := 0, arr := after }, hrun ((growInto_same rfl).trans hcopy), ?_⟩
    intro _
    rw [hcapacity]
    exact ⟨hafter, hroom⟩
  | succ k =>
    have hlarger := hfit.lt_doubledCapacity
    have hnew := UInt64.ne_of_lt hlarger |>.symm
    replace hword := hword.resolve_left (Nat.succ_ne_zero k)
    cases hrealloc : realloc (doubledCapacity arr.capacity (k + 1) * sizeofType) with
    | false =>
      refine ⟨_, hrun (growInto_refused hnew hrealloc), ?_⟩
      intro hzero
      cases hzero
    | true =>
      have hmoved := hblock.moved (UInt64.le_of_lt hlarger) hword
      obtain ⟨after, hcopy, hafter, hcapacity⟩ := hmoved.copyIn hsizeof hroom hsource
      refine ⟨{ result := 0, arr := after },
        hrun ((growInto_moved hnew hrealloc).trans hcopy), ?_⟩
      intro _
      rw [hcapacity]
      exact ⟨hafter, hroom⟩

private theorem CallSized.sizable [Inhabited α] (h : CallSized sizeofType arr i n)
    (hsound : SoundSizes sizeofType arr) (hi : i ≤ arr.size) : Sizable sizeofType arr i n := by
  obtain ⟨block, hblock⟩ := hsound
  obtain ⟨r, ⟨enough, hrun⟩, hafter⟩ :=
    h (fun _ => true) (List.replicate n.toNat default) List.length_replicate
  obtain ⟨k, hfit, hgrow⟩ := memcpyAt_ret hblock.dat hi (hrun enough le_rfl)
  cases k with
  | zero =>
    rw [doubledCapacity_zero, growInto_same rfl] at hgrow
    obtain ⟨hzero, hcapacity, -⟩ := copyIn_ret hgrow
    have hroom := (hafter hzero).2
    have hlt := arr.capacity.toNat_lt
    rw [hcapacity] at hroom
    exact ⟨by omega, 0, hfit, Or.inl rfl⟩
  | succ k =>
    have hnew := UInt64.ne_of_lt hfit.lt_doubledCapacity |>.symm
    rw [growInto_moved hnew rfl] at hgrow
    obtain ⟨hzero, hcapacity, -, after, hdat, hbytes⟩ := copyIn_ret hgrow
    obtain ⟨⟨b, hb⟩, hroom⟩ := hafter hzero
    have hsame := hb.dat
    have hword := hb.bytes
    rw [hdat, Option.some.injEq] at hsame
    rw [hcapacity] at hroom hword
    rw [← hsame, hbytes] at hword
    have hlt := (doubledCapacity arr.capacity (k + 1)).toNat_lt
    refine ⟨hroom.trans_lt hlt, k + 1, hfit, Or.inr ?_⟩
    exact hword.trans_lt (UInt64.toNat_lt _)

end Call

private theorem libdDarrayCreate_soundSizes_iff {sizeofType capacity : UInt64}
    {mallocArr mallocDat : Bool} {arr : LibdDarray α}
    (hcreate : libdDarrayCreate sizeofType mallocArr mallocDat capacity = some arr) :
    SoundSizes sizeofType arr ↔ capacity.toNat * sizeofType.toNat < 2 ^ 64 := by
  constructor
  · intro h
    obtain ⟨block, hblock⟩ := h
    obtain ⟨-, rfl⟩ := libdDarrayCreate_eq_some hcreate
    exact hblock.bytes.trans_lt (UInt64.toNat_lt _)
  · intro hword
    have h := libdDarrayCreate_represents hcreate hword
    obtain ⟨block, hblock, hbytes, -⟩ := h.block
    exact ⟨block, hblock, h.capacity_pos, h.size_le, hbytes.ge⟩

/-- The arrays that creation and calls of `memcpy_at` lead to, none of which wraps a size. -/
inductive SizedRun (sizeofType : UInt64) : LibdDarray α → Prop where
  | create {mallocArr mallocDat : Bool} {capacity : UInt64} {arr : LibdDarray α}
      (hcreate : libdDarrayCreate sizeofType mallocArr mallocDat capacity = some arr)
      (hword : capacity.toNat * sizeofType.toNat < 2 ^ 64) : SizedRun sizeofType arr
  | call {arr : LibdDarray α} {step : DarrayStep α} {r : DarrayReturn α}
      (hrun : SizedRun sizeofType arr)
      (hsource : ∀ source, step.source = some source → source.length = step.count.toNat)
      (hsizable : step.index arr ≤ arr.size → Sizable sizeofType arr (step.index arr) step.count)
      (hcall : Converges (fun fuel => step.run sizeofType arr fuel) r) : SizedRun sizeofType r.arr

private theorem SizedRun.soundSizes {sizeofType : UInt64} (hsizeof : 1 ≤ sizeofType.toNat)
    {arr : LibdDarray α} (h : SizedRun sizeofType arr) : SoundSizes sizeofType arr := by
  induction h with
  | create hcreate hword => exact (libdDarrayCreate_soundSizes_iff hcreate).mpr hword
  | @call arr step r _ hsource hsizable hcall ih =>
    simp only [DarrayStep.run_eq] at hcall
    obtain ⟨enough, hrun⟩ := id hcall
    cases memcpyAt_cases (hrun enough le_rfl) with
    | refused => exact ih
    | copied source hdat hi hzero =>
      rw [hdat] at hcall
      have hsized := (hsizable hi).callSized hsizeof ih hi
      obtain ⟨r', hr', hafter⟩ := hsized step.realloc source (hsource source hdat)
      rw [hcall.unique hr'] at hzero ⊢
      exact (hafter hzero).1

/-- Creation sizes its block soundly exactly when the capacity in bytes is a word, and a call on a
sound array terminates and is sized soundly exactly when no size wraps on the way to the first
capacity that fits. A run that meets both conditions stays sound. -/
theorem darray_sizing_iff [Inhabited α] (sizeofType : UInt64) (hsizeof : 1 ≤ sizeofType.toNat) :
    (∀ (mallocArr mallocDat : Bool) (capacity : UInt64) (arr : LibdDarray α),
      libdDarrayCreate sizeofType mallocArr mallocDat capacity = some arr →
        (SoundSizes sizeofType arr ↔ capacity.toNat * sizeofType.toNat < 2 ^ 64)) ∧
    (∀ (arr : LibdDarray α) (i n : UInt64), SoundSizes sizeofType arr → i ≤ arr.size →
      (CallSized sizeofType arr i n ↔ Sizable sizeofType arr i n)) ∧
    ∀ arr : LibdDarray α, SizedRun sizeofType arr → SoundSizes sizeofType arr := by
  refine ⟨?_, ?_, fun arr hrun => hrun.soundSizes hsizeof⟩
  · intro mallocArr mallocDat capacity arr hcreate
    exact libdDarrayCreate_soundSizes_iff hcreate
  · intro arr i n hsound hi
    exact ⟨fun h => h.sizable hsound hi, fun h => h.callSized hsizeof hsound hi⟩

/-- Three elements of four bytes written to an array of capacity one, after two doublings. -/
theorem darray_sizing_iff_three :
    ∃ arr : LibdDarray UInt32, libdDarrayCreate 4 true true 1 = some arr ∧
      SoundSizes 4 arr ∧ CallSized 4 arr 0 3 := by
  obtain ⟨hcreate, hcall, hrun⟩ := @darray_sizing_iff UInt32 _ 4 (by decide)
  obtain ⟨arr, harr⟩ : ∃ arr : LibdDarray UInt32, libdDarrayCreate 4 true true 1 = some arr :=
    ⟨_, rfl⟩
  have hsound := (hcreate true true 1 arr harr).mpr (by decide)
  have hreached := hrun arr (.create harr (by decide))
  refine ⟨arr, harr, hreached, (hcall arr 0 3 hsound (UInt64.zero_le)).mpr ?_⟩
  cases harr
  exact ⟨by decide, 2, ⟨by decide, by decide⟩, Or.inr (by decide)⟩

private theorem doubledCapacity_one_lt (k : Nat) :
    doubledCapacity 1 k < 9223372036854775809 := by
  rw [UInt64.lt_iff_toNat_lt]
  show (UInt64.ofNat (1 * 2 ^ k)).toNat < 9223372036854775809
  rw [Nat.one_mul, UInt64.toNat_ofNat']
  cases Nat.lt_or_ge k 64 with
  | inl hk =>
    have hpow : 2 ^ k ≤ 2 ^ 63 := Nat.pow_le_pow_right (by decide) (by omega)
    have hmod := Nat.mod_le (2 ^ k) (2 ^ 64)
    omega
  | inr hk =>
    rw [Nat.mod_eq_zero_of_dvd (Nat.pow_dvd_pow 2 hk)]
    decide

/-- The three sizes that wrap: `create` requests 8 bytes for 2^61 + 1 elements of 8 bytes, a count
of 2^63 + 1 keeps the loop running for ever, and a count of 2^64 - 1 behind one element is written
into a block of one byte. -/
theorem darray_sizing_wraps :
    (∃ (arr : LibdDarray UInt64) (block : DarrayBlock UInt64),
      libdDarrayCreate 8 true true 2305843009213693953 = some arr ∧ arr.dat = some block ∧
      block.bytes.toNat = 8 ∧ ¬SoundSizes 8 arr) ∧
    (∃ arr : LibdDarray UInt8, libdDarrayCreate 1 true true 1 = some arr ∧ SoundSizes 1 arr ∧
      ∀ (source : List UInt8) (fuel : Nat), libdDarrayMemcpyAt 1 (fun _ => true) arr false 0
        (some source) 9223372036854775809 fuel = outOfFuel) ∧
    ∃ arr : LibdDarray UInt8, SoundSizes 1 arr ∧ arr.size = 1 ∧
      ∀ (source : List UInt8) (fuel : Nat), libdDarrayMemcpyAt 1 (fun _ => true) arr false 1
        (some source) 18446744073709551615 (fuel + 1) = fault := by
  refine ⟨⟨_, _, rfl, rfl, by decide, ?_⟩, ⟨_, rfl, ?_, ?_⟩,
    { capacity := 1, size := 1, dat := some { bytes := 1, cells := fun _ => some 0 } }, ?_, rfl, ?_⟩
  · intro h
    obtain ⟨block, hblock⟩ := h
    have hbytes := hblock.bytes
    cases hblock.dat
    revert hbytes
    decide
  · exact ⟨_, rfl, by decide, by decide, by decide⟩
  · intro source fuel
    have hloop : loop (doubleBody (0 + 9223372036854775809)) fuel 1 = outOfFuel :=
      FirstFit.loop_endless doubledCapacity_one_lt fuel
    rw [memcpyAt_eq _ _ rfl, if_neg (by decide)]
    show (loop (doubleBody (0 + 9223372036854775809)) fuel 1 >>= _) = outOfFuel
    rw [hloop]
    rfl
  · exact ⟨_, rfl, by decide, by decide, by decide⟩
  · intro source fuel
    rfl

end Libdane
