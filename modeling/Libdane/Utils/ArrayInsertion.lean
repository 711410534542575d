import Libdane.Utils.ArraySizing

/-!
# Inserting into the dynamic array

`insert_at` hands its element to `memcpy_at`, which writes over what stands at the index. Only at
the end of the array is that an insertion.
-/

namespace Libdane

open ByteMachine ByteMachine.Exec Splice

variable {α : Type}

def libdDarrayInsertAt (sizeofType : UInt64) (realloc : UInt64 → Bool) (arr : LibdDarray α)
    (arrNull : Bool) (i : UInt64) (dat : Option (List α)) (fuel : Nat) : Exec (DarrayReturn α) :=
  libdDarrayMemcpyAt sizeofType realloc arr arrNull i dat 1 fuel

/-- Whenever the call returns zero the element stands at the index and the elements from there on
behind it, and whenever it returns another code nothing has changed. -/
def Inserts (sizeofType : UInt64) (realloc : UInt64 → Bool) (arr : LibdDarray α)
    (contents : List α) (i : UInt64) (x : α) : Prop :=
  ∀ r, Converges (libdDarrayInsertAt sizeofType realloc arr false i (some [x])) r →
    (r.result = 0 →
      Represents sizeofType r.arr (contents.take i.toNat ++ [x] ++ contents.drop i.toNat)) ∧
    (r.result ≠ 0 → r.arr = arr)

section Insert

variable {sizeofType i newCap : UInt64} {realloc : UInt64 → Bool} {arr : LibdDarray α}
  {block : DarrayBlock α} {contents : List α} {x : α} {r : DarrayReturn α}

private theorem Represents.word (h : Represents sizeofType arr contents) :
    arr.capacity.toNat * sizeofType.toNat < 2 ^ 64 := by
  obtain ⟨block, -, hbytes, -⟩ := h.block
  rw [← hbytes]
  exact block.bytes.toNat_lt

private theorem insertAt_overwrites (hsizeof : 1 ≤ sizeofType.toNat)
    (h : Represents sizeofType arr contents) (hi : i < arr.size) :
    ∃ after, Converges (libdDarrayInsertAt sizeofType realloc arr false i (some [x]))
        { result := 0, arr := after } ∧
      Represents sizeofType after (splice contents i.toNat [x]) := by
  have hlt := UInt64.lt_iff_toNat_lt.mp hi
  have hle := UInt64.le_iff_toNat_le.mp h.size_le
  have hcapacity := arr.capacity.toNat_lt
  have hsum : (i + 1).toNat = i.toNat + 1 := by
    rw [UInt64.toNat_add, Nat.mod_eq_of_lt]
    · rfl
    · show i.toNat + 1 < _
      omega
  have hneeded : i + 1 ≤ arr.capacity := by
    rw [UInt64.le_iff_toNat_le, hsum]
    omega
  have hcap : FindsCapacity sizeofType arr i 1 arr.capacity := by
    constructor
    case loop => exact ⟨1, double_done hneeded⟩
    case room =>
      show i.toNat + 1 ≤ _
      omega
    case grows => exact UInt64.le_refl _
    case word => exact h.word
  have hone : [x].length = (1 : UInt64).toNat := rfl
  obtain ⟨after, hafter, hrep, -⟩ :=
    hcap.writes hsizeof h (UInt64.le_of_lt hi) hone (Or.inl rfl)
  exact ⟨after, hafter, hrep⟩

/-- One element more than the capacity holds is found by the first doubling, unless the elements are
single bytes. If the new size in bytes wraps, the copy does not fit into the block. -/
private theorem word_of_inside (h : Represents sizeofType arr contents) {k : Nat}
    (hfit : FirstFit (i + 1) arr.capacity (k + 1)) (hi : i ≤ arr.size)
    (hinside : i.toNat * sizeofType.toNat + sizeofType.toNat ≤
      (doubledCapacity arr.capacity (k + 1) * sizeofType).toNat) :
    (doubledCapacity arr.capacity (k + 1)).toNat * sizeofType.toNat < 2 ^ 64 := by
  have hword := h.word
  have hpos := UInt64.le_iff_toNat_le.mp h.capacity_pos
  have hle := UInt64.le_iff_toNat_le.mp (UInt64.le_trans hi h.size_le)
  have hgrows := UInt64.lt_iff_toNat_lt.mp (hfit.first 0 (Nat.succ_pos k))
  have hsum : (i + 1).toNat ≤ i.toNat + 1 := by
    rw [UInt64.toNat_add]
    exact Nat.mod_le _ _
  rw [doubledCapacity_zero] at hgrows
  change 1 ≤ _ at hpos
  have hfull : i.toNat = arr.capacity.toNat := by omega
  cases Nat.lt_or_ge sizeofType.toNat 2 with
  | inl hsmall =>
    have hlt := (doubledCapacity arr.capacity (k + 1)).toNat_lt
    have hone := Nat.mul_le_mul_left (doubledCapacity arr.capacity (k + 1)).toNat
      (Nat.le_of_lt_succ hsmall)
    omega
  | inr hlarge =>
    have htwice := Nat.mul_le_mul_left arr.capacity.toNat hlarge
    have hdouble : (doubledCapacity arr.capacity 1).toNat = 2 * arr.capacity.toNat := by
      rw [doubledCapacity, UInt64.toNat_ofNat', Nat.mod_eq_of_lt (by omega)]
      omega
    cases k with
    | succ k =>
      have hmore := UInt64.lt_iff_toNat_lt.mp (hfit.first 1 (by omega))
      omega
    | zero =>
      rw [UInt64.toNat_mul, hdouble, hfull, Nat.mul_assoc] at hinside
      rw [hdouble, Nat.mul_assoc]
      by_contra hwraps
      have hmod : (2 * (arr.capacity.toNat * sizeofType.toNat)) % 2 ^ 64 =
          2 * (arr.capacity.toNat * sizeofType.toNat) - 2 ^ 64 := by omega
      omega

/-- At the end an insertion that returns zero has found room. -/
private theorem findsCapacity_of_zero (hsizeof : 1 ≤ sizeofType.toNat)
    (h : Represents sizeofType arr contents) (hi : i ≤ arr.size)
    (hr : Converges (libdDarrayInsertAt sizeofType realloc arr false i (some [x])) r)
    (hzero : r.result = 0) :
    ∃ newCap, FindsCapacity sizeofType arr i 1 newCap ∧
      (newCap = arr.capacity ∨ realloc (newCap * sizeofType) = true) := by
  obtain ⟨block, hblock, hbytes, -⟩ := h.block
  obtain ⟨enough, hrun⟩ := hr
  obtain ⟨k, hfit, hgrow⟩ := memcpyAt_ret hblock hi (hrun enough le_rfl)
  have hone : ((1 : UInt64) * sizeofType).toNat = sizeofType.toNat := by rw [UInt64.one_mul]
  have hloop : ∃ enough, ∀ fuel, enough ≤ fuel →
      loop (doubleBody (i + 1)) fuel arr.capacity = ret (doubledCapacity arr.capacity k) :=
    ⟨k + 1, fun fuel hfuel => hfit.loop hfuel⟩
  have hroom {bytes : UInt64}
      (hinside : i.toNat * sizeofType.toNat + sizeofType.toNat ≤ bytes.toNat) :
      i.toNat + 1 ≤ (doubledCapacity arr.capacity k).toNat := by
    have hlt := bytes.toNat_lt
    have hindex := Nat.mul_le_mul_left i.toNat hsizeof
    have hfits := UInt64.le_iff_toNat_le.mp hfit.fits
    rw [UInt64.toNat_add, Nat.mod_eq_of_lt] at hfits
    · exact hfits
    · show i.toNat + 1 < _
      omega
  refine ⟨doubledCapacity arr.capacity k, ?_⟩
  cases k with
  | zero =>
    rw [doubledCapacity_zero] at hgrow hloop hroom ⊢
    rw [growInto_same rfl] at hgrow
    obtain ⟨-, -, hinside, -⟩ := copyIn_ret hgrow
    rw [hone] at hinside
    exact ⟨⟨hloop, hroom hinside, UInt64.le_refl _, h.word⟩, Or.inl rfl⟩
  | succ k =>
    have hlarger := hfit.lt_doubledCapacity
    have hnew := UInt64.ne_of_lt hlarger |>.symm
    cases hrealloc : realloc (doubledCapacity arr.capacity (k + 1) * sizeofType) with
    | false =>
      rw [growInto_refused hnew hrealloc] at hgrow
      cases hgrow
      cases hzero
    | true =>
      rw [growInto_moved hnew hrealloc] at hgrow
      obtain ⟨-, -, hinside, -⟩ := copyIn_ret hgrow
      rw [hone] at hinside
      have hword := word_of_inside h hfit hi hinside
      exact ⟨⟨hloop, hroom hinside, UInt64.le_of_lt hlarger, hword⟩, Or.inr rfl⟩

private theorem insertAt_splices (hsizeof : 1 ≤ sizeofType.toNat)
    (h : Represents sizeofType arr contents) (hi : i ≤ arr.size)
    (hr : Converges (libdDarrayInsertAt sizeofType realloc arr false i (some [x])) r)
    (hzero : r.result = 0) : Represents sizeofType r.arr (splice contents i.toNat [x]) := by
  obtain ⟨newCap, hcap, hgranted⟩ := findsCapacity_of_zero hsizeof h hi hr hzero
  have hsource : [x].length = (1 : UInt64).toNat := rfl
  obtain ⟨after, hafter, hrep, -⟩ := hcap.writes hsizeof h hi hsource hgranted
  rw [hr.unique hafter]
  exact hrep

end Insert

/-- `insert_at` inserts exactly at the end of the array. -/
theorem insertAt_inserts_iff (sizeofType : UInt64) (hsizeof : 1 ≤ sizeofType.toNat)
    (realloc : UInt64 → Bool) (arr : LibdDarray α) (contents : List α)
    (h : Represents sizeofType arr contents) (i : UInt64) (hi : i ≤ arr.size) (x : α) :
    Inserts sizeofType realloc arr contents i x ↔ i.toNat = contents.length := by
  have hle := UInt64.le_iff_toNat_le.mp hi
  have hsize := h.size
  constructor
  · intro hinserts
    by_contra hne
    have hlt : i < arr.size := by
      rw [UInt64.lt_iff_toNat_lt]
      omega
    obtain ⟨after, hafter, hrep⟩ := @insertAt_overwrites _ _ _ realloc _ _ x hsizeof h hlt
    -- an overwritten array has kept its size
    have hkept := hrep.size
    have hinserted := ((hinserts _ hafter).1 rfl).size
    rw [length_splice (by omega), List.length_singleton] at hkept
    simp only [List.length_append, List.length_take, List.length_drop, List.length_singleton]
      at hinserted
    omega
  · intro hend r hr
    constructor
    · intro hzero
      have hrep := insertAt_splices hsizeof h hi hr hzero
      rw [hend, splice_length] at hrep
      rw [hend, List.take_length, List.drop_length, List.append_nil]
      exact hrep
    · intro hcode
      obtain ⟨enough, hrun⟩ := hr
      cases memcpyAt_cases (hrun enough le_rfl) with
      | refused => rfl
      | copied source hdat hi hzero => exact absurd hzero hcode

/-- A full array of three elements, with a fourth one inserted at its end. -/
theorem insertAt_inserts_iff_end :
    ∃ (arr : LibdDarray UInt32) (r : DarrayReturn UInt32), Represents 4 arr [1, 2, 3] ∧
      Converges (libdDarrayInsertAt 4 (fun _ => true) arr false 3 (some [9])) r ∧ r.result = 0 ∧
      arr.capacity < r.arr.capacity ∧ Represents 4 r.arr [1, 2, 3, 9] := by
  let arr : LibdDarray UInt32 :=
    { capacity := 3, size := 3, dat := some { bytes := 12, cells := fun j => [1, 2, 3][j]? } }
  have hrep : Represents 4 arr [1, 2, 3] :=
    ⟨by decide, by decide, rfl, _, rfl, by decide, fun _ _ => rfl⟩
  obtain ⟨r, hr, hzero, hgrown⟩ : ∃ r : DarrayReturn UInt32,
      Converges (libdDarrayInsertAt 4 (fun _ => true) arr false 3 (some [9])) r ∧
        r.result = 0 ∧ arr.capacity < r.arr.capacity := by
    obtain ⟨r, hr, hafter⟩ : ∃ r, libdDarrayInsertAt 4 (fun _ => true) arr false 3 (some [9]) 2 =
        ret r ∧ r.result = 0 ∧ arr.capacity < r.arr.capacity := ⟨_, rfl, rfl, by decide⟩
    refine ⟨r, ⟨2, ?_⟩, hafter⟩
    intro fuel hfuel
    obtain ⟨rest, rfl⟩ := Nat.exists_eq_add_of_le' hfuel
    exact hr
  have hinserts := (insertAt_inserts_iff 4 (by decide) (fun _ => true) _ [1, 2, 3] hrep 3
    (by decide) 9).mpr rfl
  exact ⟨_, r, hrep, hr, hzero, hgrown, (hinserts r hr).1 hzero⟩

/-- An insertion of 9 at index 1 of [1, 2, 3] returns zero, and the array is [1, 9, 3]. -/
theorem insertAt_overwrites_element :
    ∃ (arr : LibdDarray UInt32) (r : DarrayReturn UInt32), Represents 4 arr [1, 2, 3] ∧
      (1 : UInt64) ≤ arr.size ∧
      Converges (libdDarrayInsertAt 4 (fun _ => true) arr false 1 (some [9])) r ∧ r.result = 0 ∧
      Represents 4 r.arr [1, 9, 3] ∧
      ¬Represents 4 r.arr ([1, 2, 3].take 1 ++ [9] ++ [1, 2, 3].drop 1) := by
  have hrep : Represents 4
      { capacity := 4, size := 3,
        dat := some { bytes := 16, cells := fun j => [1, 2, 3][j]? } : LibdDarray UInt32 }
      [1, 2, 3] := ⟨by decide, by decide, rfl, _, rfl, by decide, fun _ _ => rfl⟩
  obtain ⟨after, hafter, hnew⟩ :=
    @insertAt_overwrites _ _ 1 (fun _ => true) _ _ (9 : UInt32) (by decide) hrep (by decide)
  refine ⟨_, { result := 0, arr := after }, hrep, by decide, hafter, rfl, hnew, ?_⟩
  intro hinserted
  have hkept := hnew.size.symm.trans hinserted.size
  revert hkept
  decide

end Libdane
