import Libdane.Framework.ByteMachine
import Libdane.Framework.Splice

/-!
# The dynamic array

`DEFINE_LIBD_DARRAY_IMPL` instantiates one growable array for each element type. All writing goes
through `memcpy_at`, which doubles the capacity until the request fits and then copies. Sizes are
64-bit words and every product of them may wrap.
-/

namespace Libdane

open ByteMachine ByteMachine.Exec Splice

variable {α : Type}

/-- The block behind `dat`, with the size it was requested with. A cell that was never written is
`none`. -/
structure DarrayBlock (α : Type) where
  bytes : UInt64
  cells : Nat → Option α

namespace DarrayBlock

def fresh (bytes : UInt64) : DarrayBlock α := { bytes := bytes, cells := fun _ => none }

/-- `realloc` keeps the elements that lie in the old block and in the new one. -/
def realloc (sizeofType : UInt64) (b : DarrayBlock α) (bytes : UInt64) : DarrayBlock α :=
  { bytes := bytes
    cells := fun j =>
      if (j + 1) * sizeofType.toNat ≤ min b.bytes.toNat bytes.toNat then b.cells j else none }

/-- `memcpy` of `length` bytes to the cells from index `i` on. A cell that is only partly
overwritten holds no element. -/
def memcpy (sizeofType : UInt64) (b : DarrayBlock α) (i : UInt64) (dat : List α)
    (length : UInt64) : Exec (DarrayBlock α) :=
  if i.toNat * sizeofType.toNat + length.toNat ≤ b.bytes.toNat ∧
      length.toNat ≤ dat.length * sizeofType.toNat then
    let whole := length.toNat / sizeofType.toNat
    ret
      { b with
        cells := fun j =>
          if i.toNat ≤ j ∧ j < i.toNat + whole then dat[j - i.toNat]?
          else if j = i.toNat + whole ∧ length.toNat % sizeofType.toNat ≠ 0 then none
          else b.cells j }
  else fault

end DarrayBlock

/-- `struct libd_##type_darray`. -/
structure LibdDarray (α : Type) where
  capacity : UInt64
  size : UInt64
  dat : Option (DarrayBlock α)

/-- The two booleans say whether the two calls of `malloc` succeed. -/
def libdDarrayCreate (sizeofType : UInt64) (mallocArr mallocDat : Bool) (capacity : UInt64) :
    Option (LibdDarray α) :=
  if capacity == 0 then none
  else if !mallocArr then none
  else if !mallocDat then none
  else some
    { capacity := capacity, size := 0, dat := some (.fresh (sizeofType * capacity)) }

/-- A pointer into `dat` is the index of its element. -/
def libdDarrayAt (arr : LibdDarray α) (arrNull : Bool) (i : UInt64) : Option UInt64 :=
  if arrNull || arr.dat.isNone then none
  else if i ≥ arr.size then none
  else some i

/-- The element behind a pointer. -/
def LibdDarray.elementAt (arr : LibdDarray α) (pointer : UInt64) : Option α :=
  arr.dat.bind fun b => b.cells pointer.toNat

structure DarrayReturn (α : Type) where
  result : Int
  arr : LibdDarray α

/-- One turn of the loop that doubles the new capacity. -/
def doubleBody (needed newCap : UInt64) : Exec (UInt64 ⊕ UInt64) :=
  if needed > newCap then ret (.inl (newCap * 2)) else ret (.inr newCap)

/-- The copy and the new size, the end of `memcpy_at`. -/
def copyIn (sizeofType : UInt64) (arr : LibdDarray α) (block : DarrayBlock α) (i : UInt64)
    (source : List α) (n : UInt64) : Exec (DarrayReturn α) := do
  let block ← block.memcpy sizeofType i source (n * sizeofType)
  let size := if i + n > arr.size then i + n else arr.size
  ret { result := 0, arr := { arr with size := size, dat := some block } }

def libdDarrayMemcpyAt (sizeofType : UInt64) (realloc : UInt64 → Bool) (arr : LibdDarray α)
    (arrNull : Bool) (i : UInt64) (dat : Option (List α)) (n : UInt64) (fuel : Nat) :
    Exec (DarrayReturn α) :=
  match arrNull, arr.dat, dat with
  | false, some block, some source =>
    if i > arr.size then ret { result := -2, arr := arr }
    else do
      let newCap ← loop (doubleBody (i + n)) fuel arr.capacity
      if newCap != arr.capacity then
        if !realloc (newCap * sizeofType) then ret { result := -1, arr := arr }
        else
          let r := block.realloc sizeofType (newCap * sizeofType)
          copyIn sizeofType { arr with dat := some r, capacity := newCap } r i source n
      else copyIn sizeofType arr block i source n
  | _, _, _ => ret { result := -3, arr := arr }

def libdDarrayAppendN (sizeofType : UInt64) (realloc : UInt64 → Bool) (arr : LibdDarray α)
    (arrNull : Bool) (dat : Option (List α)) (n : UInt64) (fuel : Nat) : Exec (DarrayReturn α) :=
  if arrNull then ret { result := -3, arr := arr }
  else libdDarrayMemcpyAt sizeofType realloc arr arrNull arr.size dat n fuel

def libdDarrayAppend (sizeofType : UInt64) (realloc : UInt64 → Bool) (arr : LibdDarray α)
    (arrNull : Bool) (dat : Option (List α)) (fuel : Nat) : Exec (DarrayReturn α) :=
  libdDarrayAppendN sizeofType realloc arr arrNull dat 1 fuel

theorem double_step {needed newCap final : UInt64} {k : Nat} (hfit : ¬needed ≤ newCap)
    (hrun : ∀ fuel, k + 1 ≤ fuel → loop (doubleBody needed) fuel (newCap * 2) = ret final)
    (fuel : Nat) (hfuel : k + 2 ≤ fuel) : loop (doubleBody needed) fuel newCap = ret final := by
  obtain ⟨rest, rfl⟩ := Nat.exists_eq_succ_of_ne_zero (by omega : fuel ≠ 0)
  have hbody : doubleBody needed newCap = ret (.inl (newCap * 2)) := by
    simp [doubleBody, UInt64.not_le.mp hfit]
  rw [loop_next rest hbody]
  exact hrun rest (by omega)

theorem double_done {needed newCap : UInt64} (hfit : needed ≤ newCap) (fuel : Nat)
    (hfuel : 1 ≤ fuel) : loop (doubleBody needed) fuel newCap = ret newCap := by
  obtain ⟨rest, rfl⟩ := Nat.exists_eq_succ_of_ne_zero (by omega : fuel ≠ 0)
  apply loop_done
  simp [doubleBody, UInt64.not_lt.mpr hfit]

private theorem double_converges {needed newCap : UInt64} {k : Nat}
    (hpos : 0 < newCap.toNat) (hcover : needed.toNat ≤ newCap.toNat * 2 ^ k)
    (hword : newCap.toNat * 2 ^ k < 2 ^ 64) :
    ∃ final, (∀ fuel, k + 1 ≤ fuel → loop (doubleBody needed) fuel newCap = ret final) ∧
      needed ≤ final ∧ newCap ≤ final ∧ final.toNat ≤ newCap.toNat * 2 ^ k := by
  induction k generalizing newCap with
  | zero =>
    have hfit : needed ≤ newCap := by
      rw [UInt64.le_iff_toNat_le]
      omega
    exact ⟨newCap, double_done hfit, hfit, UInt64.le_refl _, by omega⟩
  | succ k ih =>
    by_cases hfit : needed ≤ newCap
    · have hle : newCap.toNat ≤ newCap.toNat * 2 ^ (k + 1) :=
        Nat.le_mul_of_pos_right _ (Nat.two_pow_pos _)
      exact ⟨newCap, fun fuel hfuel => double_done hfit fuel (by omega), hfit,
        UInt64.le_refl _, hle⟩
    · have hpow := Nat.two_pow_pos k
      have hsucc : newCap.toNat * 2 ^ (k + 1) = newCap.toNat * 2 * 2 ^ k := by
        rw [Nat.pow_succ']
        ring
      have hle : newCap.toNat * 2 ≤ newCap.toNat * 2 * 2 ^ k := Nat.le_mul_of_pos_right _ hpow
      have hdouble : (newCap * 2).toNat = newCap.toNat * 2 := by
        rw [UInt64.toNat_mul, Nat.mod_eq_of_lt]
        · rfl
        · show newCap.toNat * 2 < _
          omega
      rw [hsucc, ← hdouble] at hcover hword
      obtain ⟨final, hrun, hneeded, hgrows, hbound⟩ := ih (by omega) hcover hword
      rw [UInt64.le_iff_toNat_le, hdouble] at hgrows
      rw [hdouble, ← hsucc] at hbound
      refine ⟨final, double_step hfit hrun, hneeded, ?_, hbound⟩
      rw [UInt64.le_iff_toNat_le]
      omega

/-- The array holds the list: the size is its length and the block has room for the capacity. -/
structure Represents (sizeofType : UInt64) (arr : LibdDarray α) (contents : List α) : Prop where
  capacity_pos : 1 ≤ arr.capacity
  size_le : arr.size ≤ arr.capacity
  size : arr.size.toNat = contents.length
  block : ∃ b, arr.dat = some b ∧ b.bytes.toNat = arr.capacity.toNat * sizeofType.toNat ∧
    ∀ j < contents.length, b.cells j = contents[j]?

/-- Some doubling of the capacity covers `n` elements behind index `i`, and its size in bytes is
representable. -/
def Fits (sizeofType : UInt64) (arr : LibdDarray α) (i n : UInt64) : Prop :=
  ∃ k, i.toNat + n.toNat ≤ arr.capacity.toNat * 2 ^ k ∧
    arr.capacity.toNat * 2 ^ k * sizeofType.toNat < 2 ^ 64

section Copy

variable {sizeofType : UInt64} {arr : LibdDarray α} {block : DarrayBlock α}
  {contents source : List α} {i n : UInt64}

theorem memcpy_whole (hsizeof : 1 ≤ sizeofType.toNat)
    (hword : n.toNat * sizeofType.toNat < 2 ^ 64)
    (hroom : (i.toNat + n.toNat) * sizeofType.toNat ≤ block.bytes.toNat)
    (hsource : source.length = n.toNat) :
    ∃ after, block.memcpy sizeofType i source (n * sizeofType) = ret after ∧
      after.bytes = block.bytes ∧
      ∀ j, after.cells j =
        if i.toNat ≤ j ∧ j < i.toNat + source.length then source[j - i.toNat]?
        else block.cells j := by
  have hlength : (n * sizeofType).toNat = n.toNat * sizeofType.toNat := by
    rw [UInt64.toNat_mul, Nat.mod_eq_of_lt hword]
  have hwhole : n.toNat * sizeofType.toNat / sizeofType.toNat = n.toNat :=
    Nat.mul_div_cancel _ hsizeof
  have hrest : n.toNat * sizeofType.toNat % sizeofType.toNat = 0 := Nat.mul_mod_left _ _
  rw [Nat.add_mul] at hroom
  rw [DarrayBlock.memcpy, hlength, if_pos ⟨hroom, by rw [hsource]⟩]
  refine ⟨_, rfl, rfl, ?_⟩
  intro j
  simp only [hwhole, hrest, hsource, ne_eq, not_true_eq_false, and_false, if_false]

/-- The end of `memcpy_at`, in a block with room for the capacity. -/
theorem copyIn_represents (hsizeof : 1 ≤ sizeofType.toNat)
    (h : Represents sizeofType arr contents) (hblock : arr.dat = some block)
    (hword : arr.capacity.toNat * sizeofType.toNat < 2 ^ 64)
    (hroom : i.toNat + n.toNat ≤ arr.capacity.toNat) (hi : i ≤ arr.size)
    (hsource : source.length = n.toNat) :
    ∃ after, copyIn sizeofType arr block i source n = ret { result := 0, arr := after } ∧
      Represents sizeofType after (splice contents i.toNat source) ∧
      after.capacity = arr.capacity := by
  obtain ⟨b, hb, hbytes, hcells⟩ := h.block
  rw [hblock, Option.some.injEq] at hb
  subst hb
  have hsize := h.size
  have hle := UInt64.le_iff_toNat_le.mp h.size_le
  have hindex := UInt64.le_iff_toNat_le.mp hi
  have hcapacity := arr.capacity.toNat_lt
  have hall : (i.toNat + n.toNat) * sizeofType.toNat ≤ arr.capacity.toNat * sizeofType.toNat :=
    Nat.mul_le_mul_right _ hroom
  have hcount : n.toNat * sizeofType.toNat ≤ (i.toNat + n.toNat) * sizeofType.toNat :=
    Nat.mul_le_mul_right _ (Nat.le_add_left _ _)
  obtain ⟨after, hcopy, hafter, hnew⟩ := @memcpy_whole _ _ block _ i _ hsizeof
    (by omega) (by rw [hbytes]; exact hall) hsource
  have hsum : (i + n).toNat = i.toNat + n.toNat := by
    rw [UInt64.toNat_add, Nat.mod_eq_of_lt (by omega)]
  have hlength := @length_splice _ _ source _ (hsize ▸ hindex)
  rw [hsource, ← hsize] at hlength
  have hsizes : (if i + n > arr.size then i + n else arr.size).toNat =
      max (i.toNat + n.toNat) arr.size.toNat := by
    by_cases hgrows : i + n > arr.size
    · have hlt := UInt64.lt_iff_toNat_lt.mp hgrows
      rw [if_pos hgrows]
      omega
    · have hge := UInt64.le_iff_toNat_le.mp (UInt64.not_lt.mp hgrows)
      rw [if_neg hgrows]
      omega
  refine ⟨{ arr with
    size := if i + n > arr.size then i + n else arr.size, dat := some after }, ?_, ?_⟩
  · rw [copyIn, hcopy]
    rfl
  refine ⟨⟨h.capacity_pos, ?_, ?_, after, rfl, ?_, ?_⟩, rfl⟩
  · rw [UInt64.le_iff_toNat_le]
    show (if i + n > arr.size then i + n else arr.size).toNat ≤ arr.capacity.toNat
    omega
  · rw [hlength]
    exact hsizes
  · rw [hafter]
    exact hbytes
  · intro j hj
    rw [hnew, getElem?_splice (hsize ▸ hindex)]
    by_cases hblock : i.toNat ≤ j ∧ j < i.toNat + source.length
    · rw [if_pos hblock, if_pos hblock]
    · rw [if_neg hblock, if_neg hblock]
      apply hcells
      omega

end Copy

/-- What one call of `memcpy_at` answers, and what it does to the contents. -/
structure CallSpec (sizeofType : UInt64) (realloc : UInt64 → Bool) (arr : LibdDarray α)
    (contents : List α) (i : UInt64) (dat : Option (List α)) (r : DarrayReturn α) : Prop where
  codes : r.result = 0 ∨ r.result = -1 ∨ r.result = -2 ∨ r.result = -3
  null : r.result = -3 ↔ dat = none
  range : r.result = -2 ↔ dat ≠ none ∧ contents.length < i.toNat
  memory : r.result = -1 → ∃ bytes, arr.capacity.toNat * sizeofType.toNat < bytes.toNat ∧
    realloc bytes = false
  unchanged : r.result ≠ 0 → r.arr = arr
  written : r.result = 0 → ∃ source, dat = some source ∧
    Represents sizeofType r.arr (splice contents i.toNat source)

theorem Represents.grow {sizeofType newCap : UInt64} {arr : LibdDarray α} {block : DarrayBlock α}
    {contents : List α} (h : Represents sizeofType arr contents) (hblock : arr.dat = some block)
    (hgrows : arr.capacity ≤ newCap) (hword : newCap.toNat * sizeofType.toNat < 2 ^ 64) :
    Represents sizeofType
      { arr with
        capacity := newCap
        dat := some (block.realloc sizeofType (newCap * sizeofType)) } contents := by
  obtain ⟨b, hb, hbytes, hcells⟩ := h.block
  rw [hblock, Option.some.injEq] at hb
  subst hb
  have hle := UInt64.le_iff_toNat_le.mp hgrows
  have hsize := UInt64.le_iff_toNat_le.mp h.size_le
  rw [h.size] at hsize
  have hnew : (newCap * sizeofType).toNat = newCap.toNat * sizeofType.toNat := by
    rw [UInt64.toNat_mul, Nat.mod_eq_of_lt hword]
  refine ⟨UInt64.le_trans h.capacity_pos hgrows, UInt64.le_trans h.size_le hgrows, h.size, _, rfl,
    hnew, ?_⟩
  intro j hj
  have hold : (j + 1) * sizeofType.toNat ≤ arr.capacity.toNat * sizeofType.toNat :=
    Nat.mul_le_mul_right _ (by omega)
  have hlarger : arr.capacity.toNat * sizeofType.toNat ≤ newCap.toNat * sizeofType.toNat :=
    Nat.mul_le_mul_right _ hle
  have hkept : (j + 1) * sizeofType.toNat ≤
      min block.bytes.toNat (newCap * sizeofType).toNat := by
    rw [hbytes, hnew]
    omega
  rw [DarrayBlock.realloc]
  simp only [hkept, if_true]
  exact hcells j hj

theorem memcpyAt_eq (sizeofType : UInt64) (realloc : UInt64 → Bool) {arr : LibdDarray α}
    {block : DarrayBlock α} (hblock : arr.dat = some block) (i : UInt64) (source : List α)
    (n : UInt64) (fuel : Nat) :
    libdDarrayMemcpyAt sizeofType realloc arr false i (some source) n fuel =
      if i > arr.size then ret { result := -2, arr := arr }
      else (do
        let newCap ← loop (doubleBody (i + n)) fuel arr.capacity
        if newCap != arr.capacity then
          if !realloc (newCap * sizeofType) then ret { result := -1, arr := arr }
          else
            let r := block.realloc sizeofType (newCap * sizeofType)
            copyIn sizeofType { arr with dat := some r, capacity := newCap } r i source n
        else copyIn sizeofType arr block i source n) := by
  simp only [libdDarrayMemcpyAt, hblock]

theorem memcpyAt_null (sizeofType : UInt64) (realloc : UInt64 → Bool) (arr : LibdDarray α)
    (i n : UInt64) (fuel : Nat) :
    libdDarrayMemcpyAt sizeofType realloc arr false i none n fuel =
      ret { result := -3, arr := arr } := by
  cases h : arr.dat <;> simp [libdDarrayMemcpyAt, h]

/-- The capacity that the loop of `memcpy_at` finds. -/
structure FindsCapacity (sizeofType : UInt64) (arr : LibdDarray α) (i n newCap : UInt64) :
    Prop where
  loop : ∃ enough, ∀ fuel, enough ≤ fuel →
    loop (doubleBody (i + n)) fuel arr.capacity = ret newCap
  room : i.toNat + n.toNat ≤ newCap.toNat
  grows : arr.capacity ≤ newCap
  word : newCap.toNat * sizeofType.toNat < 2 ^ 64

section Spec

variable {sizeofType i n newCap : UInt64} {realloc : UInt64 → Bool} {arr : LibdDarray α}
  {contents source : List α}

theorem Fits.findsCapacity (hfits : Fits sizeofType arr i n) (hsizeof : 1 ≤ sizeofType.toNat)
    (hcapacity : 1 ≤ arr.capacity) : ∃ newCap, FindsCapacity sizeofType arr i n newCap := by
  obtain ⟨k, hcover, hbound⟩ := hfits
  have hword : arr.capacity.toNat * 2 ^ k < 2 ^ 64 :=
    (Nat.le_mul_of_pos_right _ hsizeof).trans_lt hbound
  have hsum : (i + n).toNat = i.toNat + n.toNat := by
    rw [UInt64.toNat_add, Nat.mod_eq_of_lt (by omega)]
  rw [← hsum] at hcover
  obtain ⟨newCap, hloop, hneeded, hgrows, hle⟩ :=
    double_converges (UInt64.le_iff_toNat_le.mp hcapacity) hcover hword
  refine ⟨newCap, ⟨k + 1, hloop⟩, ?_, hgrows, (Nat.mul_le_mul_right _ hle).trans_lt hbound⟩
  rw [← hsum]
  exact UInt64.le_iff_toNat_le.mp hneeded

theorem FindsCapacity.writes (hcap : FindsCapacity sizeofType arr i n newCap)
    (hsizeof : 1 ≤ sizeofType.toNat) (h : Represents sizeofType arr contents) (hi : i ≤ arr.size)
    (hsource : source.length = n.toNat)
    (hgranted : newCap = arr.capacity ∨ realloc (newCap * sizeofType) = true) :
    ∃ after, Converges (libdDarrayMemcpyAt sizeofType realloc arr false i (some source) n)
        { result := 0, arr := after } ∧
      Represents sizeofType after (splice contents i.toNat source) ∧ after.capacity = newCap := by
  obtain ⟨block, hblock, -⟩ := h.block
  obtain ⟨enough, hloop⟩ := hcap.loop
  have hroom := hcap.room
  have hword := hcap.word
  by_cases hsame : newCap = arr.capacity
  · rw [hsame] at hroom hword
    obtain ⟨after, hcopy, hafter, hcapacity⟩ :=
      copyIn_represents hsizeof h hblock hword hroom hi hsource
    refine ⟨after, ⟨enough, ?_⟩, hafter, hcapacity.trans hsame.symm⟩
    intro fuel hfuel
    rw [memcpyAt_eq _ _ hblock, if_neg (UInt64.not_lt.mpr hi), hloop fuel hfuel, ret_bind, hsame]
    simpa using hcopy
  · have hrealloc := hgranted.resolve_left hsame
    have hgrown := h.grow hblock hcap.grows hword
    obtain ⟨after, hcopy, hafter⟩ := copyIn_represents hsizeof hgrown rfl hword hroom hi hsource
    refine ⟨after, ⟨enough, ?_⟩, hafter⟩
    intro fuel hfuel
    rw [memcpyAt_eq _ _ hblock, if_neg (UInt64.not_lt.mpr hi), hloop fuel hfuel, ret_bind]
    simpa [hsame, hrealloc] using hcopy

theorem FindsCapacity.refuses (hcap : FindsCapacity sizeofType arr i n newCap)
    (hsizeof : 1 ≤ sizeofType.toNat) (h : Represents sizeofType arr contents) (hi : i ≤ arr.size)
    (hnew : newCap ≠ arr.capacity) (hrealloc : realloc (newCap * sizeofType) = false) :
    Converges (libdDarrayMemcpyAt sizeofType realloc arr false i (some source) n)
        { result := -1, arr := arr } ∧
      arr.capacity.toNat * sizeofType.toNat < (newCap * sizeofType).toNat := by
  obtain ⟨block, hblock, -⟩ := h.block
  obtain ⟨enough, hloop⟩ := hcap.loop
  constructor
  · refine ⟨enough, ?_⟩
    intro fuel hfuel
    rw [memcpyAt_eq _ _ hblock, if_neg (UInt64.not_lt.mpr hi), hloop fuel hfuel, ret_bind]
    simp [hnew, hrealloc]
  · have hle := UInt64.le_iff_toNat_le.mp hcap.grows
    have hne : arr.capacity.toNat ≠ newCap.toNat := fun he => hnew (UInt64.toNat_inj.mp he.symm)
    rw [UInt64.toNat_mul, Nat.mod_eq_of_lt hcap.word]
    exact Nat.mul_lt_mul_of_pos_right (by omega) hsizeof

/-- A call whose capacity is representable returns. It refuses and changes nothing, or it writes
the block over the contents. -/
theorem memcpyAt_spec (hsizeof : 1 ≤ sizeofType.toNat) (realloc : UInt64 → Bool)
    (h : Represents sizeofType arr contents) {dat : Option (List α)}
    (hdat : ∀ source, dat = some source → i ≤ arr.size →
      source.length = n.toNat ∧ Fits sizeofType arr i n) :
    ∃ r, Converges (libdDarrayMemcpyAt sizeofType realloc arr false i dat n) r ∧
      CallSpec sizeofType realloc arr contents i dat r := by
  obtain ⟨block, hblock, -⟩ := h.block
  cases dat with
  | none =>
    refine ⟨{ result := -3, arr := arr }, ⟨0, fun fuel _ => memcpyAt_null _ _ _ _ _ _⟩, ?_⟩
    constructor <;> simp
  | some source =>
    by_cases hi : i > arr.size
    · have hlt := UInt64.lt_iff_toNat_lt.mp hi
      rw [h.size] at hlt
      refine ⟨{ result := -2, arr := arr }, ⟨0, ?_⟩, by constructor <;> simp [hlt]⟩
      intro fuel _
      rw [memcpyAt_eq _ _ hblock, if_pos hi]
    · have hindex := UInt64.not_lt.mp hi
      have hinside := UInt64.le_iff_toNat_le.mp hindex
      rw [h.size] at hinside
      obtain ⟨hsource, hfits⟩ := hdat source rfl hindex
      obtain ⟨newCap, hcap⟩ := hfits.findsCapacity hsizeof h.capacity_pos
      by_cases hgranted : newCap = arr.capacity ∨ realloc (newCap * sizeofType) = true
      · obtain ⟨after, hconv, hafter, -⟩ := hcap.writes hsizeof h hindex hsource hgranted
        refine ⟨{ result := 0, arr := after }, hconv, ?_⟩
        constructor <;> simp [hinside, hafter]
      · rw [not_or, Bool.not_eq_true] at hgranted
        obtain ⟨hconv, hlarger⟩ := hcap.refuses hsizeof h hindex hgranted.1 hgranted.2
        have hrefused : ∃ bytes, arr.capacity.toNat * sizeofType.toNat < bytes.toNat ∧
            realloc bytes = false := ⟨newCap * sizeofType, hlarger, hgranted.2⟩
        refine ⟨{ result := -1, arr := arr }, hconv, ?_⟩
        constructor <;> simp [hinside, hrefused]

end Spec

theorem libdDarrayCreate_eq_some {sizeofType capacity : UInt64} {mallocArr mallocDat : Bool}
    {arr : LibdDarray α}
    (hcreate : libdDarrayCreate sizeofType mallocArr mallocDat capacity = some arr) :
    capacity ≠ 0 ∧
      arr = { capacity := capacity, size := 0, dat := some (.fresh (sizeofType * capacity)) } := by
  unfold libdDarrayCreate at hcreate
  split at hcreate
  · cases hcreate
  rename_i hcapacity
  split at hcreate
  · cases hcreate
  split at hcreate
  · cases hcreate
  rw [beq_iff_eq] at hcapacity
  exact ⟨hcapacity, (Option.some.inj hcreate).symm⟩

theorem libdDarrayCreate_represents {sizeofType capacity : UInt64} {mallocArr mallocDat : Bool}
    {arr : LibdDarray α}
    (hcreate : libdDarrayCreate sizeofType mallocArr mallocDat capacity = some arr)
    (hword : capacity.toNat * sizeofType.toNat < 2 ^ 64) : Represents sizeofType arr [] := by
  obtain ⟨hcapacity, rfl⟩ := libdDarrayCreate_eq_some hcreate
  have hpos : capacity.toNat ≠ 0 := fun he => hcapacity (UInt64.toNat_inj.mp he)
  refine ⟨?_, ?_, rfl, _, rfl, ?_, ?_⟩
  · rw [UInt64.le_iff_toNat_le]
    exact Nat.one_le_iff_ne_zero.mpr hpos
  · rw [UInt64.le_iff_toNat_le]
    exact Nat.zero_le _
  · show (sizeofType * capacity).toNat = _
    rw [UInt64.toNat_mul, Nat.mul_comm, Nat.mod_eq_of_lt hword]
  · intro j hj
    cases hj

theorem Represents.read {sizeofType : UInt64} {arr : LibdDarray α} {contents : List α}
    (h : Represents sizeofType arr contents) (i : UInt64) :
    (i.toNat < contents.length → libdDarrayAt arr false i = some i ∧
      arr.elementAt i = contents[i.toNat]?) ∧
    (contents.length ≤ i.toNat → libdDarrayAt arr false i = none) := by
  obtain ⟨block, hblock, -, hcells⟩ := h.block
  constructor
  · intro hi
    have hlt : ¬i ≥ arr.size := by
      rw [ge_iff_le, UInt64.le_iff_toNat_le, h.size]
      omega
    refine ⟨by simp [libdDarrayAt, hblock, hlt], ?_⟩
    rw [LibdDarray.elementAt, hblock]
    exact hcells _ hi
  · intro hi
    have hge : i ≥ arr.size := by
      rw [ge_iff_le, UInt64.le_iff_toNat_le, h.size]
      exact hi
    simp [libdDarrayAt, hblock, hge]

end Libdane
