import Libdane.Framework.BlockHeap
import Libdane.Utils.DynamicArray

/-!
# Dynamic arrays in a heap

An array is a header block that points to a data block. Here the blocks have names, every `malloc`,
`realloc` and `free` acts on one heap, several arrays live in it, and a source may be a pointer that
`at` gave out. Whatever the allocator answers, the heap holds exactly the two blocks of every array,
and each array holds the list of its own calls.
-/

namespace Libdane.ArrayHeap

open ByteMachine ByteMachine.Exec BlockHeap Splice

variable {α : Type}

abbrev BlockName : Type := Nat

/-- `struct libd_##type_darray` in memory, where `dat` names a block. -/
structure DarrayHeader where
  capacity : UInt64
  size : UInt64
  dat : Option BlockName

inductive ArrayBlock (α : Type) where
  | raw
  | header (header : DarrayHeader)
  | data (block : DarrayBlock α)

abbrev ArrayMemory (α : Type) : Type := Heap BlockName (ArrayBlock α)

def loadHeader (heap : ArrayMemory α) (arr : BlockName) : Exec DarrayHeader := do
  match ← load heap arr with
  | .header header => ret header
  | _ => fault

def loadData (heap : ArrayMemory α) (dat : BlockName) : Exec (DarrayBlock α) := do
  match ← load heap dat with
  | .data block => ret block
  | _ => fault

/-- The names are the answers of the two calls of `malloc`. -/
def libdDarrayCreate (sizeofType : UInt64) (mallocArr mallocDat : Option BlockName)
    (heap : ArrayMemory α) (capacity : UInt64) : Exec (Option BlockName × ArrayMemory α) :=
  if capacity == 0 then ret (none, heap)
  else
    match mallocArr with
    | none => ret (none, heap)
    | some arr =>
      let heap := malloc heap arr .raw
      match mallocDat with
      | none => do
        let heap ← free heap arr
        ret (none, heap)
      | some dat => do
        let heap := malloc heap dat (.data (.fresh (sizeofType * capacity)))
        let heap ← store heap arr (.header { capacity := capacity, size := 0, dat := some dat })
        ret (some arr, heap)

/-- `&arr->dat[i]`. -/
structure ElementPointer where
  block : BlockName
  index : UInt64

def libdDarrayAt (heap : ArrayMemory α) (arr : Option BlockName) (i : UInt64) :
    Exec (Option ElementPointer) :=
  match arr with
  | none => ret none
  | some arr => do
    let header ← loadHeader heap arr
    match header.dat with
    | none => ret none
    | some dat => if i ≥ header.size then ret none else ret (some { block := dat, index := i })

/-- The element behind a pointer. -/
def elementAt (heap : ArrayMemory α) (pointer : ElementPointer) : Option α :=
  match heap pointer.block with
  | some (.data block) => block.cells pointer.index.toNat
  | _ => none

/-- What a pointer to elements points to: memory of the caller, or a block of this heap. -/
inductive Source (α : Type) where
  | caller (elements : List α)
  | element (pointer : ElementPointer)

/-- The cells that a copy can read, and how many bytes they have. -/
structure Readable (α : Type) where
  cells : Nat → Option α
  bytes : Nat

def Source.read (sizeofType : UInt64) (heap : ArrayMemory α) : Source α → Exec (Readable α)
  | .caller elements =>
    ret { cells := fun j => elements[j]?, bytes := elements.length * sizeofType.toNat }
  | .element pointer => do
    let block ← loadData heap pointer.block
    ret
      { cells := fun j => block.cells (pointer.index.toNat + j)
        bytes := block.bytes.toNat - pointer.index.toNat * sizeofType.toNat }

/-- `memcpy` between blocks that overlap is undefined. -/
def Source.overlaps (sizeofType : UInt64) (dat : BlockName) (i length : UInt64) :
    Source α → Bool
  | .caller _ => false
  | .element pointer =>
    pointer.block == dat &&
      decide (i.toNat * sizeofType.toNat < pointer.index.toNat * sizeofType.toNat + length.toNat ∧
        pointer.index.toNat * sizeofType.toNat < i.toNat * sizeofType.toNat + length.toNat)

def memcpy (sizeofType : UInt64) (b : DarrayBlock α) (i : UInt64) (source : Readable α)
    (length : UInt64) : Exec (DarrayBlock α) :=
  if i.toNat * sizeofType.toNat + length.toNat ≤ b.bytes.toNat ∧ length.toNat ≤ source.bytes then
    let whole := length.toNat / sizeofType.toNat
    ret
      { b with
        cells := fun j =>
          if i.toNat ≤ j ∧ j < i.toNat + whole then source.cells (j - i.toNat)
          else if j = i.toNat + whole ∧ length.toNat % sizeofType.toNat ≠ 0 then none
          else b.cells j }
  else fault

/-- The copy and the new size, the end of `memcpy_at`. -/
def copyIn (sizeofType : UInt64) (heap : ArrayMemory α) (arr : BlockName) (header : DarrayHeader)
    (dat : BlockName) (i : UInt64) (source : Source α) (n : UInt64) :
    Exec (Int × ArrayMemory α) :=
  if source.overlaps sizeofType dat i (n * sizeofType) then fault
  else do
    let readable ← source.read sizeofType heap
    let block ← loadData heap dat
    let block ← memcpy sizeofType block i readable (n * sizeofType)
    let heap ← store heap dat (.data block)
    let size := if i + n > header.size then i + n else header.size
    let heap ← store heap arr (.header { header with size := size })
    ret (0, heap)

/-- `realloc` answers with a name for each size, or has no memory for it. -/
def libdDarrayMemcpyAt (sizeofType : UInt64) (realloc : UInt64 → Option BlockName)
    (heap : ArrayMemory α) (arr : Option BlockName) (i : UInt64) (dat : Option (Source α))
    (n : UInt64) (fuel : Nat) : Exec (Int × ArrayMemory α) :=
  match arr with
  | none => ret (-3, heap)
  | some arr => do
    let header ← loadHeader heap arr
    match header.dat, dat with
    | some d, some source =>
      if i > header.size then ret (-2, heap)
      else do
        let newCap ← loop (doubleBody (i + n)) fuel header.capacity
        if newCap != header.capacity then
          match realloc (newCap * sizeofType) with
          | none => ret (-1, heap)
          | some r => do
            let block ← loadData heap d
            let heap ← free heap d
            let heap := malloc heap r (.data (block.realloc sizeofType (newCap * sizeofType)))
            let header := { header with dat := some r, capacity := newCap }
            let heap ← store heap arr (.header header)
            copyIn sizeofType heap arr header r i source n
        else copyIn sizeofType heap arr header d i source n
    | _, _ => ret (-3, heap)

def libdDarrayAppendN (sizeofType : UInt64) (realloc : UInt64 → Option BlockName)
    (heap : ArrayMemory α) (arr : Option BlockName) (dat : Option (Source α)) (n : UInt64)
    (fuel : Nat) : Exec (Int × ArrayMemory α) :=
  match arr with
  | none => ret (-3, heap)
  | some p => do
    let header ← loadHeader heap p
    libdDarrayMemcpyAt sizeofType realloc heap arr header.size dat n fuel

def libdDarrayAppend (sizeofType : UInt64) (realloc : UInt64 → Option BlockName)
    (heap : ArrayMemory α) (arr : Option BlockName) (dat : Option (Source α)) (fuel : Nat) :
    Exec (Int × ArrayMemory α) :=
  libdDarrayAppendN sizeofType realloc heap arr dat 1 fuel

def libdDarrayInsertAt (sizeofType : UInt64) (realloc : UInt64 → Option BlockName)
    (heap : ArrayMemory α) (arr : Option BlockName) (i : UInt64) (dat : Option (Source α))
    (fuel : Nat) : Exec (Int × ArrayMemory α) :=
  libdDarrayMemcpyAt sizeofType realloc heap arr i dat 1 fuel

def libdDarrayDestroy (heap : ArrayMemory α) (arr : Option BlockName) : Exec (ArrayMemory α) :=
  match arr with
  | none => ret heap
  | some arr => do
    let header ← loadHeader heap arr
    match header.dat with
    | some dat => do
      let heap ← free heap dat
      free heap arr
    | none => free heap arr

/-- The header together with the block behind it. -/
def DarrayHeader.withDat (header : DarrayHeader) (dat : Option (DarrayBlock α)) : LibdDarray α :=
  { capacity := header.capacity, size := header.size, dat := dat }

def dataOf (heap : ArrayMemory α) (arr : BlockName) : Option BlockName :=
  match heap arr with
  | some (.header header) => header.dat
  | _ => none

def blocksOf (heap : ArrayMemory α) (arr : BlockName) : Set BlockName :=
  {name | ∃ dat, dataOf heap arr = some dat ∧ (name = arr ∨ name = dat)}

theorem dataOf_header {heap : ArrayMemory α} {arr : BlockName} {header : DarrayHeader}
    (h : heap arr = some (.header header)) : dataOf heap arr = header.dat := by
  simp [dataOf, h]

private theorem dataOf_data {heap : ArrayMemory α} {name : BlockName} {block : DarrayBlock α}
    (h : heap name = some (.data block)) : dataOf heap name = none := by
  simp [dataOf, h]

theorem dataOf_dead {heap : ArrayMemory α} {name : BlockName} (h : heap name = none) :
    dataOf heap name = none := by
  simp [dataOf, h]

theorem blocksOf_none {heap : ArrayMemory α} {arr : BlockName} (h : dataOf heap arr = none) :
    blocksOf heap arr = ∅ := by
  simp [blocksOf, h]

theorem mem_blocksOf {heap : ArrayMemory α} {arr dat : BlockName} (h : dataOf heap arr = some dat)
    {name : BlockName} : name ∈ blocksOf heap arr ↔ name = arr ∨ name = dat := by
  simp [blocksOf, h]

/-- The array at `arr` has this header, and a data block that holds the list. -/
structure Placed (sizeofType : UInt64) (heap : ArrayMemory α) (arr : BlockName)
    (header : DarrayHeader) (contents : List α) : Prop where
  found : heap arr = some (.header header)
  data : ∃ dat block, header.dat = some dat ∧ heap dat = some (.data block) ∧
    Represents sizeofType (header.withDat (some block)) contents

/-- A list for each live array. -/
abbrev Store (α : Type) : Type := BlockName → Option (List α)

/-- The live blocks are the header and the data of each live array, no two of them shared, and each
array holds its list. -/
structure HeapInv (sizeofType : UInt64) (heap : ArrayMemory α) (store : Store α) : Prop where
  tiles : Tiles heap (blocksOf heap)
  placed : ∀ arr contents, store arr = some contents →
    ∃ header, Placed sizeofType heap arr header contents
  owned : ∀ arr, (dataOf heap arr).isSome → (store arr).isSome

/-- A call changes the blocks of one array only. -/
structure Swaps (heap after : ArrayMemory α) (arr : BlockName) : Prop where
  frame : ∀ name, name ∉ blocksOf heap arr → name ∉ blocksOf after arr → after name = heap name
  taken : ∀ name ∈ blocksOf after arr, name ∈ blocksOf heap arr ∨ heap name = none
  live : ∀ name, name ∈ blocksOf heap arr ∨ name ∈ blocksOf after arr →
    ((after name).isSome ↔ name ∈ blocksOf after arr)
  data : ∀ name, name ≠ arr → name ∈ blocksOf heap arr ∨ name ∈ blocksOf after arr →
    dataOf heap name = none ∧ dataOf after name = none

theorem Swaps.replaces {heap after : ArrayMemory α} {arr : BlockName} (h : Swaps heap after arr) :
    Replaces heap after (blocksOf heap) (blocksOf after) arr := by
  constructor
  case other =>
    intro other hne
    by_cases hmem : other ∈ blocksOf heap arr ∨ other ∈ blocksOf after arr
    · obtain ⟨hold, hnew⟩ := h.data other hne hmem
      rw [blocksOf_none hold, blocksOf_none hnew]
    · rw [not_or] at hmem
      simp only [blocksOf, dataOf, h.frame other hmem.1 hmem.2]
  case taken => exact h.taken
  case live => exact h.live
  case frame => exact h.frame

theorem HeapInv.replace {sizeofType : UInt64} {heap after : ArrayMemory α} {store : Store α}
    {arr : BlockName} (h : HeapInv sizeofType heap store) (hswaps : Swaps heap after arr)
    {contents : Option (List α)}
    (hplaced : ∀ list, contents = some list → ∃ header, Placed sizeofType after arr header list)
    (howned : (dataOf after arr).isSome → contents.isSome) :
    HeapInv sizeofType after (Function.update store arr contents) := by
  have hstep := hswaps.replaces
  constructor
  case tiles => exact h.tiles.replace hstep
  case placed =>
    intro other list hlist
    by_cases hne : other = arr
    · rw [hne, Function.update_self] at hlist
      rw [hne]
      exact hplaced list hlist
    · rw [Function.update_of_ne hne] at hlist
      obtain ⟨header, hheader, dat, block, hdat, hblock, hholds⟩ := h.placed other list hlist
      have hdata : dataOf heap other = some dat := by rw [dataOf_header hheader, hdat]
      have hmem := fun name => @mem_blocksOf _ heap other dat hdata name
      refine ⟨header, ?_, dat, block, hdat, ?_, hholds⟩
      · rw [h.tiles.frame hstep hne ((hmem other).mpr (Or.inl rfl)), hheader]
      · rw [h.tiles.frame hstep hne ((hmem dat).mpr (Or.inr rfl)), hblock]
  case owned =>
    intro other hdata
    by_cases hne : other = arr
    · rw [hne, Function.update_self]
      rw [hne] at hdata
      exact howned hdata
    · rw [Function.update_of_ne hne]
      apply h.owned
      obtain ⟨dat, hdat⟩ := Option.isSome_iff_exists.mp hdata
      have hmem : other ∈ blocksOf after other := (mem_blocksOf hdat).mpr (Or.inl rfl)
      rw [hstep.other other hne] at hmem
      obtain ⟨old, hold, -⟩ := hmem
      rw [hold]
      rfl

/-- The data block moves from `dat` to `r`, possibly the same place, and the header follows. -/
def written (heap : ArrayMemory α) (arr dat r : BlockName) (header : DarrayHeader)
    (block : DarrayBlock α) : ArrayMemory α :=
  malloc (malloc (Function.update heap dat none) r (.data block)) arr (.header header)

/-- The heap with this array in place of the one at `arr`, with its data moved from `dat` to `r`. -/
def replaced (heap : ArrayMemory α) (arr dat r : BlockName) (a : LibdDarray α) : ArrayMemory α :=
  match a.dat with
  | some block =>
    written heap arr dat r { capacity := a.capacity, size := a.size, dat := some r } block
  | none => heap

section Changes

variable {heap : ArrayMemory α} {arr dat r : BlockName} {header next : DarrayHeader}
  {block moved : DarrayBlock α}

theorem ne_of_header_of_data (harr : heap arr = some (.header header))
    (hdat : heap dat = some (.data block)) : dat ≠ arr := by
  rintro rfl
  rw [harr] at hdat
  cases hdat

theorem ne_of_moved (harr : heap arr = some (.header header)) (hdat : heap dat = some (.data block))
    (hr : r = dat ∨ heap r = none) : r ≠ arr := by
  rintro rfl
  cases hr with
  | inl hsame => exact ne_of_header_of_data harr hdat hsame.symm
  | inr hdead =>
    rw [harr] at hdead
    cases hdead

theorem written_arr (heap : ArrayMemory α) (arr dat r : BlockName) (next : DarrayHeader)
    (moved : DarrayBlock α) : written heap arr dat r next moved arr = some (.header next) := by
  simp [written]

theorem written_r (hr : r ≠ arr) : written heap arr dat r next moved r = some (.data moved) := by
  rw [written, malloc_of_ne hr, malloc_self]

theorem written_dat (hdat : dat ≠ arr) (hr : dat ≠ r) :
    written heap arr dat r next moved dat = none := by
  rw [written, malloc_of_ne hdat, malloc_of_ne hr, Function.update_self]

theorem written_other {name : BlockName} (harr : name ≠ arr) (hdat : name ≠ dat) (hr : name ≠ r) :
    written heap arr dat r next moved name = heap name := by
  rw [written, malloc_of_ne harr, malloc_of_ne hr, Function.update_of_ne hdat]

theorem swaps_written (harr : heap arr = some (.header header)) (hheader : header.dat = some dat)
    (hdat : heap dat = some (.data block)) (hr : r = dat ∨ heap r = none)
    (hnext : next.dat = some r) : Swaps heap (written heap arr dat r next moved) arr := by
  have hne := ne_of_header_of_data harr hdat
  have hrarr := ne_of_moved harr hdat hr
  have hold : ∀ name, name ∈ blocksOf heap arr ↔ name = arr ∨ name = dat := fun name =>
    mem_blocksOf (by rw [dataOf_header harr, hheader])
  have hnew : ∀ name, name ∈ blocksOf (written heap arr dat r next moved) arr ↔
      name = arr ∨ name = r := fun name =>
    mem_blocksOf (by rw [dataOf_header (written_arr ..), hnext])
  constructor
  case frame =>
    intro name h h'
    rw [hold, not_or] at h
    rw [hnew, not_or] at h'
    exact written_other h.1 h.2 h'.2
  case taken =>
    intro name h
    rcases (hnew name).mp h with rfl | rfl
    · exact Or.inl ((hold _).mpr (Or.inl rfl))
    · rcases hr with rfl | hdead
      · exact Or.inl ((hold _).mpr (Or.inr rfl))
      · exact Or.inr hdead
  case live =>
    intro name h
    rw [hold, hnew] at h
    rw [hnew]
    by_cases hname : name = arr ∨ name = r
    · rcases hname with rfl | rfl
      · simp [written_arr]
      · simp [written_r hrarr]
    · rw [not_or] at hname
      have hd : name = dat := by tauto
      subst hd
      simp [written_dat hname.1 hname.2, hname]
  case data =>
    intro name hnarr h
    rw [hold, hnew] at h
    by_cases hname : name = r
    · subst hname
      refine ⟨?_, dataOf_data (written_r hrarr)⟩
      rcases hr with rfl | hdead
      · exact dataOf_data hdat
      · exact dataOf_dead hdead
    · have hd : name = dat := by tauto
      subst hd
      exact ⟨dataOf_data hdat, dataOf_dead (written_dat hnarr hname)⟩

theorem swaps_created (harr : heap arr = none) (hdat : heap dat = none) (hne : dat ≠ arr)
    (hnext : next.dat = some dat) :
    Swaps heap (malloc (malloc heap dat (.data moved)) arr (.header next)) arr := by
  have hold : blocksOf heap arr = ∅ := blocksOf_none (dataOf_dead harr)
  have hheader : malloc (malloc heap dat (.data moved)) arr (.header next) arr =
      some (.header next) := malloc_self ..
  have hdata : malloc (malloc heap dat (.data moved)) arr (.header next) dat =
      some (.data moved) := by
    rw [malloc_of_ne hne, malloc_self]
  have hnew : ∀ name, name ∈ blocksOf (malloc (malloc heap dat (.data moved)) arr (.header next))
      arr ↔ name = arr ∨ name = dat := fun name =>
    mem_blocksOf (by rw [dataOf_header hheader, hnext])
  constructor
  case frame =>
    intro name _ h
    rw [hnew, not_or] at h
    rw [malloc_of_ne h.1, malloc_of_ne h.2]
  case taken =>
    intro name h
    rcases (hnew name).mp h with rfl | rfl
    · exact Or.inr harr
    · exact Or.inr hdat
  case live =>
    intro name h
    rw [hold, Set.mem_empty_iff_false, false_or] at h
    rw [iff_true_right h]
    rcases (hnew name).mp h with rfl | rfl
    · simp
    · simp [hdata]
  case data =>
    intro name hname h
    rw [hold, Set.mem_empty_iff_false, false_or, hnew] at h
    obtain rfl := h.resolve_left hname
    exact ⟨dataOf_dead hdat, dataOf_data hdata⟩

theorem swaps_destroyed (harr : heap arr = some (.header header))
    (hheader : header.dat = some dat) (hdat : heap dat = some (.data block)) :
    Swaps heap (Function.update (Function.update heap dat none) arr none) arr := by
  have hold : ∀ name, name ∈ blocksOf heap arr ↔ name = arr ∨ name = dat := fun name =>
    mem_blocksOf (by rw [dataOf_header harr, hheader])
  have hdead : ∀ name, name = arr ∨ name = dat →
      Function.update (Function.update heap dat none) arr none name = none := by
    rintro name (rfl | rfl)
    · exact Function.update_self ..
    · by_cases hne : name = arr <;> simp [hne, Function.update_of_ne]
  have hnew : blocksOf (Function.update (Function.update heap dat none) arr none) arr = ∅ :=
    blocksOf_none (dataOf_dead (hdead arr (Or.inl rfl)))
  constructor
  case frame =>
    intro name h _
    rw [hold, not_or] at h
    rw [Function.update_of_ne h.1, Function.update_of_ne h.2]
  case taken =>
    intro name h
    rw [hnew] at h
    cases h
  case live =>
    intro name h
    rw [hnew, Set.mem_empty_iff_false, or_false, hold] at h
    simp [hnew, hdead name h]
  case data =>
    intro name hname h
    rw [hnew, Set.mem_empty_iff_false, or_false, hold] at h
    refine ⟨?_, dataOf_dead (hdead name h)⟩
    obtain rfl := h.resolve_left hname
    exact dataOf_data hdat

end Changes

end Libdane.ArrayHeap
