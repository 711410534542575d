import Libdane.Utils.ArrayHeapWrites

/-!
# Calls on the dynamic arrays of a heap

What a client may pass to a call on an array, what the call means on a store of lists, one list for
each live array, and what one write does to the heap and to the store. An element of an array may be
the source of a write.
-/

namespace Libdane.ArrayHeap

open ByteMachine ByteMachine.Exec BlockHeap Splice

variable {α : Type}

/-- What a client passes as `dat`: nothing, elements of its own, or what `at` answers. -/
inductive ArraySource (α : Type) where
  | null
  | caller (elements : List α)
  | element (arr : Option BlockName) (k : UInt64)

inductive WriteKind where
  | memcpyAt (i n : UInt64)
  | appendN (n : UInt64)
  | append
  | insertAt (i : UInt64)

structure ArrayWrite (α : Type) where
  kind : WriteKind
  arr : Option BlockName
  dat : ArraySource α
  realloc : UInt64 → Option BlockName

inductive ArrayCall (α : Type) where
  | create (capacity : UInt64) (mallocArr mallocDat : Option BlockName)
  | destroy (arr : Option BlockName)
  | write (call : ArrayWrite α)

inductive ArrayAnswer where
  | array (arr : Option BlockName)
  | done
  | code (result : Int)

def ArraySource.resolve (heap : ArrayMemory α) : ArraySource α → Exec (Option (Source α))
  | .null => ret none
  | .caller elements => ret (some (.caller elements))
  | .element arr k => do
    let pointer ← libdDarrayAt heap arr k
    ret (pointer.map .element)

def ArrayWrite.run (sizeofType : UInt64) (heap : ArrayMemory α) (call : ArrayWrite α)
    (fuel : Nat) : Exec (Int × ArrayMemory α) := do
  let dat ← call.dat.resolve heap
  match call.kind with
  | .memcpyAt i n => libdDarrayMemcpyAt sizeofType call.realloc heap call.arr i dat n fuel
  | .appendN n => libdDarrayAppendN sizeofType call.realloc heap call.arr dat n fuel
  | .append => libdDarrayAppend sizeofType call.realloc heap call.arr dat fuel
  | .insertAt i => libdDarrayInsertAt sizeofType call.realloc heap call.arr i dat fuel

def ArrayCall.run (sizeofType : UInt64) (heap : ArrayMemory α) (call : ArrayCall α) (fuel : Nat) :
    Exec (ArrayAnswer × ArrayMemory α) :=
  match call with
  | .create capacity mallocArr mallocDat => do
    let (arr, heap) ← libdDarrayCreate sizeofType mallocArr mallocDat heap capacity
    ret (.array arr, heap)
  | .destroy arr => do
    let heap ← libdDarrayDestroy heap arr
    ret (.done, heap)
  | .write call => do
    let (result, heap) ← call.run sizeofType heap fuel
    ret (.code result, heap)

/-- The index that a write goes to, read from the header as the code does. -/
def WriteKind.index (header : DarrayHeader) : WriteKind → UInt64
  | .memcpyAt i _ => i
  | .appendN _ => header.size
  | .append => header.size
  | .insertAt i => i

/-- The same index on the list. -/
def WriteKind.position (contents : List α) : WriteKind → Nat
  | .memcpyAt i _ => i.toNat
  | .appendN _ => contents.length
  | .append => contents.length
  | .insertAt i => i.toNat

def WriteKind.count : WriteKind → UInt64
  | .memcpyAt _ n => n
  | .appendN n => n
  | .append => 1
  | .insertAt _ => 1

def ArraySource.elements (store : Store α) (n : UInt64) : ArraySource α → Option (List α)
  | .null => none
  | .caller elements => some elements
  | .element arr k =>
    (arr.bind store).bind fun contents =>
      if k.toNat < contents.length then some ((contents.drop k.toNat).take n.toNat) else none

def ArrayWrite.elements (store : Store α) (call : ArrayWrite α) : Option (List α) :=
  call.dat.elements store call.kind.count

/-- What a write that succeeds means on lists. -/
def ArrayWrite.effect (store : Store α) (call : ArrayWrite α) : Store α :=
  match call.arr, call.elements store with
  | some arr, some elements =>
    Function.update store arr
      ((store arr).map fun contents => splice contents (call.kind.position contents) elements)
  | _, _ => store

/-- What a call with its answer means on lists. -/
def ArrayCall.effect (store : Store α) : ArrayCall α → ArrayAnswer → Store α
  | .create .., .array (some arr) => Function.update store arr (some [])
  | .destroy (some arr), _ => Function.update store arr none
  | .write call, .code result => if result = 0 then call.effect store else store
  | _, _ => store

/-- A write that gets to the doubling of the capacity: the caller passes as many elements as it says,
no size exceeds the address space, `realloc` answers with the block itself or with a dead one, and
elements of the array itself are passed only where nothing moves or overlaps. -/
structure WriteAllowed (sizeofType : UInt64) (heap : ArrayMemory α) (store : Store α)
    (call : ArrayWrite α) (arr : BlockName) (header : DarrayHeader) (contents : List α) :
    Prop where
  fits : Fits sizeofType (header.withDat (none : Option (DarrayBlock α))) (call.kind.index header)
    call.kind.count
  names : ∀ bytes r, call.realloc bytes = some r → header.dat = some r ∨ heap r = none
  length : ∀ elements, call.elements store = some elements →
    elements.length = call.kind.count.toNat
  self : ∀ k : UInt64, call.dat = .element (some arr) k → k.toNat < contents.length →
    (call.kind.index header).toNat + call.kind.count.toNat ≤ header.capacity.toNat ∧
      ((call.kind.index header).toNat + call.kind.count.toNat ≤ k.toNat ∨
        k.toNat + call.kind.count.toNat ≤ (call.kind.index header).toNat)

def ArrayWrite.Allowed (sizeofType : UInt64) (heap : ArrayMemory α) (store : Store α)
    (call : ArrayWrite α) : Prop :=
  (∀ source k, call.dat = .element (some source) k → (store source).isSome) ∧
    ∀ arr, call.arr = some arr → (store arr).isSome ∧
      ∀ header contents, heap arr = some (.header header) → store arr = some contents →
        (call.elements store).isSome → call.kind.index header ≤ header.size →
          WriteAllowed sizeofType heap store call arr header contents

/-- The allocator answers with the names of dead blocks, and the client names live arrays or
`NULL`. -/
def ArrayCall.Allowed (sizeofType : UInt64) (heap : ArrayMemory α) (store : Store α) :
    ArrayCall α → Prop
  | .create capacity mallocArr mallocDat =>
    (∀ arr, mallocArr = some arr → heap arr = none) ∧
      ∀ dat, mallocDat = some dat → heap dat = none ∧ mallocArr ≠ some dat ∧
        capacity.toNat * sizeofType.toNat < 2 ^ 64
  | .destroy arr => ∀ p, arr = some p → (store p).isSome
  | .write call => call.Allowed sizeofType heap store

section Reading

variable {sizeofType : UInt64} {heap : ArrayMemory α} {store : Store α} {arr : BlockName}
  {header : DarrayHeader} {contents : List α}

theorem Placed.at (h : Placed sizeofType heap arr header contents) {dat : BlockName}
    (hdat : header.dat = some dat) (i : UInt64) :
    libdDarrayAt heap (some arr) i =
        ret (if i.toNat < contents.length then some { block := dat, index := i } else none) ∧
      (i.toNat < contents.length →
        elementAt heap { block := dat, index := i } = contents[i.toNat]?) := by
  obtain ⟨dat', block, hdat', hblock, hholds⟩ := h.data
  obtain rfl : dat' = dat := Option.some.inj (hdat'.symm.trans hdat)
  obtain ⟨hinside, houtside⟩ := hholds.read i
  rw [at_withDat h.found hdat block]
  by_cases hi : i.toNat < contents.length
  · obtain ⟨hat, helement⟩ := hinside hi
    rw [hat, if_pos hi]
    refine ⟨rfl, fun _ => ?_⟩
    rw [← helement]
    simp [elementAt, hblock, LibdDarray.elementAt, DarrayHeader.withDat]
  · rw [houtside (Nat.le_of_not_lt hi), if_neg hi]
    exact ⟨rfl, fun hlt => absurd hlt hi⟩

private theorem HeapInv.apart (h : HeapInv sizeofType heap store) {p q dat : BlockName}
    (hp : dataOf heap p = some dat) (hq : dataOf heap q = some dat) : p = q :=
  h.tiles.apart p q dat ((mem_blocksOf hp).mpr (Or.inr rfl)) ((mem_blocksOf hq).mpr (Or.inr rfl))

theorem header_inj {next : DarrayHeader} (h : heap arr = some (.header header))
    (h' : heap arr = some (.header next)) : header = next := by
  rw [h, Option.some.injEq, ArrayBlock.header.injEq] at h'
  exact h'

theorem ArrayWrite.allowed_of_write {call : ArrayWrite α}
    (hsource : ∀ source k, call.dat = .element (some source) k → (store source).isSome)
    (harr : call.arr = some arr) (hfound : heap arr = some (.header header))
    (hcontents : store arr = some contents)
    (h : WriteAllowed sizeofType heap store call arr header contents) :
    call.Allowed sizeofType heap store := by
  refine ⟨hsource, ?_⟩
  intro p hp
  obtain rfl : arr = p := Option.some.inj (harr.symm.trans hp)
  refine ⟨by rw [hcontents]; rfl, ?_⟩
  intro header' contents' hfound' hcontents' _ _
  obtain rfl := header_inj hfound hfound'
  obtain rfl : contents = contents' := Option.some.inj (hcontents.symm.trans hcontents')
  exact h

private theorem WriteKind.index_eq (h : Placed sizeofType heap arr header contents)
    (kind : WriteKind) :
    (kind.index header).toNat = kind.position contents := by
  obtain ⟨dat, block, -, -, hholds⟩ := h.data
  cases kind with
  | memcpyAt i n => rfl
  | appendN n => exact hholds.size
  | append => exact hholds.size
  | insertAt i => rfl

private theorem ArrayWrite.run_eq {call : ArrayWrite α} {dat : Option (Source α)}
    (harr : call.arr = some arr) (hfound : heap arr = some (.header header))
    (hdat : call.dat.resolve heap = ret dat) (fuel : Nat) :
    call.run sizeofType heap fuel = libdDarrayMemcpyAt sizeofType call.realloc heap (some arr)
      (call.kind.index header) dat call.kind.count fuel := by
  rw [ArrayWrite.run, hdat, ret_bind, harr]
  cases call.kind with
  | memcpyAt i n => rfl
  | appendN n =>
    show libdDarrayAppendN .. = _
    rw [libdDarrayAppendN, loadHeader_eq hfound]
    rfl
  | append =>
    show libdDarrayAppend .. = _
    rw [libdDarrayAppend, libdDarrayAppendN, loadHeader_eq hfound]
    rfl
  | insertAt i => rfl

end Reading

section Write

variable {sizeofType : UInt64} {heap after : ArrayMemory α} {store : Store α} {arr dat : BlockName}
  {header : DarrayHeader} {block : DarrayBlock α} {contents elements : List α}
  {call : ArrayWrite α}

private theorem ArraySource.resolve_none (hinv : HeapInv sizeofType heap store)
    {source : ArraySource α}
    {n : UInt64} (hlive : ∀ p k, source = .element (some p) k → (store p).isSome)
    (helements : source.elements store n = none) : source.resolve heap = ret none := by
  cases source with
  | null => rfl
  | caller elements => cases helements
  | element arr k =>
    cases arr with
    | none => rfl
    | some p =>
      obtain ⟨contents, hcontents⟩ := Option.isSome_iff_exists.mp (hlive p k rfl)
      obtain ⟨header, hplaced⟩ := hinv.placed p contents hcontents
      obtain ⟨dat, block, hdat, -⟩ := hplaced.data
      have hk : ¬k.toNat < contents.length := by
        intro hk
        simp [ArraySource.elements, hcontents, hk] at helements
      rw [ArraySource.resolve, (hplaced.at hdat k).1, if_neg hk]
      rfl

/-- A source with elements serves them. -/
private theorem ArraySource.resolve_some (hinv : HeapInv sizeofType heap store)
    {source : ArraySource α}
    {i n : UInt64} (hheader : heap arr = some (.header header)) (hdat : header.dat = some dat)
    (helements : source.elements store n = some elements)
    (hlength : elements.length = n.toNat)
    (hself : ∀ k, source = .element (some arr) k → ∀ list, store arr = some list →
      k.toNat < list.length → i.toNat + n.toNat ≤ header.capacity.toNat ∧
        (i.toNat + n.toNat ≤ k.toNat ∨ k.toNat + n.toNat ≤ i.toNat)) :
    ∃ pointed, source.resolve heap = ret (some pointed) ∧
      Serves sizeofType heap dat header.capacity i n pointed elements := by
  cases source with
  | null => cases helements
  | caller list =>
    cases helements
    refine ⟨.caller elements, rfl, hlength, ?_, ?_⟩
    · intro other hother
      cases hother
      rfl
    · intro pointer hpointer
      cases hpointer
  | element from? k =>
    cases from? with
    | none => cases helements
    | some p =>
      cases hp : store p with
      | none => simp [ArraySource.elements, hp] at helements
      | some list =>
        by_cases hk : k.toNat < list.length
        · have heq : (list.drop k.toNat).take n.toNat = elements := by
            simpa [ArraySource.elements, hp, hk] using helements
          obtain ⟨header', hplaced⟩ := hinv.placed p list hp
          obtain ⟨dat', block, hdat', hblock, hholds⟩ := hplaced.data
          obtain ⟨b, hb, hbytes, hcells⟩ := hholds.block
          obtain rfl : block = b := Option.some.inj hb
          have hle : k.toNat + n.toNat ≤ list.length := by
            rw [← heq, List.length_take, List.length_drop] at hlength
            omega
          have hcapacity : list.length ≤ header'.capacity.toNat := by
            have hsize : header'.size.toNat = list.length := hholds.size
            have hroom : header'.size.toNat ≤ header'.capacity.toNat :=
              UInt64.le_iff_toNat_le.mp hholds.size_le
            omega
          refine ⟨.element { block := dat', index := k }, ?_, hlength, ?_, ?_⟩
          · rw [ArraySource.resolve, (hplaced.at hdat' k).1, if_pos hk]
            rfl
          · intro other hother
            cases hother
          · intro pointer hpointer
            cases hpointer
            refine ⟨block, hblock, ?_, ?_, ?_⟩
            · rw [hbytes]
              exact Nat.mul_le_mul_right _ (hle.trans hcapacity)
            · intro j hj
              rw [← heq, List.getElem?_take_of_lt hj, List.getElem?_drop]
              exact hcells _ (by show k.toNat + j < list.length; omega)
            · intro hsame
              have hown : p = arr :=
                hinv.apart (dataOf_header hplaced.found ▸ hdat')
                  (by rw [dataOf_header hheader, hdat]; exact congrArg some hsame.symm)
              subst hown
              exact hself k rfl list hp hk
        · simp [ArraySource.elements, hp, hk] at helements

/-- What a write has done that returned zero. -/
inductive Wrote (sizeofType : UInt64) (heap : ArrayMemory α) (store : Store α)
    (call : ArrayWrite α) : ArrayMemory α → Prop where
  | intro (arr dat r : BlockName) (header next : DarrayHeader) (block moved : DarrayBlock α)
      (contents elements : List α) (harr : call.arr = some arr)
      (hcontents : store arr = some contents) (helements : call.elements store = some elements)
      (hfound : heap arr = some (.header header)) (hdat : header.dat = some dat)
      (hblock : heap dat = some (.data block)) (hr : r = dat ∨ heap r = none)
      (hnext : next.dat = some r)
      (hstays : (call.kind.index header).toNat + call.kind.count.toNat ≤ header.capacity.toNat →
        r = dat ∧ next.capacity = header.capacity)
      (hholds : Represents sizeofType (next.withDat (some moved))
        (splice contents (call.kind.position contents) elements)) :
      Wrote sizeofType heap store call (written heap arr dat r next moved)

/-- What a write answers. -/
structure WriteAnswer (sizeofType : UInt64) (heap : ArrayMemory α) (store : Store α)
    (call : ArrayWrite α) (result : Int) : Prop where
  codes : result = 0 ∨ result = -1 ∨ result = -2 ∨ result = -3
  null : result = -3 ↔ call.arr = none ∨ call.elements store = none
  range : result = -2 ↔ ∃ arr contents, call.arr = some arr ∧ store arr = some contents ∧
    call.elements store ≠ none ∧ contents.length < call.kind.position contents
  memory : result = -1 → ∃ arr header bytes, call.arr = some arr ∧
    heap arr = some (.header header) ∧
    header.capacity.toNat * sizeofType.toNat < bytes.toNat ∧ call.realloc bytes = none

private theorem WriteAnswer.of_null (h : call.arr = none ∨ call.elements store = none) :
    WriteAnswer sizeofType heap store call (-3) := by
  constructor
  case codes => simp
  case null => simpa using h
  case range =>
    constructor
    · simp
    · rintro ⟨arr, contents, harr, -, helements, -⟩
      simp [harr, helements] at h
  case memory => simp

private theorem WriteAnswer.of_range (harr : call.arr = some arr)
    (hcontents : store arr = some contents) (helements : call.elements store = some elements)
    (hlt : contents.length < call.kind.position contents) :
    WriteAnswer sizeofType heap store call (-2) := by
  constructor
  case codes => simp
  case null => simp [harr, helements]
  case range =>
    rw [iff_true_left rfl]
    exact ⟨arr, contents, harr, hcontents, by simp [helements], hlt⟩
  case memory => simp

private theorem WriteAnswer.of_doubling (harr : call.arr = some arr)
    (hcontents : store arr = some contents) (helements : call.elements store = some elements)
    (hle : call.kind.position contents ≤ contents.length) {result : Int}
    (hresult : result = 0 ∨ result = -1)
    (hmemory : result = -1 → ∃ arr header bytes, call.arr = some arr ∧
      heap arr = some (.header header) ∧
      header.capacity.toNat * sizeofType.toNat < bytes.toNat ∧ call.realloc bytes = none) :
    WriteAnswer sizeofType heap store call result := by
  constructor
  case codes => exact hresult.elim Or.inl fun h => Or.inr (Or.inl h)
  case null =>
    constructor
    · rcases hresult with rfl | rfl <;> simp
    · simp [harr, helements]
  case range =>
    constructor
    · rcases hresult with rfl | rfl <;> simp
    · rintro ⟨p, list, hp, hlist, -, hlt⟩
      obtain rfl : arr = p := Option.some.inj (harr.symm.trans hp)
      obtain rfl : contents = list := Option.some.inj (hcontents.symm.trans hlist)
      omega
  case memory => exact hmemory

private theorem ArraySource.resolve_ret (hinv : HeapInv sizeofType heap store)
    {source : ArraySource α} (hlive : ∀ p k, source = .element (some p) k → (store p).isSome) :
    ∃ dat, source.resolve heap = ret dat := by
  cases source with
  | null => exact ⟨none, rfl⟩
  | caller list => exact ⟨some (.caller list), rfl⟩
  | element arr k =>
    cases arr with
    | none => exact ⟨none, rfl⟩
    | some p =>
      obtain ⟨list, hlist⟩ := Option.isSome_iff_exists.mp (hlive p k rfl)
      obtain ⟨header, hplaced⟩ := hinv.placed p list hlist
      obtain ⟨dat, block, hdat, -⟩ := hplaced.data
      rw [ArraySource.resolve, (hplaced.at hdat k).1]
      exact ⟨_, rfl⟩

private theorem ArraySource.resolve_source (hinv : HeapInv sizeofType heap store)
    {source : ArraySource α}
    {n : UInt64} (hlive : ∀ p k, source = .element (some p) k → (store p).isSome)
    (helements : source.elements store n = some elements) :
    ∃ pointed, source.resolve heap = ret (some pointed) := by
  cases source with
  | null => cases helements
  | caller list => exact ⟨.caller list, rfl⟩
  | element arr k =>
    cases arr with
    | none => cases helements
    | some p =>
      obtain ⟨list, hlist⟩ := Option.isSome_iff_exists.mp (hlive p k rfl)
      obtain ⟨header, hplaced⟩ := hinv.placed p list hlist
      obtain ⟨dat, block, hdat, -⟩ := hplaced.data
      have hk : k.toNat < list.length := by
        by_contra hk
        simp [ArraySource.elements, hlist, hk] at helements
      refine ⟨.element { block := dat, index := k }, ?_⟩
      rw [ArraySource.resolve, (hplaced.at hdat k).1, if_pos hk]
      rfl

/-- What an allowed write does: it answers, and changes nothing unless it has written. -/
def Outcome (sizeofType : UInt64) (heap : ArrayMemory α) (store : Store α) (call : ArrayWrite α) :
    Prop :=
  ∃ result after, Converges (call.run sizeofType heap) (result, after) ∧
    WriteAnswer sizeofType heap store call result ∧ (result ≠ 0 → after = heap) ∧
    (result = 0 → Wrote sizeofType heap store call after)

private theorem outcome_null (hinv : HeapInv sizeofType heap store)
    (hlive : ∀ p k, call.dat = .element (some p) k → (store p).isSome)
    (harr : call.arr = none) : Outcome sizeofType heap store call := by
  obtain ⟨dat, hdat⟩ := ArraySource.resolve_ret hinv hlive
  refine ⟨-3, heap, ⟨0, ?_⟩, .of_null (Or.inl harr), fun _ => rfl, by simp⟩
  intro fuel _
  rw [ArrayWrite.run, hdat, ret_bind, harr]
  cases call.kind <;> rfl

private theorem outcome_live (hsizeof : 1 ≤ sizeofType.toNat) (hinv : HeapInv sizeofType heap store)
    (hlive : ∀ p k, call.dat = .element (some p) k → (store p).isSome)
    (harr : call.arr = some arr) (hcontents : store arr = some contents)
    (hplaced : Placed sizeofType heap arr header contents)
    (hallowed : (call.elements store).isSome → call.kind.index header ≤ header.size →
      WriteAllowed sizeofType heap store call arr header contents) :
    Outcome sizeofType heap store call := by
  obtain ⟨dat, block, hdat, hblock, hholds⟩ := hplaced.data
  have hindex := WriteKind.index_eq hplaced call.kind
  have hsize : header.size.toNat = contents.length := hholds.size
  cases helements : call.elements store with
  | none =>
    have hresolve := ArraySource.resolve_none hinv hlive helements
    refine ⟨-3, heap, ⟨0, ?_⟩, .of_null (Or.inr helements), fun _ => rfl, by simp⟩
    intro fuel _
    rw [ArrayWrite.run_eq harr hplaced.found hresolve, libdDarrayMemcpyAt,
      loadHeader_eq hplaced.found, ret_bind, hdat]
  | some elements =>
    by_cases hi : call.kind.index header > header.size
    · have hlt := UInt64.lt_iff_toNat_lt.mp hi
      obtain ⟨pointed, hresolve⟩ := ArraySource.resolve_source hinv hlive helements
      refine ⟨-2, heap, ⟨0, ?_⟩, .of_range harr hcontents helements (by omega), fun _ => rfl,
        by simp⟩
      intro fuel _
      rw [ArrayWrite.run_eq harr hplaced.found hresolve, libdDarrayMemcpyAt,
        loadHeader_eq hplaced.found, ret_bind, hdat]
      exact if_pos hi
    · have hinside := UInt64.le_iff_toNat_le.mp (UInt64.not_lt.mp hi)
      have hok := hallowed (by rw [helements]; rfl) (UInt64.not_lt.mp hi)
      have hself : ∀ k, call.dat = .element (some arr) k → ∀ list, store arr = some list →
          k.toNat < list.length →
          (call.kind.index header).toNat + call.kind.count.toNat ≤ header.capacity.toNat ∧
            ((call.kind.index header).toNat + call.kind.count.toNat ≤ k.toNat ∨
              k.toNat + call.kind.count.toNat ≤ (call.kind.index header).toNat) := by
        intro k hk list hlist hin
        obtain rfl : contents = list := Option.some.inj (hcontents.symm.trans hlist)
        exact hok.self k hk hin
      obtain ⟨pointed, hresolve, hserves⟩ := ArraySource.resolve_some hinv hplaced.found hdat
        helements (hok.length elements helements) hself
      have hrun : ∀ fuel, call.run sizeofType heap fuel = libdDarrayMemcpyAt sizeofType
          call.realloc heap (some arr) (call.kind.index header) (some pointed) call.kind.count
          fuel := ArrayWrite.run_eq harr hplaced.found hresolve
      have hnames : ∀ bytes r, call.realloc bytes = some r → r = dat ∨ heap r = none := by
        intro bytes r hr
        have hr' := hok.names bytes r hr
        rw [hdat, Option.some.injEq] at hr'
        exact hr'.imp_left Eq.symm
      have hconverges : ∀ {answer}, Converges (libdDarrayMemcpyAt sizeofType call.realloc heap
          (some arr) (call.kind.index header) (some pointed) call.kind.count) answer →
          Converges (call.run sizeofType heap) answer := by
        rintro answer ⟨enough, hconv⟩
        exact ⟨enough, fun fuel hfuel => (hrun fuel).trans (hconv fuel hfuel)⟩
      have hle : call.kind.position contents ≤ contents.length := by omega
      rcases memcpyAt_placed hsizeof hplaced.found hdat hblock hholds (UInt64.not_lt.mp hi)
        hserves hok.fits hnames with ⟨hconv, bytes, hlarger, hrefused⟩ | hwrites
      · refine ⟨-1, heap, hconverges hconv, ?_, fun _ => rfl, by simp⟩
        exact .of_doubling harr hcontents helements hle (Or.inr rfl)
          fun _ => ⟨arr, header, bytes, harr, hplaced.found, hlarger, hrefused⟩
      · obtain ⟨r, next, moved, hconv, hnext, hr, hstays, hafter⟩ := hwrites
        rw [hindex] at hafter
        refine ⟨0, _, hconverges hconv, ?_, by simp, fun _ => ?_⟩
        · exact .of_doubling harr hcontents helements hle (Or.inl rfl) (by simp)
        · exact ⟨arr, dat, r, header, next, block, moved, contents, elements, harr, hcontents,
            helements, hplaced.found, hdat, hblock, hr, hnext, hstays, hafter⟩

theorem ArrayWrite.outcome (hsizeof : 1 ≤ sizeofType.toNat) (hinv : HeapInv sizeofType heap store)
    (hallowed : call.Allowed sizeofType heap store) : Outcome sizeofType heap store call := by
  obtain ⟨hlive, htarget⟩ := hallowed
  cases harr : call.arr with
  | none => exact outcome_null hinv hlive harr
  | some arr =>
    obtain ⟨hsome, hwrite⟩ := htarget arr harr
    obtain ⟨contents, hcontents⟩ := Option.isSome_iff_exists.mp hsome
    obtain ⟨header, hplaced⟩ := hinv.placed arr contents hcontents
    exact outcome_live hsizeof hinv hlive harr hcontents hplaced
      (hwrite header contents hplaced.found hcontents)

private theorem HeapInv.written (hinv : HeapInv sizeofType heap store) {r : BlockName}
    (next : DarrayHeader) {moved : DarrayBlock α} (hfound : heap arr = some (.header header))
    (hdat : header.dat = some dat) (hblock : heap dat = some (.data block))
    (hr : r = dat ∨ heap r = none) (hnext : next.dat = some r)
    (hholds : Represents sizeofType (next.withDat (some moved)) contents) :
    HeapInv sizeofType (ArrayHeap.written heap arr dat r next moved)
      (Function.update store arr (some contents)) := by
  have hrarr := ne_of_moved hfound hblock hr
  apply hinv.replace (swaps_written hfound hdat hblock hr hnext)
  · intro list hlist
    cases hlist
    exact ⟨next, written_arr .., r, moved, hnext, written_r hrarr, hholds⟩
  · intro _
    rfl

theorem HeapInv.replaced (hinv : HeapInv sizeofType heap store) {r : BlockName}
    {after : LibdDarray α} (hfound : heap arr = some (.header header))
    (hdat : header.dat = some dat) (hblock : heap dat = some (.data block))
    (hr : r = dat ∨ heap r = none) (hholds : Represents sizeofType after contents) :
    HeapInv sizeofType (ArrayHeap.replaced heap arr dat r after)
      (Function.update store arr (some contents)) := by
  obtain ⟨moved, hmoved, -⟩ := hholds.block
  obtain ⟨capacity, size, dat'⟩ := after
  cases hmoved
  exact hinv.written { capacity := capacity, size := size, dat := some r } hfound hdat hblock hr rfl
    hholds

theorem Wrote.inv (h : Wrote sizeofType heap store call after)
    (hinv : HeapInv sizeofType heap store) :
    HeapInv sizeofType after (call.effect store) := by
  cases h with
  | intro arr dat r header next block moved contents elements harr hcontents helements hfound hdat
      hblock hr hnext hstays hholds =>
    have heffect : call.effect store = Function.update store arr
        (some (splice contents (call.kind.position contents) elements)) := by
      simp [ArrayWrite.effect, harr, helements, hcontents]
    rw [heffect]
    exact hinv.written next hfound hdat hblock hr hnext hholds

end Write

end Libdane.ArrayHeap
