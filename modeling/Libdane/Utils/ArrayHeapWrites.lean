import Libdane.Utils.ArrayHeap

/-!
# Writes to an array in a heap

A call on an array in the heap is the call on the array with its block, and the heap holds the
answer's block where the old one was. A source may lie in the heap, and then the copy must not move
or overlap it.
-/

namespace Libdane.ArrayHeap

open ByteMachine ByteMachine.Exec BlockHeap Splice

variable {α : Type}

/-- The source gives these elements, also after the data block at `dat` has moved. -/
structure Serves (sizeofType : UInt64) (heap : ArrayMemory α) (dat : BlockName)
    (capacity i n : UInt64) (source : Source α) (elements : List α) : Prop where
  length : elements.length = n.toNat
  caller : ∀ list, source = .caller list → list = elements
  element : ∀ pointer, source = .element pointer →
    ∃ block, heap pointer.block = some (.data block) ∧
      (pointer.index.toNat + n.toNat) * sizeofType.toNat ≤ block.bytes.toNat ∧
      (∀ j < n.toNat, block.cells (pointer.index.toNat + j) = elements[j]?) ∧
      (pointer.block = dat → i.toNat + n.toNat ≤ capacity.toNat ∧
        (i.toNat + n.toNat ≤ pointer.index.toNat ∨ pointer.index.toNat + n.toNat ≤ i.toNat))

private theorem memcpy_eq {sizeofType i length : UInt64} {b : DarrayBlock α} {elements : List α}
    {readable : Readable α} (hbytes : length.toNat ≤ readable.bytes)
    (hlist : length.toNat ≤ elements.length * sizeofType.toNat)
    (hcells : ∀ j < length.toNat / sizeofType.toNat, readable.cells j = elements[j]?) :
    memcpy sizeofType b i readable length = b.memcpy sizeofType i elements length := by
  rw [memcpy, DarrayBlock.memcpy]
  by_cases hroom : i.toNat * sizeofType.toNat + length.toNat ≤ b.bytes.toNat
  · rw [if_pos ⟨hroom, hbytes⟩, if_pos ⟨hroom, hlist⟩]
    dsimp only
    congr 2
    funext j
    by_cases hin : i.toNat ≤ j ∧ j < i.toNat + length.toNat / sizeofType.toNat
    · rw [if_pos hin, if_pos hin, hcells (j - i.toNat) (by omega)]
    · rw [if_neg hin, if_neg hin]
  · rw [if_neg fun h => hroom h.1, if_neg fun h => hroom h.1]

section Calls

variable {sizeofType : UInt64} {heap : ArrayMemory α} {arr dat r : BlockName}
  {header : DarrayHeader} {block : DarrayBlock α} {contents elements : List α} {i n : UInt64}
  {source : Source α} {realloc : UInt64 → Option BlockName}

theorem loadHeader_eq (h : heap arr = some (.header header)) :
    loadHeader heap arr = ret header := by
  rw [loadHeader, load_eq_ret.mpr h]
  rfl

private theorem loadData_eq (h : heap dat = some (.data block)) :
    loadData heap dat = ret block := by
  rw [loadData, load_eq_ret.mpr h]
  rfl

/-- A source that serves its elements can be read, and does not overlap the target. -/
private theorem Serves.read {capacity : UInt64}
    (h : Serves sizeofType heap dat capacity i n source elements)
    (hword : n.toNat * sizeofType.toNat < 2 ^ 64) (hsizeof : 1 ≤ sizeofType.toNat) :
    source.overlaps sizeofType dat i (n * sizeofType) = false ∧
      ∃ readable, source.read sizeofType heap = ret readable ∧
        (n * sizeofType).toNat ≤ readable.bytes ∧
        ∀ j < (n * sizeofType).toNat / sizeofType.toNat, readable.cells j = elements[j]? := by
  have hlength : (n * sizeofType).toNat = n.toNat * sizeofType.toNat := by
    rw [UInt64.toNat_mul, Nat.mod_eq_of_lt hword]
  have hwhole : n.toNat * sizeofType.toNat / sizeofType.toNat = n.toNat :=
    Nat.mul_div_cancel _ hsizeof
  rw [hlength, hwhole]
  cases source with
  | caller list =>
    obtain rfl := h.caller list rfl
    refine ⟨rfl, _, rfl, ?_, fun j _ => rfl⟩
    rw [h.length]
  | element pointer =>
    obtain ⟨block, hblock, hbytes, hcells, happart⟩ := h.element pointer rfl
    constructor
    · by_cases hsame : pointer.block = dat
      · have hapart := (happart hsame).2
        have hmono := fun {x y : Nat} (hxy : x ≤ y) =>
          Nat.mul_le_mul_right sizeofType.toNat hxy
        rw [Source.overlaps, hlength, Bool.and_eq_false_iff]
        right
        rw [decide_eq_false_iff_not]
        rcases hapart with hlow | hhigh
        · have hle := hmono hlow
          rw [Nat.add_mul] at hle
          omega
        · have hle := hmono hhigh
          rw [Nat.add_mul] at hle
          omega
      · simp [Source.overlaps, hsame]
    · refine ⟨⟨fun j => block.cells (pointer.index.toNat + j),
        block.bytes.toNat - pointer.index.toNat * sizeofType.toNat⟩, ?_, ?_, hcells⟩
      · rw [Source.read, loadData_eq hblock]
        rfl
      · rw [Nat.add_mul] at hbytes
        show _ ≤ block.bytes.toNat - pointer.index.toNat * sizeofType.toNat
        omega

private theorem written_same (heap : ArrayMemory α) (arr dat : BlockName) (header : DarrayHeader)
    (block : DarrayBlock α) :
    malloc (malloc heap dat (.data block)) arr (.header header) =
      written heap arr dat dat header block := by
  rw [written, malloc, malloc, malloc, malloc, Function.update_idem]

private theorem written_again (heap : ArrayMemory α) (arr dat r : BlockName)
    (next last : DarrayHeader) (moved final : DarrayBlock α) :
    malloc (malloc (written heap arr dat r next moved) r (.data final)) arr (.header last) =
      written heap arr dat r last final := by
  funext name
  by_cases harr : name = arr
  · simp [written, malloc, harr]
  · by_cases hr : name = r
    · subst hr
      simp [written, malloc, harr]
    · simp [written, malloc, harr, hr]

theorem replaced_again (heap : ArrayMemory α) (arr dat r : BlockName) (next : DarrayHeader)
    (moved : DarrayBlock α) {a : LibdDarray α} (ha : a.dat ≠ none) :
    replaced (written heap arr dat r next moved) arr r r a = replaced heap arr dat r a := by
  obtain ⟨capacity, size, dat'⟩ := a
  cases dat' with
  | none => exact absurd rfl ha
  | some block => exact (written_same ..).symm.trans (written_again ..)

private theorem replaced_self (harr : heap arr = some (.header header))
    (hheader : header.dat = some dat) (hdat : heap dat = some (.data block)) :
    replaced heap arr dat dat (header.withDat (some block)) = heap := by
  have hsame : ({ capacity := header.capacity, size := header.size, dat := some dat } :
      DarrayHeader) = header := by rw [← hheader]
  show written heap arr dat dat { capacity := header.capacity, size := header.size, dat := some dat }
    block = heap
  rw [hsame, ← written_same, malloc, malloc, ← hdat, Function.update_eq_self, ← harr,
    Function.update_eq_self]

private theorem copyIn_withDat (harr : heap arr = some (.header header))
    (hheader : header.dat = some dat) (hdat : heap dat = some (.data block)) (elements : List α) :
    copyIn sizeofType heap arr header dat i (.caller elements) n =
      map (fun r => (r.result, replaced heap arr dat dat r.arr))
        (Libdane.copyIn sizeofType (header.withDat (some block)) block i elements n) := by
  have hlive : (heap dat).isSome := by simp [hdat]
  have harrlive : ∀ after, (malloc heap dat (.data after) arr).isSome := by
    intro after
    rw [malloc_of_ne (ne_of_header_of_data harr hdat).symm, harr]
    rfl
  have hmemcpy : ∀ readable : Readable α, readable =
      { cells := fun j => elements[j]?, bytes := elements.length * sizeofType.toNat } →
        memcpy sizeofType block i readable (n * sizeofType) =
          block.memcpy sizeofType i elements (n * sizeofType) := by
    rintro readable rfl
    rfl
  rw [copyIn, Source.overlaps, if_neg Bool.false_ne_true, Source.read, ret_bind, loadData_eq hdat,
    ret_bind, hmemcpy _ rfl, Libdane.copyIn, map_bind]
  cases block.memcpy sizeofType i elements (n * sizeofType) with
  | ret after =>
    rw [ret_bind, ret_bind, store_live hlive, ret_bind, map_ret]
    dsimp only
    rw [store_live (harrlive after), ret_bind, written_same, hheader]
    rfl
  | fault | outOfFuel => rfl

private theorem copyIn_serves {capacity : UInt64} (hsizeof : 1 ≤ sizeofType.toNat)
    (hword : n.toNat * sizeofType.toNat < 2 ^ 64)
    (hserves : Serves sizeofType heap dat capacity i n source elements) :
    copyIn sizeofType heap arr header dat i source n =
      copyIn sizeofType heap arr header dat i (.caller elements) n := by
  obtain ⟨hoverlap, readable, hread, hbytes, hcells⟩ := hserves.read hword hsizeof
  have hlist : (n * sizeofType).toNat ≤ elements.length * sizeofType.toNat := by
    rw [UInt64.toNat_mul, Nat.mod_eq_of_lt hword, hserves.length]
  have hsame : ∀ b : DarrayBlock α, memcpy sizeofType b i readable (n * sizeofType) =
      memcpy sizeofType b i
        { cells := fun j => elements[j]?, bytes := elements.length * sizeofType.toNat }
        (n * sizeofType) := by
    intro b
    rw [memcpy_eq hbytes hlist hcells, memcpy_eq hlist hlist fun _ _ => rfl]
  rw [copyIn, copyIn, hoverlap, Source.overlaps, if_neg Bool.false_ne_true,
    if_neg Bool.false_ne_true, hread, Source.read, ret_bind, ret_bind]
  simp only [hsame]

theorem copyIn_placed (hsizeof : 1 ≤ sizeofType.toNat)
    (harr : heap arr = some (.header header)) (hheader : header.dat = some dat)
    (hdat : heap dat = some (.data block))
    (hholds : Represents sizeofType (header.withDat (some block)) contents)
    (hword : header.capacity.toNat * sizeofType.toNat < 2 ^ 64)
    (hroom : i.toNat + n.toNat ≤ header.capacity.toNat) (hi : i ≤ header.size)
    (hserves : Serves sizeofType heap dat header.capacity i n source elements) :
    ∃ after, copyIn sizeofType heap arr header dat i source n =
        ret (0, replaced heap arr dat dat after) ∧
      Represents sizeofType after (splice contents i.toNat elements) := by
  have hcount : n.toNat * sizeofType.toNat < 2 ^ 64 :=
    (Nat.mul_le_mul_right _ (by omega)).trans_lt hword
  obtain ⟨after, hcopy, hafter, -⟩ := copyIn_represents hsizeof hholds rfl hword hroom hi
    hserves.length
  refine ⟨after, ?_, hafter⟩
  rw [copyIn_serves hsizeof hcount hserves, copyIn_withDat harr hheader hdat, hcopy, map_ret]

private theorem FindsCapacity.same {arr : LibdDarray α} {newCap : UInt64}
    (h : FindsCapacity sizeofType arr i n newCap)
    (hfits : i.toNat + n.toNat ≤ arr.capacity.toNat) : newCap = arr.capacity := by
  obtain ⟨enough, hloop⟩ := h.loop
  have hsum : i + n ≤ arr.capacity := by
    have hlt := arr.capacity.toNat_lt
    rw [UInt64.le_iff_toNat_le, UInt64.toNat_add, Nat.mod_eq_of_lt (by omega)]
    exact hfits
  have hdone := double_done hsum (enough + 1) (by omega)
  rw [hloop (enough + 1) (by omega)] at hdone
  cases hdone
  rfl

private theorem Serves.moved {capacity newCap : UInt64} {next : DarrayHeader}
    {fresh : DarrayBlock α} (h : Serves sizeofType heap dat capacity i n source elements)
    (harr : heap arr = some (.header header)) (hr : r = dat ∨ heap r = none)
    (hgrows : ¬i.toNat + n.toNat ≤ capacity.toNat) :
    Serves sizeofType (written heap arr dat r next fresh) r newCap i n source elements := by
  refine ⟨h.length, h.caller, ?_⟩
  intro pointer hpointer
  obtain ⟨block, hblock, hbytes, hcells, happart⟩ := h.element pointer hpointer
  have hdat : pointer.block ≠ dat := fun he => hgrows (happart he).1
  have hne : pointer.block ≠ r := by
    rintro rfl
    rcases hr with he | hdead
    · exact hdat he
    · rw [hblock] at hdead
      cases hdead
  refine ⟨block, ?_, hbytes, hcells, fun he => absurd he hne⟩
  rw [written_other (ne_of_header_of_data harr hblock) hdat hne, hblock]

/-- Behind the doubling `memcpy_at` copies into the block that it has, into the one that `realloc`
gives, or it has found no memory. -/
theorem memcpyAt_kept {fuel : Nat} (harr : heap arr = some (.header header))
    (hheader : header.dat = some dat) (hi : i ≤ header.size)
    (hloop : loop (doubleBody (i + n)) fuel header.capacity = ret header.capacity) :
    libdDarrayMemcpyAt sizeofType realloc heap (some arr) i (some source) n fuel =
      copyIn sizeofType heap arr header dat i source n := by
  rw [libdDarrayMemcpyAt, loadHeader_eq harr, ret_bind, hheader]
  dsimp only
  rw [if_neg (UInt64.not_lt.mpr hi), hloop, ret_bind, bne_self_eq_false,
    if_neg Bool.false_ne_true]

theorem memcpyAt_refused {newCap : UInt64} {fuel : Nat} (harr : heap arr = some (.header header))
    (hheader : header.dat = some dat) (hi : i ≤ header.size)
    (hloop : loop (doubleBody (i + n)) fuel header.capacity = ret newCap)
    (hnew : newCap ≠ header.capacity) (hrealloc : realloc (newCap * sizeofType) = none) :
    libdDarrayMemcpyAt sizeofType realloc heap (some arr) i (some source) n fuel =
      ret (-1, heap) := by
  have hne : (newCap != header.capacity) = true := by simpa using hnew
  rw [libdDarrayMemcpyAt, loadHeader_eq harr, ret_bind, hheader]
  dsimp only
  rw [if_neg (UInt64.not_lt.mpr hi), hloop, ret_bind, if_pos hne, hrealloc]

theorem memcpyAt_moved {newCap : UInt64} {fuel : Nat} (harr : heap arr = some (.header header))
    (hheader : header.dat = some dat) (hdat : heap dat = some (.data block)) (hr : r ≠ arr)
    (hi : i ≤ header.size)
    (hloop : loop (doubleBody (i + n)) fuel header.capacity = ret newCap)
    (hnew : newCap ≠ header.capacity) (hrealloc : realloc (newCap * sizeofType) = some r) :
    libdDarrayMemcpyAt sizeofType realloc heap (some arr) i (some source) n fuel =
      copyIn sizeofType
        (written heap arr dat r { header with dat := some r, capacity := newCap }
          (block.realloc sizeofType (newCap * sizeofType)))
        arr { header with dat := some r, capacity := newCap } r i source n := by
  have hne : (newCap != header.capacity) = true := by simpa using hnew
  have hlive : (heap dat).isSome := by simp [hdat]
  have harrlive : ∀ fresh, (malloc (Function.update heap dat none) r (.data fresh) arr).isSome := by
    intro fresh
    rw [malloc_of_ne hr.symm, Function.update_of_ne (ne_of_header_of_data harr hdat).symm, harr]
    rfl
  rw [libdDarrayMemcpyAt, loadHeader_eq harr, ret_bind, hheader]
  dsimp only
  rw [if_neg (UInt64.not_lt.mpr hi), hloop, ret_bind, if_pos hne, hrealloc]
  dsimp only
  rw [loadData_eq hdat, ret_bind, free_live hlive, ret_bind, store_live (harrlive _), ret_bind]
  rfl

/-- Where the data is once the array has this capacity. -/
def dataAfter (sizeofType : UInt64) (realloc : UInt64 → Option BlockName) (header : DarrayHeader)
    (dat : BlockName) (capacity : UInt64) : BlockName :=
  if capacity = header.capacity then dat else (realloc (capacity * sizeofType)).getD dat

private theorem replaced_unchanged (harr : heap arr = some (.header header))
    (hheader : header.dat = some dat) (hdat : heap dat = some (.data block)) :
    replaced heap arr dat (dataAfter sizeofType realloc header dat header.capacity)
      (header.withDat (some block)) = heap := by
  rw [dataAfter, if_pos rfl]
  exact replaced_self harr hheader hdat

private theorem copyIn_shape {a : LibdDarray α} {b : DarrayBlock α} {list : List α}
    {answer : DarrayReturn α} (h : Libdane.copyIn sizeofType a b i list n = ret answer) :
    answer.arr.capacity = a.capacity ∧ answer.arr.dat ≠ none := by
  obtain ⟨after, -, hret⟩ := eq_ret_of_bind h
  cases hret
  exact ⟨rfl, Option.some_ne_none _⟩

/-- `memcpy_at` in the heap is `memcpy_at` on the array with its block, whatever the sizes are. -/
theorem memcpyAt_withDat (harr : heap arr = some (.header header))
    (hheader : header.dat = some dat) (hdat : heap dat = some (.data block))
    (hnames : ∀ bytes r, realloc bytes = some r → r ≠ arr) (list : Option (List α)) (fuel : Nat) :
    libdDarrayMemcpyAt sizeofType realloc heap (some arr) i (list.map .caller) n fuel =
      map (fun r => (r.result,
          replaced heap arr dat (dataAfter sizeofType realloc header dat r.arr.capacity) r.arr))
        (Libdane.libdDarrayMemcpyAt sizeofType (fun bytes => (realloc bytes).isSome)
          (header.withDat (some block)) false i list n fuel) := by
  have hself := @replaced_unchanged _ sizeofType _ _ _ _ _ realloc harr hheader hdat
  cases list with
  | none =>
    rw [Option.map_none, libdDarrayMemcpyAt, loadHeader_eq harr, ret_bind, hheader, memcpyAt_null,
      map_ret]
    exact congrArg (fun h => ret (-3, h)) hself.symm
  | some list =>
    rw [Option.map_some, memcpyAt_eq _ _ rfl]
    by_cases hi : i > header.size
    · rw [if_pos (show i > (header.withDat (some block)).size from hi), map_ret,
        libdDarrayMemcpyAt, loadHeader_eq harr, ret_bind, hheader]
      dsimp only
      rw [if_pos hi]
      exact congrArg (fun h => ret (-2, h)) hself.symm
    · rw [if_neg (show ¬i > (header.withDat (some block)).size from hi), map_bind]
      change _ = loop (doubleBody (i + n)) fuel header.capacity >>= _
      cases hloop : loop (doubleBody (i + n)) fuel header.capacity with
      | fault | outOfFuel =>
        rw [libdDarrayMemcpyAt, loadHeader_eq harr, ret_bind, hheader]
        dsimp only
        rw [if_neg hi, hloop]
        rfl
      | ret newCap =>
        rw [ret_bind]
        by_cases hnew : newCap = header.capacity
        · subst hnew
          rw [memcpyAt_kept harr hheader (UInt64.not_lt.mp hi) hloop,
            copyIn_withDat harr hheader hdat]
          rw [if_neg (by simp [DarrayHeader.withDat])]
          apply map_congr_of_ret
          intro answer hanswer
          rw [dataAfter, if_pos (show answer.arr.capacity = header.capacity from
            (copyIn_shape hanswer).1)]
        · have hne : (newCap != header.capacity) = true := by simpa using hnew
          rw [if_pos (show (newCap != (header.withDat (some block)).capacity) = true from hne)]
          cases hrealloc : realloc (newCap * sizeofType) with
          | none =>
            rw [memcpyAt_refused harr hheader (UInt64.not_lt.mp hi) hloop hnew hrealloc,
              if_pos (by simp), map_ret]
            exact congrArg (fun h => ret (-1, h)) hself.symm
          | some r =>
            have hr := hnames _ r hrealloc
            rw [memcpyAt_moved harr hheader hdat hr (UInt64.not_lt.mp hi) hloop hnew hrealloc,
              copyIn_withDat (written_arr ..) rfl (written_r hr), if_neg (by simp)]
            apply map_congr_of_ret
            intro answer hanswer
            obtain ⟨hcapacity, hblock⟩ := copyIn_shape hanswer
            have hcapacity : answer.arr.capacity = newCap := hcapacity
            rw [replaced_again _ _ _ _ _ _ hblock, dataAfter, hcapacity, if_neg hnew, hrealloc,
              Option.getD_some]

private theorem memcpyAt_serves {newCap : UInt64} (hsizeof : 1 ≤ sizeofType.toNat)
    (harr : heap arr = some (.header header)) (hheader : header.dat = some dat)
    (hdat : heap dat = some (.data block)) (hi : i ≤ header.size)
    (hserves : Serves sizeofType heap dat header.capacity i n source elements)
    (hcap : FindsCapacity sizeofType (header.withDat (some block)) i n newCap)
    (hnames : ∀ bytes r, realloc bytes = some r → r = dat ∨ heap r = none) {fuel : Nat}
    (hloop : loop (doubleBody (i + n)) fuel header.capacity = ret newCap) :
    libdDarrayMemcpyAt sizeofType realloc heap (some arr) i (some source) n fuel =
      libdDarrayMemcpyAt sizeofType realloc heap (some arr) i (some (.caller elements)) n fuel := by
  have hcount : n.toNat * sizeofType.toNat < 2 ^ 64 :=
    (Nat.mul_le_mul_right _ ((Nat.le_add_left _ _).trans hcap.room)).trans_lt hcap.word
  by_cases hnew : newCap = header.capacity
  · subst hnew
    rw [memcpyAt_kept harr hheader hi hloop, memcpyAt_kept harr hheader hi hloop]
    exact copyIn_serves hsizeof hcount hserves
  · cases hrealloc : realloc (newCap * sizeofType) with
    | none =>
      rw [memcpyAt_refused harr hheader hi hloop hnew hrealloc,
        memcpyAt_refused harr hheader hi hloop hnew hrealloc]
    | some r =>
      have hr := hnames _ r hrealloc
      have hrarr := ne_of_moved harr hdat hr
      rw [memcpyAt_moved harr hheader hdat hrarr hi hloop hnew hrealloc,
        memcpyAt_moved harr hheader hdat hrarr hi hloop hnew hrealloc]
      have hmoved := @Serves.moved _ _ _ _ _ _ _ _ _ _ _ _ newCap
        { header with dat := some r, capacity := newCap }
        (block.realloc sizeofType (newCap * sizeofType)) hserves harr hr
        fun hle => hnew (FindsCapacity.same hcap hle)
      exact copyIn_serves hsizeof hcount hmoved

/-- A call on a live array with a source refuses for want of memory, or writes the elements over the
contents. It moves the data block only when the request does not fit. -/
theorem memcpyAt_placed (hsizeof : 1 ≤ sizeofType.toNat)
    (harr : heap arr = some (.header header)) (hheader : header.dat = some dat)
    (hdat : heap dat = some (.data block))
    (hholds : Represents sizeofType (header.withDat (some block)) contents)
    (hi : i ≤ header.size)
    (hserves : Serves sizeofType heap dat header.capacity i n source elements)
    (hfits : Fits sizeofType (header.withDat (some block)) i n)
    (hnames : ∀ bytes r, realloc bytes = some r → r = dat ∨ heap r = none) :
    (Converges (libdDarrayMemcpyAt sizeofType realloc heap (some arr) i (some source) n) (-1, heap) ∧
      ∃ bytes, header.capacity.toNat * sizeofType.toNat < bytes.toNat ∧ realloc bytes = none) ∨
    ∃ r next after, Converges (libdDarrayMemcpyAt sizeofType realloc heap (some arr) i (some source)
        n) (0, written heap arr dat r next after) ∧
      next.dat = some r ∧ (r = dat ∨ heap r = none) ∧
      (i.toNat + n.toNat ≤ header.capacity.toNat → r = dat ∧ next.capacity = header.capacity) ∧
      Represents sizeofType (next.withDat (some after)) (splice contents i.toNat elements) := by
  obtain ⟨newCap, hcap⟩ := hfits.findsCapacity hsizeof hholds.capacity_pos
  obtain ⟨enough, hloop⟩ := hcap.loop
  -- the call is the one on the array with its block
  have hconverges : ∀ {answer : DarrayReturn α}, Converges (Libdane.libdDarrayMemcpyAt sizeofType
      (fun bytes => (realloc bytes).isSome) (header.withDat (some block)) false i (some elements) n)
      answer → Converges (libdDarrayMemcpyAt sizeofType realloc heap (some arr) i (some source) n)
        (answer.result, replaced heap arr dat
          (dataAfter sizeofType realloc header dat answer.arr.capacity) answer.arr) := by
    rintro answer ⟨enough', hanswer⟩
    refine ⟨max enough enough', ?_⟩
    intro fuel hfuel
    have hvalue := @memcpyAt_withDat _ sizeofType _ _ _ _ _ i n _ harr hheader hdat
      (fun bytes r h => ne_of_moved harr hdat (hnames bytes r h)) (some elements) fuel
    rw [memcpyAt_serves hsizeof harr hheader hdat hi hserves hcap hnames
      (hloop fuel ((le_max_left _ _).trans hfuel))]
    rw [Option.map_some, hanswer fuel ((le_max_right _ _).trans hfuel), map_ret] at hvalue
    exact hvalue
  by_cases hgranted : newCap = header.capacity ∨ (realloc (newCap * sizeofType)).isSome = true
  · right
    obtain ⟨after, hconv, hafter, hcapacity⟩ := @FindsCapacity.writes _ _ _ _ _
      (fun bytes => (realloc bytes).isSome) _ _ _ hcap hsizeof hholds hi hserves.length hgranted
    obtain ⟨moved, hmoved, -⟩ := hafter.block
    obtain ⟨capacity, size, dat'⟩ := after
    cases hmoved
    cases hcapacity
    refine ⟨_, _, _, hconverges hconv, rfl, ?_, ?_, hafter⟩
    · rw [dataAfter]
      split
      case isTrue => exact Or.inl rfl
      case isFalse hnew =>
        obtain ⟨r, hr⟩ := Option.isSome_iff_exists.mp (hgranted.resolve_left hnew)
        rw [hr]
        exact hnames _ r hr
    · intro hle
      have hsame := FindsCapacity.same hcap hle
      exact ⟨if_pos hsame, hsame⟩
  · left
    rw [not_or, Bool.not_eq_true] at hgranted
    obtain ⟨hconv, hlarger⟩ := @FindsCapacity.refuses _ _ _ _ _
      (fun bytes => (realloc bytes).isSome) _ _ elements hcap hsizeof hholds hi hgranted.1 hgranted.2
    have hrefused : Converges _ (-1, replaced heap arr dat
        (dataAfter sizeofType realloc header dat header.capacity) (header.withDat (some block))) :=
      hconverges hconv
    rw [replaced_unchanged harr hheader hdat] at hrefused
    exact ⟨hrefused, newCap * sizeofType, hlarger,
      Option.isNone_iff_eq_none.mp (Option.isSome_eq_false_iff.mp hgranted.2)⟩

theorem appendN_withDat (harr : heap arr = some (.header header))
    (hheader : header.dat = some dat) (hdat : heap dat = some (.data block))
    (hnames : ∀ bytes r, realloc bytes = some r → r ≠ arr) (list : Option (List α)) (fuel : Nat) :
    libdDarrayAppendN sizeofType realloc heap (some arr) (list.map .caller) n fuel =
      map (fun r => (r.result,
          replaced heap arr dat (dataAfter sizeofType realloc header dat r.arr.capacity) r.arr))
        (Libdane.libdDarrayAppendN sizeofType (fun bytes => (realloc bytes).isSome)
          (header.withDat (some block)) false list n fuel) := by
  rw [libdDarrayAppendN, loadHeader_eq harr, ret_bind]
  exact memcpyAt_withDat harr hheader hdat hnames list fuel

theorem at_withDat (harr : heap arr = some (.header header)) (hheader : header.dat = some dat)
    (block : DarrayBlock α) (i : UInt64) :
    libdDarrayAt heap (some arr) i =
      ret ((Libdane.libdDarrayAt (header.withDat (some block)) false i).map fun index =>
        { block := dat, index := index }) := by
  rw [libdDarrayAt, loadHeader_eq harr, ret_bind, hheader]
  by_cases hi : i ≥ header.size
  · simp [Libdane.libdDarrayAt, DarrayHeader.withDat, hi]
  · simp [Libdane.libdDarrayAt, DarrayHeader.withDat, hi]

end Calls

end Libdane.ArrayHeap
