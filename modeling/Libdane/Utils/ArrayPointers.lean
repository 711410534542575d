import Libdane.Utils.ArrayStore

/-!
# Pointers into a dynamic array

`libd_darray_at` hands out a pointer into the data of an array. It stays good while no call destroys
the array or asks for more than its capacity, and dangles once the data has moved. An array that is
given its own elements to append reads them behind `realloc`.
-/

namespace Libdane.ArrayHeap

open ByteMachine ByteMachine.Exec BlockHeap Splice

variable {α : Type}

/-- One array with one element. -/
def oneElement : List (ArrayCall Nat) :=
  [.create 1 (some 0) (some 1),
    .write { kind := .append, arr := some 0, dat := .caller [7], realloc := fun _ => none }]

def oneElementHeap : ArrayMemory Nat :=
  match runCalls 4 noBlocks oneElement 1 with
  | .ret r => r.1
  | _ => noBlocks

private theorem oneElement_allowed : RunAllowed 4 noBlocks noArrays oneElement := by
  refine ⟨⟨fun _ _ => rfl, ?_⟩, ?_⟩
  · rintro dat ⟨⟩
    exact ⟨rfl, by decide, by decide⟩
  rintro answer after ⟨enough, hrun⟩
  cases hrun enough le_rfl
  refine ⟨ArrayWrite.allowed_of_write (by rintro _ _ ⟨⟩) rfl rfl rfl ?_, fun _ _ _ => trivial⟩
  constructor
  case fits => exact ⟨0, by decide, by decide⟩
  case names => rintro bytes r ⟨⟩
  case length => rintro elements ⟨⟩; rfl
  case self => rintro k ⟨⟩

private theorem oneElement_run :
    Converges (runCalls 4 noBlocks oneElement) (oneElementHeap, [.array (some 0), .code 0]) := by
  refine ⟨1, ?_⟩
  intro fuel hfuel
  obtain ⟨fuel, rfl⟩ := Nat.exists_eq_succ_of_ne_zero (by omega : fuel ≠ 0)
  rfl

section Pointers

variable {sizeofType : UInt64} {heap after : ArrayMemory α} {store : Store α} {p dat : BlockName}
  {header : DarrayHeader}

/-- The call neither destroys the array nor asks for more than its capacity. -/
def ArrayCall.Stays (p : BlockName) (heap : ArrayMemory α) : ArrayCall α → Prop
  | .create .. => True
  | .destroy arr => arr ≠ some p
  | .write call => call.arr = some p → ∀ header, heap p = some (.header header) →
    (call.kind.index header).toNat + call.kind.count.toNat ≤ header.capacity.toNat

/-- What a call does to the data block of an array. -/
structure Keeps (heap after : ArrayMemory α) (call : ArrayCall α) (p dat : BlockName)
    (header : DarrayHeader) : Prop where
  stays : call.Stays p heap → ∃ next, after p = some (.header next) ∧ next.dat = some dat ∧
    next.capacity = header.capacity
  moved : dataOf after p ≠ some dat → after dat = none

private theorem Keeps.of_same {call : ArrayCall α} (hfound : heap p = some (.header header))
    (hdat : header.dat = some dat) (hsame : after p = heap p) : Keeps heap after call p dat header := by
  rw [hfound] at hsame
  constructor
  case stays =>
    intro _
    exact ⟨header, hsame, hdat, rfl⟩
  case moved =>
    intro hne
    rw [dataOf_header hsame, hdat] at hne
    exact absurd rfl hne

private theorem Swaps.dead {block : DarrayBlock α} (h : Swaps heap after p)
    (hfound : heap p = some (.header header)) (hdat : header.dat = some dat)
    (hblock : heap dat = some (.data block)) (hne : dataOf after p ≠ some dat) :
    after dat = none := by
  have hold : dat ∈ blocksOf heap p :=
    (mem_blocksOf (by rw [dataOf_header hfound, hdat])).mpr (Or.inr rfl)
  have hnew : dat ∉ blocksOf after p := by
    rintro ⟨r, hr, hname⟩
    rcases hname with rfl | rfl
    · exact ne_of_header_of_data hfound hblock rfl
    · exact hne hr
  have hlive := h.live dat (Or.inl hold)
  rw [iff_false_right hnew] at hlive
  simpa using hlive

private theorem HeapInv.same (hinv : HeapInv sizeofType heap store) {q : BlockName}
    (hswaps : Swaps heap after q) (hne : p ≠ q) (hfound : heap p = some (.header header))
    (hdat : header.dat = some dat) : after p = heap p := by
  apply hinv.tiles.frame hswaps.replaces hne
  exact (mem_blocksOf (by rw [dataOf_header hfound, hdat])).mpr (Or.inl rfl)

private theorem Wrote.keeps {call : ArrayWrite α} (hwrote : Wrote sizeofType heap store call after)
    (hinv : HeapInv sizeofType heap store) (hfound : heap p = some (.header header))
    (hdat : header.dat = some dat) {block : DarrayBlock α}
    (hblock : heap dat = some (.data block)) : Keeps heap after (.write call) p dat header := by
  cases hwrote with
  | intro arr old r header' next block' moved contents elements harr hcontents helements hfound'
      hdat' hblock' hr hnext hstays hholds =>
    have hswaps : Swaps heap (written heap arr old r next moved) arr :=
      swaps_written hfound' hdat' hblock' hr hnext
    by_cases hp : p = arr
    · subst hp
      obtain rfl := header_inj hfound hfound'
      constructor
      case stays =>
        intro h
        obtain ⟨hsame, hcapacity⟩ := hstays (h harr header hfound)
        refine ⟨next, written_arr .., ?_, hcapacity⟩
        rw [hnext, hsame, ← hdat', hdat]
      case moved => exact hswaps.dead hfound hdat hblock
    · exact Keeps.of_same hfound hdat (hinv.same hswaps hp hfound hdat)

private theorem ArrayCall.keeps (hsizeof : 1 ≤ sizeofType.toNat)
    (hinv : HeapInv sizeofType heap store)
    {call : ArrayCall α} (hallowed : call.Allowed sizeofType heap store) {answer : ArrayAnswer}
    (hrun : Converges (call.run sizeofType heap) (answer, after))
    (hfound : heap p = some (.header header)) (hdat : header.dat = some dat)
    {block : DarrayBlock α} (hblock : heap dat = some (.data block)) :
    Keeps heap after call p dat header := by
  cases call with
  | create capacity mallocArr mallocDat =>
    obtain ⟨arr, after', hcreate, -, -, hsame⟩ := create_step hinv hallowed
    have hrun' : Converges (ArrayCall.run sizeofType heap (.create capacity mallocArr mallocDat))
        (.array arr, after') := ⟨0, fun fuel _ => by simp only [ArrayCall.run, hcreate, ret_bind]⟩
    cases hrun.unique hrun'
    exact Keeps.of_same hfound hdat (hsame p (by simp [hfound]))
  | destroy arr =>
    obtain ⟨after', hdestroy, -, hswaps, hnull⟩ := destroy_step hinv hallowed
    have hrun' : Converges (ArrayCall.run sizeofType heap (.destroy arr)) (.done, after') :=
      ⟨0, fun fuel _ => by simp only [ArrayCall.run, hdestroy, ret_bind]⟩
    cases hrun.unique hrun'
    cases arr with
    | none =>
      rw [hnull rfl]
      exact Keeps.of_same hfound hdat rfl
    | some q =>
      obtain ⟨hswap, hempty⟩ := hswaps q rfl
      by_cases hp : p = q
      · subst hp
        constructor
        case stays =>
          intro h
          exact absurd rfl h
        case moved => exact hswap.dead hfound hdat hblock
      · exact Keeps.of_same hfound hdat (hinv.same hswap hp hfound hdat)
  | write call =>
    obtain ⟨result, after', hconv, -, hrefused, hwrote⟩ :=
      ArrayWrite.outcome hsizeof hinv hallowed
    have hrun' : Converges (ArrayCall.run sizeofType heap (.write call)) (.code result, after') :=
      hconv.bind (Converges.ret _)
    cases hrun.unique hrun'
    by_cases hzero : result = 0
    · exact (hwrote hzero).keeps hinv hfound hdat hblock
    · rw [hrefused hzero]
      exact Keeps.of_same hfound hdat rfl

private theorem ArrayWrite.effect_grows (call : ArrayWrite α) {contents : List α}
    (hcontents : store p = some contents) :
    ∃ more, call.effect store p = some more ∧ contents.length ≤ more.length := by
  have hsame : ∃ more, store p = some more ∧ contents.length ≤ more.length :=
    ⟨contents, hcontents, le_rfl⟩
  cases harr : call.arr with
  | none => simpa [ArrayWrite.effect, harr] using hsame
  | some arr =>
    cases helements : call.elements store with
    | none => simpa [ArrayWrite.effect, harr, helements] using hsame
    | some elements =>
      by_cases hp : p = arr
      · subst hp
        exact ⟨splice contents (call.kind.position contents) elements,
          by simp [ArrayWrite.effect, harr, helements, hcontents], le_length_splice ..⟩
      · simpa [ArrayWrite.effect, harr, helements, Function.update_of_ne hp] using hsame

private theorem ArrayCall.grows (hsizeof : 1 ≤ sizeofType.toNat)
    (hinv : HeapInv sizeofType heap store)
    {call : ArrayCall α} (hallowed : call.Allowed sizeofType heap store) {answer : ArrayAnswer}
    (hrun : Converges (call.run sizeofType heap) (answer, after)) (hstays : call.Stays p heap)
    (hfound : heap p = some (.header header)) {contents : List α}
    (hcontents : store p = some contents) :
    ∃ more, call.effect store answer p = some more ∧ contents.length ≤ more.length := by
  obtain ⟨answer', after', hrun', hanswers, -⟩ := ArrayCall.step hsizeof hinv hallowed
  cases hrun.unique hrun'
  have hsame : ∃ more, store p = some more ∧ contents.length ≤ more.length :=
    ⟨contents, hcontents, le_rfl⟩
  cases call with
  | create capacity mallocArr mallocDat =>
    obtain rfl := hanswers
    by_cases hfails : capacity = 0 ∨ mallocDat = none
    · simpa [ArrayCall.effect, hfails] using hsame
    · cases mallocArr with
      | none => simpa [ArrayCall.effect, hfails] using hsame
      | some arr =>
        have hne : p ≠ arr := by
          rintro rfl
          rw [hallowed.1 p rfl] at hfound
          cases hfound
        simpa [ArrayCall.effect, hfails, Function.update_of_ne hne] using hsame
  | destroy arr =>
    cases arr with
    | none => exact hsame
    | some q =>
      have hne : p ≠ q := fun he => hstays (by rw [he])
      simpa [ArrayCall.effect, Function.update_of_ne hne] using hsame
  | write call =>
    obtain ⟨result, rfl, -⟩ := hanswers
    by_cases hzero : result = 0
    · simpa only [ArrayCall.effect, hzero, if_true] using call.effect_grows hcontents
    · simpa only [ArrayCall.effect, hzero, if_false] using hsame

private theorem HeapInv.run_stays (hsizeof : 1 ≤ sizeofType.toNat)
    (hinv : HeapInv sizeofType heap store) {later : List (ArrayCall α)}
    (hallowed : Along sizeofType (fun heap store call => call.Allowed sizeofType heap store ∧
      call.Stays p heap) heap store later)
    (hfound : heap p = some (.header header)) (hdat : header.dat = some dat) {contents : List α}
    (hcontents : store p = some contents) :
    ∃ final answers, Converges (runCalls sizeofType heap later) (final, answers) ∧
      HeapInv sizeofType final (runStore store later answers) ∧
      (∃ next, final p = some (.header next) ∧ next.dat = some dat ∧
        next.capacity = header.capacity) ∧
      ∃ more, runStore store later answers p = some more ∧ contents.length ≤ more.length := by
  induction later generalizing heap store header contents with
  | nil =>
    exact ⟨heap, [], Converges.ret _, hinv, ⟨header, hfound, hdat, rfl⟩, contents, hcontents,
      le_rfl⟩
  | cons call later ih =>
    obtain ⟨⟨hfirst, hstays⟩, hrest⟩ := hallowed
    obtain ⟨answer, after, hrun, -, hafter⟩ := ArrayCall.step hsizeof hinv hfirst
    obtain ⟨header', hplaced⟩ := hinv.placed p contents hcontents
    obtain ⟨dat', block, hdat', hblock, -⟩ := hplaced.data
    obtain rfl := header_inj hfound hplaced.found
    obtain rfl : dat = dat' := Option.some.inj (hdat.symm.trans hdat')
    have hkeeps := ArrayCall.keeps hsizeof hinv hfirst hrun hfound hdat hblock
    obtain ⟨next, hnext, hnextdat, hcapacity⟩ := hkeeps.stays hstays
    obtain ⟨more, hmore, hle⟩ :=
      ArrayCall.grows hsizeof hinv hfirst hrun hstays hfound hcontents
    obtain ⟨final, answers, hruns, hfinal, ⟨last, hlast, hlastdat, hlastcap⟩, most, hmost, hle'⟩ :=
      ih hafter (hrest answer after hrun) hnext hnextdat hmore
    exact ⟨final, answer :: answers, hrun.bind (hruns.bind (Converges.ret _)), hfinal,
      ⟨last, hlast, hlastdat, hlastcap.trans hcapacity⟩, most, hmost, hle.trans hle'⟩

/-- A pointer into an array shows the array's own elements for as long as no call destroys the array
or asks for more than its capacity, whatever happens to the other arrays. A call that moves the
array or destroys it leaves the pointer dangling. -/
theorem pointer_stability (sizeofType : UInt64) (hsizeof : 1 ≤ sizeofType.toNat)
    (calls : List (ArrayCall α)) (hallowed : RunAllowed sizeofType noBlocks noArrays calls)
    (heap : ArrayMemory α) (answers : List ArrayAnswer)
    (hrun : Converges (runCalls sizeofType noBlocks calls) (heap, answers)) (p : BlockName)
    (contents : List α) (hcontents : runStore noArrays calls answers p = some contents)
    (i : UInt64) (pointer : ElementPointer)
    (hpointer : libdDarrayAt heap (some p) i = ret (some pointer)) :
    (∀ later, Along sizeofType (fun heap store call => call.Allowed sizeofType heap store ∧
        call.Stays p heap) heap (runStore noArrays calls answers) later →
      ∃ final answers' more, Converges (runCalls sizeofType heap later) (final, answers') ∧
        runStore (runStore noArrays calls answers) later answers' p = some more ∧
        i.toNat < more.length ∧ libdDarrayAt final (some p) i = ret (some pointer) ∧
        elementAt final pointer = more[i.toNat]?) ∧
    ∀ call : ArrayCall α, call.Allowed sizeofType heap (runStore noArrays calls answers) →
      ∀ answer after, Converges (call.run sizeofType heap) (answer, after) →
        dataOf after p ≠ some pointer.block → after pointer.block = none := by
  have hinv := HeapInv.of_run hsizeof hallowed hrun
  obtain ⟨header, hplaced⟩ := hinv.placed p contents hcontents
  obtain ⟨dat, block, hdat, hblock, -⟩ := hplaced.data
  have hat := (hplaced.at hdat i).1
  rw [hpointer] at hat
  by_cases hi : i.toNat < contents.length
  case neg =>
    rw [if_neg hi] at hat
    cases hat
  rw [if_pos hi] at hat
  cases hat
  constructor
  · intro later hlater
    obtain ⟨final, answers', hlast, hfinal, ⟨next, hnext, hnextdat, -⟩, more, hmore, hle⟩ :=
      hinv.run_stays hsizeof hlater hplaced.found hdat hcontents
    obtain ⟨header', hplaced'⟩ := hfinal.placed p more hmore
    obtain rfl := header_inj hnext hplaced'.found
    obtain ⟨hread, helement⟩ := hplaced'.at hnextdat i
    have hlt : i.toNat < more.length := by omega
    rw [if_pos hlt] at hread
    exact ⟨final, answers', more, hlast, hmore, hlt, hread, helement hlt⟩
  · intro call hcall answer after hafter
    exact (ArrayCall.keeps hsizeof hinv hcall hafter hplaced.found hdat hblock).moved

private theorem Serves.own {block : DarrayBlock α} {capacity k n i : UInt64} {contents : List α}
    (hblock : heap dat = some (.data block))
    (hbytes : contents.length * sizeofType.toNat ≤ block.bytes.toNat)
    (hcells : ∀ j < contents.length, block.cells j = contents[j]?)
    (hin : k.toNat + n.toNat ≤ contents.length) (hi : contents.length ≤ i.toNat)
    (hroom : i.toNat + n.toNat ≤ capacity.toNat) :
    Serves sizeofType heap dat capacity i n (.element { block := dat, index := k })
      ((contents.drop k.toNat).take n.toNat) := by
  constructor
  case length =>
    rw [List.length_take, List.length_drop]
    omega
  case caller =>
    intro list hlist
    cases hlist
  case element =>
    intro pointer hpointer
    cases hpointer
    refine ⟨block, hblock, ?_, ?_, fun _ => ⟨hroom, Or.inr (hin.trans hi)⟩⟩
    · exact (Nat.mul_le_mul_right _ hin).trans hbytes
    · intro j hj
      rw [List.getElem?_take_of_lt hj, List.getElem?_drop]
      exact hcells _ (by show k.toNat + j < contents.length; omega)

/-- The pointer to the first element outlives a second array and its end. -/
theorem pointer_stability_second_array :
    ∃ final answers' more, Converges (runCalls 4 oneElementHeap
        [.create 3 (some 2) (some 3), .destroy (some 2)]) (final, answers') ∧
      runStore (runStore noArrays oneElement [.array (some 0), .code 0])
        [.create 3 (some 2) (some 3), .destroy (some 2)] answers' 0 = some more ∧
      (0 : UInt64).toNat < more.length ∧
      libdDarrayAt final (some 0) 0 = ret (some { block := 1, index := 0 }) ∧
      elementAt final { block := 1, index := 0 } = more[(0 : UInt64).toNat]? := by
  apply (pointer_stability 4 (by decide) oneElement oneElement_allowed oneElementHeap
    [.array (some 0), .code 0] oneElement_run 0 [7] rfl 0 { block := 1, index := 0 } rfl).1
  refine ⟨⟨⟨?_, ?_⟩, trivial⟩, ?_⟩
  · intro arr harr
    cases harr
    rfl
  · intro dat hdat
    cases hdat
    exact ⟨rfl, by decide, by decide⟩
  rintro answer after ⟨enough, hrun⟩
  have hfirst := hrun enough le_rfl
  cases hfirst
  refine ⟨⟨?_, by simp [ArrayCall.Stays]⟩, fun _ _ _ => trivial⟩
  intro arr harr
  cases harr
  rfl

section Own

variable {block : DarrayBlock α} {contents : List α} {k n newCap : UInt64}
  {realloc : UInt64 → Option BlockName}

private theorem own_moved {fuel : Nat} (hfound : heap p = some (.header header))
    (hdat : header.dat = some dat) (hblock : heap dat = some (.data block)) {r : BlockName}
    (hr : r = dat ∨ heap r = none) (hmoved : r ≠ dat) {i : UInt64} (hi : i ≤ header.size)
    (hloop : loop (doubleBody (i + n)) fuel header.capacity = ret newCap)
    (hnew : newCap ≠ header.capacity) (hrealloc : realloc (newCap * sizeofType) = some r) :
    libdDarrayMemcpyAt sizeofType realloc heap (some p) i
      (some (.element { block := dat, index := k })) n fuel = fault := by
  have hne := ne_of_header_of_data hfound hblock
  have hrp := ne_of_moved hfound hblock hr
  have hapart : (dat == r) = false := by simpa using hmoved.symm
  have hdangling : written heap p dat r { header with dat := some r, capacity := newCap }
      (block.realloc sizeofType (newCap * sizeofType)) dat = none := written_dat hne hmoved.symm
  rw [memcpyAt_moved hfound hdat hblock hrp hi hloop hnew hrealloc]
  simp [copyIn, Source.overlaps, hapart, Source.read, loadData, load_dead hdangling]

private theorem own_fits (hsizeof : 1 ≤ sizeofType.toNat) (hinv : HeapInv sizeofType heap store)
    (hfound : heap p = some (.header header)) (hdat : header.dat = some dat)
    (hblock : heap dat = some (.data block))
    (hholds : Represents sizeofType (header.withDat (some block)) contents)
    (hin : k.toNat + n.toNat ≤ contents.length)
    (hcap : FindsCapacity sizeofType (header.withDat (some block)) header.size n newCap)
    (hsame : newCap = header.capacity) :
    ∃ after, Converges (libdDarrayMemcpyAt sizeofType realloc heap (some p) header.size
        (some (.element { block := dat, index := k })) n) (0, after) ∧
      HeapInv sizeofType after (Function.update store p
        (some (splice contents header.size.toNat ((contents.drop k.toNat).take n.toNat)))) := by
  have hsize : header.size.toNat = contents.length := hholds.size
  obtain ⟨enough, hloop⟩ := hcap.loop
  have hroom := hcap.room
  have hword := hcap.word
  rw [hsame] at hroom hword
  obtain ⟨b, hb, hbytes, hcells⟩ := hholds.block
  cases hb
  have hserves : Serves sizeofType heap dat header.capacity header.size n
      (.element { block := dat, index := k }) ((contents.drop k.toNat).take n.toNat) := by
    apply Serves.own hblock _ hcells hin hsize.ge hroom
    rw [hbytes]
    apply Nat.mul_le_mul_right
    show contents.length ≤ header.capacity.toNat
    omega
  obtain ⟨after, hcopy, hafter⟩ :=
    copyIn_placed hsizeof hfound hdat hblock hholds hword hroom (UInt64.le_refl _) hserves
  refine ⟨_, ⟨enough, ?_⟩, hinv.replaced hfound hdat hblock (Or.inl rfl) hafter⟩
  intro fuel hfuel
  have hfits := hloop fuel hfuel
  rw [hsame] at hfits
  rw [memcpyAt_kept hfound hdat (UInt64.le_refl _) hfits]
  exact hcopy

private theorem own_grown (hsizeof : 1 ≤ sizeofType.toNat) (hinv : HeapInv sizeofType heap store)
    (hfound : heap p = some (.header header)) (hdat : header.dat = some dat)
    (hblock : heap dat = some (.data block))
    (hholds : Represents sizeofType (header.withDat (some block)) contents)
    (hin : k.toNat + n.toNat ≤ contents.length)
    (hcap : FindsCapacity sizeofType (header.withDat (some block)) header.size n newCap)
    (hnew : newCap ≠ header.capacity) (hrealloc : realloc (newCap * sizeofType) = some dat) :
    ∃ after, Converges (libdDarrayMemcpyAt sizeofType realloc heap (some p) header.size
        (some (.element { block := dat, index := k })) n) (0, after) ∧
      HeapInv sizeofType after (Function.update store p
        (some (splice contents header.size.toNat ((contents.drop k.toNat).take n.toNat)))) := by
  have hsize : header.size.toNat = contents.length := hholds.size
  have hne := ne_of_header_of_data hfound hblock
  obtain ⟨enough, hloop⟩ := hcap.loop
  have hroom := hcap.room
  have hgrown := hholds.grow rfl hcap.grows hcap.word
  obtain ⟨b, hb, hbytes, hcells⟩ := hgrown.block
  cases hb
  let larger : DarrayHeader := { header with dat := some dat, capacity := newCap }
  let copied := block.realloc sizeofType (newCap * sizeofType)
  have hserves : Serves sizeofType (written heap p dat dat larger copied) dat newCap
      header.size n (.element { block := dat, index := k })
      ((contents.drop k.toNat).take n.toNat) := by
    apply Serves.own (written_r hne) _ hcells hin hsize.ge hroom
    rw [hbytes]
    apply Nat.mul_le_mul_right
    show contents.length ≤ newCap.toNat
    omega
  obtain ⟨after, hcopy, hafter⟩ := copyIn_placed hsizeof
    (written_arr heap p dat dat larger copied) rfl (written_r hne) hgrown hcap.word hroom
    (UInt64.le_refl _) hserves
  obtain ⟨final, hfinal, -⟩ := hafter.block
  rw [replaced_again _ _ _ _ _ _ (by simp [hfinal])] at hcopy
  refine ⟨_, ⟨enough, ?_⟩, hinv.replaced hfound hdat hblock (Or.inl rfl) hafter⟩
  intro fuel hfuel
  rw [memcpyAt_moved hfound hdat hblock hne (UInt64.le_refl _) (hloop fuel hfuel) hnew hrealloc]
  exact hcopy

end Own

/-- An array that is given its own elements to append reads them from a freed block exactly when the
block has moved. In every other case the call appends them, or has found no memory. -/
theorem append_own_elements (sizeofType : UInt64) (hsizeof : 1 ≤ sizeofType.toNat)
    (calls : List (ArrayCall α)) (hallowed : RunAllowed sizeofType noBlocks noArrays calls)
    (heap : ArrayMemory α) (answers : List ArrayAnswer)
    (hrun : Converges (runCalls sizeofType noBlocks calls) (heap, answers)) (p : BlockName)
    (contents : List α) (hcontents : runStore noArrays calls answers p = some contents)
    (header : DarrayHeader) (hfound : heap p = some (.header header)) (k n : UInt64)
    (pointer : ElementPointer) (hpointer : libdDarrayAt heap (some p) k = ret (some pointer))
    (hin : k.toNat + n.toNat ≤ contents.length) (realloc : UInt64 → Option BlockName)
    (hnames : ∀ bytes r, realloc bytes = some r → r = pointer.block ∨ heap r = none)
    (hfits : Fits sizeofType (header.withDat (none : Option (DarrayBlock α))) header.size n) :
    ∃ newCap, FindsCapacity sizeofType (header.withDat (none : Option (DarrayBlock α)))
        header.size n newCap ∧
      (newCap ≠ header.capacity ∧ (∃ r, realloc (newCap * sizeofType) = some r ∧
          r ≠ pointer.block) →
        ∃ enough, ∀ fuel, enough ≤ fuel → libdDarrayAppendN sizeofType realloc heap (some p)
          (some (.element pointer)) n fuel = fault) ∧
      (¬(newCap ≠ header.capacity ∧ ∃ r, realloc (newCap * sizeofType) = some r ∧
          r ≠ pointer.block) →
        ∃ result after, Converges (libdDarrayAppendN sizeofType realloc heap (some p)
            (some (.element pointer)) n) (result, after) ∧
          (result = 0 ∧ HeapInv sizeofType after (Function.update (runStore noArrays calls answers)
              p (some (contents ++ (contents.drop k.toNat).take n.toNat))) ∨
            result = -1 ∧ after = heap ∧ realloc (newCap * sizeofType) = none)) := by
  have hinv := HeapInv.of_run hsizeof hallowed hrun
  obtain ⟨header', hplaced⟩ := hinv.placed p contents hcontents
  obtain rfl := header_inj hfound hplaced.found
  obtain ⟨dat, block, hdat, hblock, hholds⟩ := hplaced.data
  have hat := (hplaced.at hdat k).1
  rw [hpointer] at hat
  split at hat
  case isFalse => cases hat
  cases hat
  obtain ⟨newCap, hcap⟩ := hfits.findsCapacity hsizeof hholds.capacity_pos
  have hcap' : FindsCapacity sizeofType (header.withDat (some block)) header.size n newCap :=
    ⟨hcap.loop, hcap.room, hcap.grows, hcap.word⟩
  obtain ⟨enough, hloop⟩ := hcap.loop
  have happend : ∀ fuel, libdDarrayAppendN sizeofType realloc heap (some p)
      (some (.element { block := dat, index := k })) n fuel =
        libdDarrayMemcpyAt sizeofType realloc heap (some p) header.size
          (some (.element { block := dat, index := k })) n fuel := by
    intro fuel
    rw [libdDarrayAppendN, loadHeader_eq hfound, ret_bind]
  have hsplice : splice contents header.size.toNat ((contents.drop k.toNat).take n.toNat) =
      contents ++ (contents.drop k.toNat).take n.toNat := by
    rw [show header.size.toNat = contents.length from hholds.size, splice_length]
  refine ⟨newCap, hcap, ?_, ?_⟩
  · rintro ⟨hnew, r, hrealloc, hr⟩
    refine ⟨enough, ?_⟩
    intro fuel hfuel
    rw [happend]
    exact own_moved hfound hdat hblock (hnames _ r hrealloc) hr (UInt64.le_refl _)
      (hloop fuel hfuel) hnew hrealloc
  · intro hstays
    simp only [funext happend, ← hsplice]
    by_cases hnew : newCap = header.capacity
    · obtain ⟨after, hconv, hafter⟩ :=
        own_fits hsizeof hinv hfound hdat hblock hholds hin hcap' hnew
      exact ⟨0, after, hconv, Or.inl ⟨rfl, hafter⟩⟩
    · cases hrealloc : realloc (newCap * sizeofType) with
      | none =>
        refine ⟨-1, heap, ⟨enough, ?_⟩, Or.inr ⟨rfl, rfl, rfl⟩⟩
        intro fuel hfuel
        exact memcpyAt_refused hfound hdat (UInt64.le_refl _) (hloop fuel hfuel) hnew hrealloc
      | some r =>
        obtain rfl : r = dat := by
          by_contra hr
          exact hstays ⟨hnew, r, hrealloc, hr⟩
        obtain ⟨after, hconv, hafter⟩ :=
          own_grown hsizeof hinv hfound hdat hblock hholds hin hcap' hnew hrealloc
        exact ⟨0, after, hconv, Or.inl ⟨rfl, hafter⟩⟩

theorem append_own_elements_moved : ∃ enough, ∀ fuel, enough ≤ fuel →
    libdDarrayAppendN 4 (fun _ => some 2) oneElementHeap (some 0)
      (some (.element { block := 1, index := 0 })) 1 fuel = fault := by
  obtain ⟨newCap, hcap, hmoved, -⟩ := append_own_elements 4 (by decide) oneElement
    oneElement_allowed oneElementHeap [.array (some 0), .code 0] oneElement_run 0 [7] rfl
    { capacity := 1, size := 1, dat := some 1 } rfl 0 1 { block := 1, index := 0 } rfl (by decide)
    (fun _ => some 2) (by
      rintro bytes r hr
      cases hr
      exact Or.inr rfl) ⟨1, by decide, by decide⟩
  apply hmoved
  refine ⟨?_, 2, rfl, by decide⟩
  rintro rfl
  exact absurd hcap.room (by decide)

end Pointers

end Libdane.ArrayHeap
