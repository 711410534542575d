import Libdane.Utils.ArrayCalls

/-!
# Runs over several dynamic arrays

A client creates arrays, writes to them and destroys them in any order. The heap refines a store of
lists: one list for each live array, changed by the calls that name it and by no other call.
-/

namespace Libdane.ArrayHeap

open ByteMachine ByteMachine.Exec BlockHeap

variable {α : Type}

section Call

variable {sizeofType : UInt64} {heap : ArrayMemory α} {store : Store α}

/-- What a call answers. -/
def ArrayCall.Answers (sizeofType : UInt64) (heap : ArrayMemory α) (store : Store α) :
    ArrayCall α → ArrayAnswer → Prop
  | .create capacity mallocArr mallocDat, answer =>
    answer = .array (if capacity = 0 ∨ mallocDat = none then none else mallocArr)
  | .destroy _, answer => answer = .done
  | .write call, answer => ∃ result, answer = .code result ∧
    WriteAnswer sizeofType heap store call result

theorem create_step (hinv : HeapInv sizeofType heap store) {capacity : UInt64}
    {mallocArr mallocDat : Option BlockName}
    (hallowed : (ArrayCall.create (α := α) capacity mallocArr mallocDat).Allowed sizeofType heap
      store) :
    ∃ arr after, libdDarrayCreate sizeofType mallocArr mallocDat heap capacity = ret (arr, after) ∧
      arr = (if capacity = 0 ∨ mallocDat = none then none else mallocArr) ∧
      HeapInv sizeofType after
        ((ArrayCall.create capacity mallocArr mallocDat).effect store (.array arr)) ∧
      ∀ name, (heap name).isSome → after name = heap name := by
  obtain ⟨harr, hdat⟩ := hallowed
  by_cases hzero : capacity = 0
  · exact ⟨none, heap, by simp [libdDarrayCreate, hzero], by simp [hzero], hinv, fun _ _ => rfl⟩
  have hbeq : ¬(capacity == 0) = true := by simpa using hzero
  cases mallocArr with
  | none =>
    exact ⟨none, heap, by simp [libdDarrayCreate, hzero], by simp, hinv, fun _ _ => rfl⟩
  | some arr =>
    have hfree := harr arr rfl
    cases mallocDat with
    | none =>
      refine ⟨none, heap, ?_, by simp, hinv, fun _ _ => rfl⟩
      have hlive : (malloc heap arr (.raw : ArrayBlock α) arr).isSome := by simp
      rw [libdDarrayCreate, if_neg hbeq]
      dsimp only
      rw [free_live hlive, ret_bind, malloc, Function.update_idem]
      conv_rhs => rw [← Function.update_eq_self arr heap, hfree]
    | some dat =>
      obtain ⟨hdead, hne, hword⟩ := hdat dat rfl
      have hdatarr : dat ≠ arr := fun he => hne (by rw [he])
      have hvalue : Libdane.libdDarrayCreate sizeofType true true capacity =
          some (⟨capacity, 0, some (.fresh (sizeofType * capacity))⟩ : LibdDarray α) := by
        simp [Libdane.libdDarrayCreate, hzero]
      have hholds := libdDarrayCreate_represents hvalue hword
      let fresh : DarrayBlock α := .fresh (sizeofType * capacity)
      let created : DarrayHeader := { capacity := capacity, size := 0, dat := some dat }
      have hafter : malloc (malloc (malloc heap arr .raw) dat (.data fresh)) arr (.header created) =
          malloc (malloc heap dat (.data fresh)) arr (.header created) := by
        simp only [malloc]
        rw [Function.update_comm hdatarr, Function.update_idem, Function.update_comm hdatarr.symm]
      have hlive : (malloc (malloc heap arr .raw) dat (.data fresh) arr).isSome := by
        rw [malloc_of_ne hdatarr.symm, malloc_self]
        rfl
      refine ⟨some arr, malloc (malloc heap dat (.data fresh)) arr (.header created), ?_,
        by simp [hzero], ?_, ?_⟩
      · rw [libdDarrayCreate, if_neg hbeq]
        dsimp only
        rw [store_live hlive, ret_bind, hafter]
      · apply hinv.replace (swaps_created hfree hdead hdatarr rfl)
        · intro list hlist
          cases hlist
          refine ⟨_, malloc_self .., dat, _, rfl, ?_, hholds⟩
          rw [malloc_of_ne hdatarr, malloc_self]
        · intro _
          rfl
      · intro name hname
        have harrname : name ≠ arr := by
          rintro rfl
          simp [hfree] at hname
        have hdatname : name ≠ dat := by
          rintro rfl
          simp [hdead] at hname
        rw [malloc_of_ne harrname, malloc_of_ne hdatname]

theorem destroy_step (hinv : HeapInv sizeofType heap store) {arr : Option BlockName}
    (hallowed : (ArrayCall.destroy (α := α) arr).Allowed sizeofType heap store) :
    ∃ after, libdDarrayDestroy heap arr = ret after ∧
      HeapInv sizeofType after ((ArrayCall.destroy arr).effect store .done) ∧
      (∀ p, arr = some p → Swaps heap after p ∧ blocksOf after p = ∅) ∧
      (arr = none → after = heap) := by
  cases arr with
  | none => exact ⟨heap, rfl, hinv, by simp, fun _ => rfl⟩
  | some arr =>
    obtain ⟨contents, hcontents⟩ := Option.isSome_iff_exists.mp (hallowed arr rfl)
    obtain ⟨header, hplaced⟩ := hinv.placed arr contents hcontents
    obtain ⟨dat, block, hdat, hblock, -⟩ := hplaced.data
    have hne := ne_of_header_of_data hplaced.found hblock
    have hlive : (heap dat).isSome := by simp [hblock]
    have harrlive : (Function.update heap dat none arr).isSome := by
      rw [Function.update_of_ne hne.symm, hplaced.found]
      rfl
    have hswaps := swaps_destroyed hplaced.found hdat hblock
    have hdead : dataOf (Function.update (Function.update heap dat none) arr none) arr = none :=
      dataOf_dead (Function.update_self ..)
    have hafter : HeapInv sizeofType (Function.update (Function.update heap dat none) arr none)
        (Function.update store arr none) := hinv.replace hswaps (by simp) (by simp [hdead])
    refine ⟨_, ?_, hafter, ?_, by simp⟩
    · rw [libdDarrayDestroy, loadHeader_eq hplaced.found, ret_bind, hdat]
      dsimp only
      rw [free_live hlive, ret_bind, free_live harrlive]
    · intro p hp
      cases hp
      exact ⟨hswaps, blocksOf_none hdead⟩

theorem ArrayCall.step (hsizeof : 1 ≤ sizeofType.toNat) (hinv : HeapInv sizeofType heap store)
    {call : ArrayCall α} (hallowed : call.Allowed sizeofType heap store) :
    ∃ answer after, Converges (call.run sizeofType heap) (answer, after) ∧
      call.Answers sizeofType heap store answer ∧
      HeapInv sizeofType after (call.effect store answer) := by
  cases call with
  | create capacity mallocArr mallocDat =>
    obtain ⟨arr, after, hcreate, harr, hafter, -⟩ := create_step hinv hallowed
    refine ⟨.array arr, after, ⟨0, ?_⟩, congrArg _ harr, hafter⟩
    intro fuel _
    simp only [ArrayCall.run, hcreate, ret_bind]
  | destroy arr =>
    obtain ⟨after, hdestroy, hafter, -⟩ := destroy_step hinv hallowed
    refine ⟨.done, after, ⟨0, ?_⟩, rfl, hafter⟩
    intro fuel _
    simp only [ArrayCall.run, hdestroy, ret_bind]
  | write call =>
    obtain ⟨result, after, hrun, hanswer, hrefused, hwrote⟩ :=
      ArrayWrite.outcome hsizeof hinv hallowed
    refine ⟨.code result, after, ?_, ⟨result, rfl, hanswer⟩, ?_⟩
    · exact hrun.bind (Converges.ret _)
    · by_cases hzero : result = 0
      · simp only [ArrayCall.effect, hzero, if_true]
        exact (hwrote hzero).inv hinv
      · simp only [ArrayCall.effect, hzero, if_false]
        rw [hrefused hzero]
        exact hinv

end Call

def runCalls (sizeofType : UInt64) (heap : ArrayMemory α) :
    List (ArrayCall α) → Nat → Exec (ArrayMemory α × List ArrayAnswer)
  | [], _ => ret (heap, [])
  | call :: calls, fuel => do
    let (answer, heap) ← call.run sizeofType heap fuel
    let (heap, answers) ← runCalls sizeofType heap calls fuel
    ret (heap, answer :: answers)

/-- The same calls on the store of lists. -/
def runStore (store : Store α) : List (ArrayCall α) → List ArrayAnswer → Store α
  | call :: calls, answer :: answers => runStore (call.effect store answer) calls answers
  | _, _ => store

/-- The predicate holds of every call of the run, in the state it finds. -/
def Along (sizeofType : UInt64) (P : ArrayMemory α → Store α → ArrayCall α → Prop) :
    ArrayMemory α → Store α → List (ArrayCall α) → Prop
  | _, _, [] => True
  | heap, store, call :: calls => P heap store call ∧
    ∀ answer after, Converges (call.run sizeofType heap) (answer, after) →
      Along sizeofType P after (call.effect store answer) calls

/-- Every call of the run is allowed in the state it finds. -/
def RunAllowed (sizeofType : UInt64) : ArrayMemory α → Store α → List (ArrayCall α) → Prop :=
  Along sizeofType fun heap store call => call.Allowed sizeofType heap store

def noBlocks : ArrayMemory α := fun _ => none

def noArrays : Store α := fun _ => none

private theorem HeapInv.empty (sizeofType : UInt64) :
    HeapInv sizeofType (noBlocks : ArrayMemory α) noArrays := by
  have hnone : ∀ arr, dataOf (noBlocks : ArrayMemory α) arr = none := fun arr => dataOf_dead rfl
  constructor
  case tiles =>
    constructor
    · intro name
      simp [blocksOf_none (hnone _), noBlocks]
    · intro p q name hp
      rw [blocksOf_none (hnone p)] at hp
      cases hp
  case placed =>
    intro arr contents h
    cases h
  case owned =>
    intro arr h
    simp [hnone] at h

private theorem HeapInv.run {sizeofType : UInt64} (hsizeof : 1 ≤ sizeofType.toNat)
    {heap : ArrayMemory α} {store : Store α} (hinv : HeapInv sizeofType heap store)
    {calls : List (ArrayCall α)} (hallowed : RunAllowed sizeofType heap store calls) :
    ∃ final answers, Converges (runCalls sizeofType heap calls) (final, answers) ∧
      HeapInv sizeofType final (runStore store calls answers) := by
  induction calls generalizing heap store with
  | nil => exact ⟨heap, [], Converges.ret _, hinv⟩
  | cons call calls ih =>
    obtain ⟨hfirst, hrest⟩ := hallowed
    obtain ⟨answer, after, hrun, -, hafter⟩ := ArrayCall.step hsizeof hinv hfirst
    obtain ⟨final, answers, hruns, hfinal⟩ := ih hafter (hrest answer after hrun)
    exact ⟨final, answer :: answers, hrun.bind (hruns.bind (Converges.ret _)), hfinal⟩

theorem HeapInv.of_run {sizeofType : UInt64} (hsizeof : 1 ≤ sizeofType.toNat)
    {calls : List (ArrayCall α)} (hallowed : RunAllowed sizeofType noBlocks noArrays calls)
    {heap : ArrayMemory α} {answers : List ArrayAnswer}
    (hrun : Converges (runCalls sizeofType noBlocks calls) (heap, answers)) :
    HeapInv sizeofType heap (runStore noArrays calls answers) := by
  obtain ⟨final, answers', hrun', hinv⟩ := (HeapInv.empty sizeofType).run hsizeof hallowed
  cases hrun.unique hrun'
  exact hinv

/-- Every allowed run of calls over any number of arrays returns. Each array then reads as the list
of its own calls, the live blocks are the two blocks of each live array, and no block is left when no
array is. -/
theorem darrays_refine_store (sizeofType : UInt64) (hsizeof : 1 ≤ sizeofType.toNat)
    (calls : List (ArrayCall α)) (hallowed : RunAllowed sizeofType noBlocks noArrays calls) :
    ∃ final answers, Converges (runCalls sizeofType noBlocks calls) (final, answers) ∧
      (∀ arr contents, runStore noArrays calls answers arr = some contents →
        ∃ dat, dat ≠ arr ∧ blocksOf final arr = {arr, dat} ∧ ∀ i : UInt64,
          libdDarrayAt final (some arr) i =
            ret (if i.toNat < contents.length then some { block := dat, index := i } else none) ∧
          (i.toNat < contents.length →
            elementAt final { block := dat, index := i } = contents[i.toNat]?)) ∧
      (∀ name, (final name).isSome ↔ ∃ arr, (runStore noArrays calls answers arr).isSome ∧
        name ∈ blocksOf final arr) ∧
      (∀ p q name, name ∈ blocksOf final p → name ∈ blocksOf final q → p = q) ∧
      ((∀ arr, runStore noArrays calls answers arr = none) → final = noBlocks) ∧
      ∀ call : ArrayCall α, call.Allowed sizeofType final (runStore noArrays calls answers) →
        ∃ answer after, Converges (call.run sizeofType final) (answer, after) ∧
          call.Answers sizeofType final (runStore noArrays calls answers) answer := by
  obtain ⟨final, answers, hrun, hinv⟩ := (HeapInv.empty sizeofType).run hsizeof hallowed
  have hlive : ∀ name, (final name).isSome ↔ ∃ arr, (runStore noArrays calls answers arr).isSome ∧
      name ∈ blocksOf final arr := by
    intro name
    rw [hinv.tiles.live]
    constructor
    · rintro ⟨arr, dat, hdat, hname⟩
      exact ⟨arr, hinv.owned arr (by rw [hdat]; rfl), dat, hdat, hname⟩
    · rintro ⟨arr, -, hname⟩
      exact ⟨arr, hname⟩
  refine ⟨final, answers, hrun, ?_, hlive, hinv.tiles.apart, ?_, ?_⟩
  · intro arr contents hcontents
    obtain ⟨header, hplaced⟩ := hinv.placed arr contents hcontents
    obtain ⟨dat, block, hdat, hblock, -⟩ := hplaced.data
    refine ⟨dat, ne_of_header_of_data hplaced.found hblock, ?_, hplaced.at hdat⟩
    ext name
    exact mem_blocksOf (by rw [dataOf_header hplaced.found, hdat])
  · intro hnone
    funext name
    by_contra hname
    obtain ⟨arr, harr, -⟩ := (hlive name).mp (Option.isSome_iff_ne_none.mpr hname)
    rw [hnone arr] at harr
    cases harr
  · intro call hcall
    obtain ⟨answer, after, hconv, hanswer, -⟩ := ArrayCall.step hsizeof hinv hcall
    exact ⟨answer, after, hconv, hanswer⟩

/-- Two arrays. The second is given an element of the first, and its data moves. -/
def twoArrays : List (ArrayCall Nat) :=
  [.create 1 (some 0) (some 1),
    .write { kind := .append, arr := some 0, dat := .caller [7], realloc := fun _ => none },
    .create 1 (some 2) (some 3),
    .write { kind := .append, arr := some 2, dat := .caller [5], realloc := fun _ => none },
    .write { kind := .append, arr := some 2, dat := .element (some 0) 0,
             realloc := fun _ => some 4 }]

private theorem twoArrays_allowed : RunAllowed 4 noBlocks noArrays twoArrays := by
  refine ⟨⟨fun _ _ => rfl, ?_⟩, ?_⟩
  · rintro dat ⟨⟩
    exact ⟨rfl, by decide, by decide⟩
  rintro answer after ⟨enough, hrun⟩
  cases hrun (enough + 2) (by omega)
  refine ⟨ArrayWrite.allowed_of_write (by rintro _ _ ⟨⟩) rfl rfl rfl ?_, ?_⟩
  · constructor
    case fits => exact ⟨0, by decide, by decide⟩
    case names => rintro bytes r ⟨⟩
    case length => rintro elements ⟨⟩; rfl
    case self => rintro k ⟨⟩
  rintro answer after ⟨enough, hrun⟩
  cases hrun (enough + 2) (by omega)
  refine ⟨⟨?_, ?_⟩, ?_⟩
  · rintro arr ⟨⟩
    rfl
  · rintro dat ⟨⟩
    exact ⟨rfl, by decide, by decide⟩
  rintro answer after ⟨enough, hrun⟩
  cases hrun (enough + 2) (by omega)
  refine ⟨ArrayWrite.allowed_of_write (by rintro _ _ ⟨⟩) rfl rfl rfl ?_, ?_⟩
  · constructor
    case fits => exact ⟨0, by decide, by decide⟩
    case names => rintro bytes r ⟨⟩
    case length => rintro elements ⟨⟩; rfl
    case self => rintro k ⟨⟩
  rintro answer after ⟨enough, hrun⟩
  cases hrun (enough + 2) (by omega)
  refine ⟨ArrayWrite.allowed_of_write (by rintro _ _ ⟨⟩; rfl) rfl rfl rfl ?_, fun _ _ _ => trivial⟩
  constructor
  case fits => exact ⟨1, by decide, by decide⟩
  case names => rintro bytes r ⟨⟩; exact Or.inr rfl
  case length => rintro elements ⟨⟩; rfl
  case self => rintro k ⟨⟩

theorem darrays_refine_store_two_arrays :
    ∃ (final : ArrayMemory Nat) (answers : List ArrayAnswer),
      Converges (runCalls 4 noBlocks twoArrays) (final, answers) ∧
      runStore noArrays twoArrays answers 0 = some [7] ∧
      runStore noArrays twoArrays answers 2 = some [5, 7] ∧
      (∃ dat, blocksOf final 2 = {2, dat} ∧
        elementAt final { block := dat, index := 1 } = some 7) ∧
      ∀ p q name, name ∈ blocksOf final p → name ∈ blocksOf final q → p = q := by
  obtain ⟨final, answers, hrun, hread, -, hapart, -⟩ :=
    darrays_refine_store 4 (by decide) twoArrays twoArrays_allowed
  have hanswers : answers = [.array (some 0), .code 0, .array (some 2), .code 0, .code 0] := by
    obtain ⟨enough, hconv⟩ := hrun
    cases hconv (enough + 2) (by omega)
    rfl
  subst hanswers
  obtain ⟨dat, -, hblocks, helements⟩ := hread 2 [5, 7] rfl
  exact ⟨final, _, hrun, rfl, rfl, ⟨dat, hblocks, (helements 1).2 (by decide)⟩, hapart⟩

end Libdane.ArrayHeap
