import Libdane.Utils.DynamicArray

/-!
# Runs over one dynamic array

Every allowed run of calls returns, and the array reads as the list that the calls give.
-/

namespace Libdane

open ByteMachine ByteMachine.Exec Splice

variable {α : Type}

inductive DarrayCall (α : Type) where
  | memcpyAt (i : UInt64) (dat : Option (List α)) (n : UInt64)
  | appendN (dat : Option (List α)) (n : UInt64)
  | append (dat : Option α)

/-- A call and the sizes that its `realloc` would grant. -/
structure DarrayStep (α : Type) where
  call : DarrayCall α
  realloc : UInt64 → Bool

namespace DarrayStep

def run (sizeofType : UInt64) (arr : LibdDarray α) (fuel : Nat) (step : DarrayStep α) :
    Exec (DarrayReturn α) :=
  match step.call with
  | .memcpyAt i dat n => libdDarrayMemcpyAt sizeofType step.realloc arr false i dat n fuel
  | .appendN dat n => libdDarrayAppendN sizeofType step.realloc arr false dat n fuel
  | .append dat => libdDarrayAppend sizeofType step.realloc arr false (dat.map fun x => [x]) fuel

def index (arr : LibdDarray α) (step : DarrayStep α) : UInt64 :=
  match step.call with
  | .memcpyAt i _ _ => i
  | .appendN _ _ => arr.size
  | .append _ => arr.size

def source (step : DarrayStep α) : Option (List α) :=
  match step.call with
  | .memcpyAt _ dat _ => dat
  | .appendN dat _ => dat
  | .append dat => dat.map fun x => [x]

def count (step : DarrayStep α) : UInt64 :=
  match step.call with
  | .memcpyAt _ _ n => n
  | .appendN _ n => n
  | .append _ => 1

/-- What a call that succeeds means on lists. -/
def effect (contents : List α) (step : DarrayStep α) : List α :=
  match step.call with
  | .memcpyAt i dat _ => splice contents i.toNat (dat.getD [])
  | .appendN dat _ => contents ++ dat.getD []
  | .append dat => contents ++ dat.toList

/-- Of a call that gets to the doubling of the capacity: the caller passes as many elements as it
says, and no size exceeds the address space. -/
def Allowed (sizeofType : UInt64) (arr : LibdDarray α) (step : DarrayStep α) : Prop :=
  ∀ source, step.source = some source → step.index arr ≤ arr.size →
    source.length = step.count.toNat ∧ Fits sizeofType arr (step.index arr) step.count

theorem run_eq (sizeofType : UInt64) (arr : LibdDarray α) (fuel : Nat) (step : DarrayStep α) :
    step.run sizeofType arr fuel = libdDarrayMemcpyAt sizeofType step.realloc arr false
      (step.index arr) step.source step.count fuel := by
  obtain ⟨call, realloc⟩ := step
  cases call <;> rfl

private theorem splice_index {sizeofType : UInt64} {arr : LibdDarray α} {contents source : List α}
    (h : Represents sizeofType arr contents) {step : DarrayStep α}
    (hsource : step.source = some source) :
    splice contents (step.index arr).toNat source = step.effect contents := by
  obtain ⟨call, realloc⟩ := step
  cases call with
  | memcpyAt i dat n =>
    obtain rfl : dat = some source := hsource
    rfl
  | appendN dat n =>
    obtain rfl : dat = some source := hsource
    show splice contents arr.size.toNat source = contents ++ source
    rw [h.size, splice_length]
  | append dat =>
    obtain ⟨x, rfl, rfl⟩ := Option.map_eq_some_iff.mp hsource
    show splice contents arr.size.toNat [x] = contents ++ [x]
    rw [h.size, splice_length]

end DarrayStep

/-- The calls in their order, with their return codes. -/
def runSteps (sizeofType : UInt64) (arr : LibdDarray α) :
    List (DarrayStep α) → Nat → Exec (LibdDarray α × List Int)
  | [], _ => ret (arr, [])
  | step :: steps, fuel => do
    let r ← step.run sizeofType arr fuel
    let rest ← runSteps sizeofType r.arr steps fuel
    ret (rest.1, r.result :: rest.2)

/-- The same calls on a list, where a call counts when it returned zero. -/
def runLists (contents : List α) : List (DarrayStep α) → List Int → List α
  | step :: steps, result :: results =>
    runLists (if result = 0 then step.effect contents else contents) steps results
  | _, _ => contents

/-- Every call of the run is allowed in the state it finds. -/
def RunAllowed (sizeofType : UInt64) (arr : LibdDarray α) : List (DarrayStep α) → Prop
  | [] => True
  | step :: steps => step.Allowed sizeofType arr ∧
    ∀ r, Converges (fun fuel => step.run sizeofType arr fuel) r → RunAllowed sizeofType r.arr steps

private theorem Represents.call {sizeofType : UInt64} (hsizeof : 1 ≤ sizeofType.toNat)
    {arr : LibdDarray α} {contents : List α} (h : Represents sizeofType arr contents)
    {step : DarrayStep α} (hallowed : step.Allowed sizeofType arr) :
    ∃ r, Converges (fun fuel => step.run sizeofType arr fuel) r ∧
      CallSpec sizeofType step.realloc arr contents (step.index arr) step.source r := by
  simp only [DarrayStep.run_eq]
  exact memcpyAt_spec hsizeof step.realloc h hallowed

private theorem Represents.step {sizeofType : UInt64} {arr : LibdDarray α} {contents : List α}
    (h : Represents sizeofType arr contents) {step : DarrayStep α} {r : DarrayReturn α}
    (hspec : CallSpec sizeofType step.realloc arr contents (step.index arr) step.source r) :
    Represents sizeofType r.arr (if r.result = 0 then step.effect contents else contents) := by
  by_cases hzero : r.result = 0
  · obtain ⟨source, hsource, hwritten⟩ := hspec.written hzero
    rw [DarrayStep.splice_index h hsource] at hwritten
    rw [if_pos hzero]
    exact hwritten
  · rw [if_neg hzero, hspec.unchanged hzero]
    exact h

private theorem Represents.run {sizeofType : UInt64} (hsizeof : 1 ≤ sizeofType.toNat)
    {arr : LibdDarray α} {contents : List α} (h : Represents sizeofType arr contents)
    {steps : List (DarrayStep α)} (hallowed : RunAllowed sizeofType arr steps) :
    ∃ final results, Converges (runSteps sizeofType arr steps) (final, results) ∧
      Represents sizeofType final (runLists contents steps results) := by
  induction steps generalizing arr contents with
  | nil => exact ⟨arr, [], Converges.ret _, h⟩
  | cons step steps ih =>
    obtain ⟨r, hr, hspec⟩ := h.call hsizeof hallowed.1
    obtain ⟨final, results, hrest, hfinal⟩ := ih (h.step hspec) (hallowed.2 r hr)
    refine ⟨final, r.result :: results, ?_, hfinal⟩
    exact hr.bind (hrest.bind (Converges.ret _))

/-- Every run of calls returns, whatever `realloc` does, and leaves an array that holds the list the
same calls give. In the state reached the size is within the capacity, `at` reads the list, and the
next call refuses without a change or writes its block over the list. -/
theorem darray_refines_list (sizeofType : UInt64) (hsizeof : 1 ≤ sizeofType.toNat)
    (mallocArr mallocDat : Bool) (capacity : UInt64) (arr : LibdDarray α)
    (hcreate : libdDarrayCreate sizeofType mallocArr mallocDat capacity = some arr)
    (hword : capacity.toNat * sizeofType.toNat < 2 ^ 64) (steps : List (DarrayStep α))
    (hallowed : RunAllowed sizeofType arr steps) :
    ∃ final results, Converges (runSteps sizeofType arr steps) (final, results) ∧
      Represents sizeofType final (runLists [] steps results) ∧
      (final.size ≤ final.capacity ∧ 1 ≤ final.capacity) ∧
      (∀ i : UInt64,
        (i.toNat < (runLists [] steps results).length → libdDarrayAt final false i = some i ∧
          final.elementAt i = (runLists [] steps results)[i.toNat]?) ∧
        ((runLists [] steps results).length ≤ i.toNat → libdDarrayAt final false i = none)) ∧
      (∀ step : DarrayStep α, step.Allowed sizeofType final →
        ∃ r, Converges (fun fuel => step.run sizeofType final fuel) r ∧
          CallSpec sizeofType step.realloc final (runLists [] steps results) (step.index final)
            step.source r) := by
  have hstart := libdDarrayCreate_represents hcreate hword
  obtain ⟨final, results, hrun, hfinal⟩ := hstart.run hsizeof hallowed
  refine ⟨final, results, hrun, hfinal, ⟨hfinal.size_le, hfinal.capacity_pos⟩, hfinal.read, ?_⟩
  intro step hnext
  exact hfinal.call hsizeof hnext

/-- Three elements appended with two doublings, and a write across the end whose `realloc` fails. -/
theorem darray_refines_list_failed_growth :
    ∃ (arr final : LibdDarray Nat) (results : List Int),
      libdDarrayCreate 4 true true 1 = some arr ∧
      Converges (runSteps 4 arr
        [⟨.appendN (some [1, 2, 3]) 3, fun _ => true⟩,
          ⟨.memcpyAt 1 (some [7, 8, 9, 10]) 4, fun _ => false⟩]) (final, results) ∧
      Represents 4 final (runLists []
        [⟨.appendN (some [1, 2, 3]) 3, fun _ => true⟩,
          ⟨.memcpyAt 1 (some [7, 8, 9, 10]) 4, fun _ => false⟩] results) := by
  obtain ⟨arr, harr⟩ : ∃ arr : LibdDarray Nat, libdDarrayCreate 4 true true 1 = some arr :=
    ⟨_, rfl⟩
  have hallowed : RunAllowed 4 arr
      [⟨.appendN (some [1, 2, 3]) 3, fun _ => true⟩,
        ⟨.memcpyAt 1 (some [7, 8, 9, 10]) 4, fun _ => false⟩] := by
    cases harr
    constructor
    · intro source hsource _
      cases hsource
      exact ⟨rfl, 2, by decide, by decide⟩
    · intro r hr
      obtain ⟨enough, hr⟩ := hr
      have hrun := hr (enough + 3) (by omega)
      cases hrun
      refine ⟨?_, fun _ _ => trivial⟩
      intro source hsource _
      cases hsource
      exact ⟨rfl, 1, by decide, by decide⟩
  obtain ⟨final, results, hrun, hfinal, -⟩ :=
    darray_refines_list 4 (by decide) true true 1 arr harr (by decide) _ hallowed
  exact ⟨arr, final, results, harr, hrun, hfinal⟩

end Libdane
