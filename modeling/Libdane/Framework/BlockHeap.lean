import Libdane.Framework.ByteMachine

/-!
# A heap of named blocks

A heap maps the names of the live blocks to what they hold. Reading, writing or freeing a block that
is not live is a fault. Several owners share a heap when their footprints tile it: every live block
lies in the footprint of exactly one of them.
-/

namespace BlockHeap

open ByteMachine ByteMachine.Exec

abbrev Heap (ν β : Type) : Type := ν → Option β

variable {ν β κ : Type}

section Access

variable {h : Heap ν β} {name other : ν} {block : β}

def load (h : Heap ν β) (name : ν) : Exec β :=
  match h name with
  | some block => ret block
  | none => fault

theorem load_eq_ret : load h name = ret block ↔ h name = some block := by
  unfold load
  cases h name <;> simp

theorem load_dead (hdead : h name = none) : load h name = fault := by
  simp [load, hdead]

variable [DecidableEq ν]

/-- `malloc`, where the allocator picked the name. -/
def malloc (h : Heap ν β) (name : ν) (block : β) : Heap ν β := Function.update h name (some block)

def store (h : Heap ν β) (name : ν) (block : β) : Exec (Heap ν β) :=
  match h name with
  | some _ => ret (malloc h name block)
  | none => fault

def free (h : Heap ν β) (name : ν) : Exec (Heap ν β) :=
  match h name with
  | some _ => ret (Function.update h name none)
  | none => fault

theorem store_live (hlive : (h name).isSome) (block : β) :
    store h name block = ret (malloc h name block) := by
  obtain ⟨old, hold⟩ := Option.isSome_iff_exists.mp hlive
  simp [store, hold]

theorem free_live (hlive : (h name).isSome) : free h name = ret (Function.update h name none) := by
  obtain ⟨old, hold⟩ := Option.isSome_iff_exists.mp hlive
  simp [free, hold]

@[simp] theorem malloc_self (h : Heap ν β) (name : ν) (block : β) :
    malloc h name block name = some block := Function.update_self ..

theorem malloc_of_ne (hne : other ≠ name) : malloc h name block other = h other :=
  Function.update_of_ne hne ..

end Access

/-- Every live block belongs to exactly one owner. -/
structure Tiles (h : Heap ν β) (footprint : κ → Set ν) : Prop where
  live : ∀ name, (h name).isSome ↔ ∃ k, name ∈ footprint k
  apart : ∀ j k name, name ∈ footprint j → name ∈ footprint k → j = k

variable {h after : Heap ν β} {footprint : κ → Set ν} {next : κ → Set ν} {k : κ}

/-- A step in the name of one owner replaces its footprint. What the owner had or takes from the dead
blocks is all that changes. -/
structure Replaces (h after : Heap ν β) (footprint next : κ → Set ν) (k : κ) : Prop where
  other : ∀ j, j ≠ k → next j = footprint j
  taken : ∀ name ∈ next k, name ∈ footprint k ∨ h name = none
  live : ∀ name, name ∈ footprint k ∨ name ∈ next k → ((after name).isSome ↔ name ∈ next k)
  frame : ∀ name, name ∉ footprint k → name ∉ next k → after name = h name

theorem Tiles.not_mem (htiles : Tiles h footprint) (hstep : Replaces h after footprint next k)
    {j : κ} (hj : j ≠ k) {name : ν} (hname : name ∈ footprint j) :
    name ∉ footprint k ∧ name ∉ next k := by
  have hnot : name ∉ footprint k := fun hmem => hj (htiles.apart j k name hname hmem)
  refine ⟨hnot, ?_⟩
  intro hmem
  rcases hstep.taken name hmem with hold | hdead
  · exact hnot hold
  · have hlive := (htiles.live name).mpr ⟨j, hname⟩
    rw [hdead] at hlive
    cases hlive

theorem Tiles.frame (htiles : Tiles h footprint) (hstep : Replaces h after footprint next k)
    {j : κ} (hj : j ≠ k) {name : ν} (hname : name ∈ footprint j) : after name = h name := by
  obtain ⟨hold, hnew⟩ := htiles.not_mem hstep hj hname
  exact hstep.frame name hold hnew

theorem Tiles.replace (htiles : Tiles h footprint) (hstep : Replaces h after footprint next k) :
    Tiles after next := by
  constructor
  case live =>
    intro name
    by_cases hown : name ∈ footprint k ∨ name ∈ next k
    · rw [hstep.live name hown]
      constructor
      · intro hmem
        exact ⟨k, hmem⟩
      · rintro ⟨j, hmem⟩
        by_cases hj : j = k
        · rwa [← hj]
        · rw [hstep.other j hj] at hmem
          obtain ⟨hold, hnew⟩ := htiles.not_mem hstep hj hmem
          exact absurd hown (by simp [hold, hnew])
    · rw [not_or] at hown
      rw [hstep.frame name hown.1 hown.2, htiles.live]
      apply exists_congr
      intro j
      by_cases hj : j = k
      · simp [hj, hown.1, hown.2]
      · rw [hstep.other j hj]
  case apart =>
    intro i j name hi hj
    by_cases hik : i = k
    · by_cases hjk : j = k
      · rw [hik, hjk]
      · rw [hstep.other j hjk] at hj
        rw [hik] at hi
        exact absurd hi (htiles.not_mem hstep hjk hj).2
    · rw [hstep.other i hik] at hi
      by_cases hjk : j = k
      · rw [hjk] at hj
        exact absurd hj (htiles.not_mem hstep hik hi).2
      · rw [hstep.other j hjk] at hj
        exact htiles.apart i j name hi hj

end BlockHeap
