import Mathlib.Data.List.Basic
import Mathlib.Tactic

/-!
# Words of stack operations

A word pushes labels and pops them again. Whether it runs, what its pops remove and what it leaves
behind are stated on the word alone: a pop cancels the push it matches across a balanced middle.
-/

namespace StackWords

inductive StackOp (α : Type) where
  | push (a : α)
  | pop
  deriving DecidableEq

open StackOp

variable {α : Type}

/-- The stack after a word, top first, or `none` when a pop meets the empty stack. -/
def run : List (StackOp α) → List α → Option (List α)
  | [], stack => some stack
  | push a :: ops, stack => run ops (a :: stack)
  | pop :: _, [] => none
  | pop :: ops, _ :: stack => run ops stack

@[simp] theorem run_nil (stack : List α) : run [] stack = some stack := by simp [run]

@[simp] theorem run_push (a : α) (ops : List (StackOp α)) (stack : List α) :
    run (push a :: ops) stack = run ops (a :: stack) := by simp [run]

@[simp] theorem run_pop_nil (ops : List (StackOp α)) : run (pop :: ops) ([] : List α) = none := by
  simp [run]

@[simp] theorem run_pop_cons (a : α) (ops : List (StackOp α)) (stack : List α) :
    run (pop :: ops) (a :: stack) = run ops stack := by simp [run]

theorem run_append (first second : List (StackOp α)) (stack : List α) :
    run (first ++ second) stack = (run first stack).bind (run second) := by
  induction first generalizing stack with
  | nil => simp
  | cons op first ih =>
    cases op with
    | push a => simp [ih]
    | pop => cases stack <;> simp [ih]

theorem run_frame {ops : List (StackOp α)} {stack final : List α} (h : run ops stack = some final)
    (below : List α) : run ops (stack ++ below) = some (final ++ below) := by
  induction ops generalizing stack with
  | nil =>
    simp only [run_nil, Option.some.injEq] at h
    simp [h]
  | cons op ops ih =>
    cases op with
    | push a =>
      rw [run_push] at h ⊢
      exact ih h
    | pop =>
      cases stack with
      | nil => simp at h
      | cons a stack =>
        rw [run_pop_cons] at h
        exact ih h

/-- A balanced word pops only what it pushed and leaves nothing behind. -/
def Balanced (ops : List (StackOp α)) : Prop := run ops [] = some []

theorem Balanced.run {ops : List (StackOp α)} (h : Balanced ops) (stack : List α) :
    StackWords.run ops stack = some stack := by
  simpa using run_frame h stack

/-- Some pop of the word removes a label with the property: push and pop enclose a balanced word. -/
def Cancels (P : α → Prop) (ops : List (StackOp α)) : Prop :=
  ∃ a before middle after,
    ops = before ++ push a :: (middle ++ pop :: after) ∧ Balanced middle ∧ P a

theorem Cancels.append {P : α → Prop} {first : List (StackOp α)} (h : Cancels P first)
    (second : List (StackOp α)) : Cancels P (first ++ second) := by
  rcases h with ⟨a, before, middle, after, rfl, hmiddle, ha⟩
  exact ⟨a, before, middle, after ++ second, by simp, hmiddle, ha⟩

/-- The labels that the pops of a word take off the stack, in order. -/
def removed : List (StackOp α) → List α → List α
  | [], _ => []
  | push a :: ops, stack => removed ops (a :: stack)
  | pop :: _, [] => []
  | pop :: ops, a :: stack => a :: removed ops stack

@[simp] theorem removed_nil (stack : List α) : removed [] stack = [] := by simp [removed]

@[simp] theorem removed_push (a : α) (ops : List (StackOp α)) (stack : List α) :
    removed (push a :: ops) stack = removed ops (a :: stack) := by simp [removed]

@[simp] theorem removed_pop_nil (ops : List (StackOp α)) :
    removed (pop :: ops) ([] : List α) = [] := by simp [removed]

@[simp] theorem removed_pop_cons (a : α) (ops : List (StackOp α)) (stack : List α) :
    removed (pop :: ops) (a :: stack) = a :: removed ops stack := by simp [removed]

theorem exists_pop_cons {Q : List (StackOp α) → Prop} {op : StackOp α} {ops : List (StackOp α)} :
    (∃ before after, op :: ops = before ++ pop :: after ∧ Q before) ↔
      (op = pop ∧ Q []) ∨ ∃ before after, ops = before ++ pop :: after ∧ Q (op :: before) := by
  constructor
  · intro h
    rcases h with ⟨before, after, heq, hq⟩
    cases before with
    | nil =>
      simp only [List.nil_append, List.cons.injEq] at heq
      exact Or.inl ⟨heq.1, hq⟩
    | cons first before =>
      simp only [List.cons_append, List.cons.injEq] at heq
      obtain ⟨rfl, rfl⟩ := heq
      exact Or.inr ⟨before, after, rfl, hq⟩
  · intro h
    rcases h with ⟨rfl, hq⟩ | ⟨before, after, rfl, hq⟩
    · exact ⟨[], ops, rfl, hq⟩
    · exact ⟨op :: before, after, rfl, hq⟩

theorem mem_removed_iff {ops : List (StackOp α)} {stack : List α} {a : α} :
    a ∈ removed ops stack ↔
      ∃ before after, ops = before ++ pop :: after ∧
        ∃ below, run before stack = some (a :: below) := by
  induction ops generalizing stack with
  | nil => simp
  | cons op ops ih =>
    rw [exists_pop_cons]
    cases op with
    | push b => simp [ih]
    | pop =>
      cases stack with
      | nil => simp
      | cons b stack => simp [ih, eq_comm]

theorem run_origin {ops : List (StackOp α)} {above below : List α} {a : α}
    (h : run ops [] = some (above ++ a :: below)) :
    ∃ before after, ops = before ++ push a :: after ∧ run after [] = some above := by
  induction ops using List.reverseRecOn generalizing above with
  | nil => simp at h
  | append_singleton ops op ih =>
    rw [run_append] at h
    obtain ⟨stack, hstack, hlast⟩ := Option.bind_eq_some_iff.mp h
    cases op with
    | push b =>
      simp only [run_push, run_nil, Option.some.injEq] at hlast
      cases above with
      | nil =>
        simp only [List.nil_append, List.cons.injEq] at hlast
        exact ⟨ops, [], by rw [hlast.1], by simp⟩
      | cons c above =>
        simp only [List.cons_append, List.cons.injEq] at hlast
        obtain ⟨before, after, rfl, hafter⟩ := ih (hstack.trans (congrArg some hlast.2))
        refine ⟨before, after ++ [push b], by simp, ?_⟩
        rw [run_append, hafter, hlast.1]
        simp
    | pop =>
      cases stack with
      | nil => simp at hlast
      | cons c stack =>
        simp only [run_pop_cons, run_nil, Option.some.injEq] at hlast
        obtain ⟨before, after, rfl, hafter⟩ :=
          @ih (c :: above) (hstack.trans (by rw [hlast]; rfl))
        refine ⟨before, after ++ [pop], by simp, ?_⟩
        rw [run_append, hafter]
        simp

theorem push_of_mem_run {ops : List (StackOp α)} {final : List α} {a : α}
    (h : run ops [] = some final) (ha : a ∈ final) : push a ∈ ops := by
  obtain ⟨above, below, rfl⟩ := List.append_of_mem ha
  obtain ⟨before, after, rfl, -⟩ := run_origin h
  simp

theorem cancels_iff_removed {ops : List (StackOp α)} {final : List α} (P : α → Prop)
    (h : run ops [] = some final) : Cancels P ops ↔ ∃ a ∈ removed ops [], P a := by
  constructor
  · intro h
    rcases h with ⟨a, before, middle, after, rfl, hmiddle, ha⟩
    rw [run_append] at h
    obtain ⟨below, hbefore, -⟩ := Option.bind_eq_some_iff.mp h
    refine ⟨a, mem_removed_iff.mpr ⟨before ++ push a :: middle, after, by simp, below, ?_⟩, ha⟩
    rw [run_append, hbefore]
    simpa using hmiddle.run (a :: below)
  · intro h
    rcases h with ⟨a, hmem, ha⟩
    obtain ⟨before, after, rfl, below, hbefore⟩ := mem_removed_iff.mp hmem
    obtain ⟨first, middle, rfl, hmiddle⟩ := @run_origin α before [] below a hbefore
    exact ⟨a, first, middle, after, by simp, hmiddle, ha⟩

theorem run_eq_none_iff {ops : List (StackOp α)} {stack : List α} :
    run ops stack = none ↔
      ∃ before after, ops = before ++ pop :: after ∧ run before stack = some [] := by
  induction ops generalizing stack with
  | nil => simp
  | cons op ops ih =>
    rw [exists_pop_cons]
    cases op with
    | push b => simp [ih]
    | pop =>
      cases stack with
      | nil => simp
      | cons b stack => simp [ih]

/-- No pop of the word behind some push of a label with the property matches that push. -/
def Unmatched (P : α → Prop) (ops : List (StackOp α)) : Prop :=
  ∃ a before after, ops = before ++ push a :: after ∧ P a ∧
    ¬∃ middle rest, after = middle ++ pop :: rest ∧ Balanced middle

theorem exists_mem_run_iff {ops : List (StackOp α)} {final : List α} (P : α → Prop)
    (h : run ops [] = some final) : (∃ a ∈ final, P a) ↔ Unmatched P ops := by
  constructor
  · intro h
    rcases h with ⟨a, hmem, ha⟩
    obtain ⟨above, below, rfl⟩ := List.append_of_mem hmem
    obtain ⟨before, after, rfl, hafter⟩ := run_origin h
    refine ⟨a, before, after, rfl, ha, ?_⟩
    intro hcancel
    rw [run_eq_none_iff.mpr hcancel] at hafter
    contradiction
  · intro h
    rcases h with ⟨a, before, after, rfl, ha, hkept⟩
    rw [run_append] at h
    obtain ⟨below, -, hrest⟩ := Option.bind_eq_some_iff.mp h
    rw [run_push] at hrest
    cases hafter : run after [] with
    | none => exact absurd (run_eq_none_iff.mp hafter) hkept
    | some above =>
      have hframe := run_frame hafter (a :: below)
      rw [List.nil_append, hrest, Option.some.injEq] at hframe
      exact ⟨a, by simp [hframe], ha⟩

/-- The word without the pushes of some labels. -/
def without (P : α → Bool) : List (StackOp α) → List (StackOp α)
  | [] => []
  | push a :: ops => if P a then without P ops else push a :: without P ops
  | pop :: ops => pop :: without P ops

theorem without_append (P : α → Bool) (first second : List (StackOp α)) :
    without P (first ++ second) = without P first ++ without P second := by
  induction first with
  | nil => rfl
  | cons op first ih =>
    cases op with
    | push a => by_cases ha : P a <;> simp [without, ha, ih]
    | pop => simp [without, ih]

theorem run_without {P : α → Bool} {ops : List (StackOp α)} {stack final : List α}
    (h : run ops stack = some final) (hkeep : ∀ a ∈ removed ops stack, P a = false) :
    run (without P ops) (stack.filter fun a => !P a) = some (final.filter fun a => !P a) := by
  induction ops generalizing stack with
  | nil =>
    simp only [run_nil, Option.some.injEq] at h
    simp [without, h]
  | cons op ops ih =>
    cases op with
    | push a =>
      rw [removed_push] at hkeep
      have hrest := ih (by simpa using h) hkeep
      by_cases ha : P a
      · simpa [without, ha] using hrest
      · simpa [without, ha] using hrest
    | pop =>
      cases stack with
      | nil => simp at h
      | cons a stack =>
        rw [removed_pop_cons] at hkeep
        have ha := hkeep a List.mem_cons_self
        have hrest := ih (by simpa using h) fun b hb => hkeep b (List.mem_cons_of_mem a hb)
        simpa [without, ha] using hrest

/-- The total weight of the labels a word pushes. -/
def pushed (weight : α → Nat) : List (StackOp α) → Nat
  | [] => 0
  | push a :: ops => weight a + pushed weight ops
  | pop :: ops => pushed weight ops

def pops : List (StackOp α) → Nat
  | [] => 0
  | push _ :: ops => pops ops
  | pop :: ops => pops ops + 1

@[simp] theorem pushed_nil (weight : α → Nat) : pushed weight [] = 0 := by simp [pushed]

@[simp] theorem pushed_push (weight : α → Nat) (a : α) (ops : List (StackOp α)) :
    pushed weight (push a :: ops) = weight a + pushed weight ops := by simp [pushed]

@[simp] theorem pushed_pop (weight : α → Nat) (ops : List (StackOp α)) :
    pushed weight (pop :: ops) = pushed weight ops := by simp [pushed]

@[simp] theorem pops_nil : pops ([] : List (StackOp α)) = 0 := by simp [pops]

@[simp] theorem pops_push (a : α) (ops : List (StackOp α)) : pops (push a :: ops) = pops ops := by
  simp [pops]

@[simp] theorem pops_pop (ops : List (StackOp α)) : pops (pop :: ops) = pops ops + 1 := by
  simp [pops]

theorem pushed_le {weight weight' : α → Nat} (h : ∀ a, weight a ≤ weight' a)
    (ops : List (StackOp α)) : pushed weight ops ≤ pushed weight' ops := by
  induction ops with
  | nil => simp
  | cons op ops ih =>
    cases op with
    | push a =>
      simp only [pushed_push]
      exact Nat.add_le_add (h a) ih
    | pop => simpa using ih

theorem pushed_without (P : α → Bool) (weight : α → Nat) (ops : List (StackOp α)) :
    pushed weight (without P ops) = pushed (fun a => if P a then 0 else weight a) ops := by
  induction ops with
  | nil => rfl
  | cons op ops ih =>
    cases op with
    | push a => by_cases ha : P a <;> simp [without, ha, ih]
    | pop => simpa [without] using ih

theorem pops_without (P : α → Bool) (ops : List (StackOp α)) :
    pops (without P ops) = pops ops := by
  induction ops with
  | nil => rfl
  | cons op ops ih =>
    cases op with
    | push a => by_cases ha : P a <;> simp [without, ha, ih]
    | pop => simp [without, ih]

theorem weight_conserved (weight : α → Nat) {ops : List (StackOp α)} {stack final : List α}
    (h : run ops stack = some final) :
    (final.map weight).sum + ((removed ops stack).map weight).sum =
      (stack.map weight).sum + pushed weight ops := by
  induction ops generalizing stack with
  | nil =>
    simp only [run_nil, Option.some.injEq] at h
    simp [h]
  | cons op ops ih =>
    cases op with
    | push a =>
      have hrest := ih (by simpa using h)
      simp only [List.map_cons, List.sum_cons] at hrest
      simp only [removed_push, pushed_push]
      omega
    | pop =>
      cases stack with
      | nil => simp at h
      | cons a stack =>
        have hrest := ih (by simpa using h)
        simp only [removed_pop_cons, pushed_pop, List.map_cons, List.sum_cons]
        omega

theorem length_removed {ops : List (StackOp α)} {stack final : List α}
    (h : run ops stack = some final) : (removed ops stack).length = pops ops := by
  induction ops generalizing stack with
  | nil => simp
  | cons op ops ih =>
    cases op with
    | push a => simpa using ih (by simpa using h)
    | pop =>
      cases stack with
      | nil => simp at h
      | cons a stack => simpa using ih (by simpa using h)

/-- The depth of a stack on which a push counts its weight and a pop one. -/
def descend (weight : α → Nat) : List (StackOp α) → Nat → Option Nat
  | [], depth => some depth
  | push a :: ops, depth => descend weight ops (depth + weight a)
  | pop :: _, 0 => none
  | pop :: ops, depth + 1 => descend weight ops depth

/-- Some pop of the word meets a stack whose pushed weight is used up. -/
def Overpops (weight : α → Nat) (ops : List (StackOp α)) (depth : Nat) : Prop :=
  ∃ before after, ops = before ++ pop :: after ∧ depth + pushed weight before ≤ pops before

theorem descend_eq_none_iff (weight : α → Nat) {ops : List (StackOp α)} {depth : Nat} :
    descend weight ops depth = none ↔ Overpops weight ops depth := by
  unfold Overpops
  induction ops generalizing depth with
  | nil => simp [descend]
  | cons op ops ih =>
    rw [exists_pop_cons]
    cases op with
    | push a => simp [descend, ih, Nat.add_assoc]
    | pop =>
      cases depth with
      | zero => simp [descend]
      | succ depth =>
        simp only [descend, ih, pushed_nil, pops_nil, pushed_pop, pops_pop]
        constructor
        · intro h
          rcases h with ⟨before, after, rfl, h⟩
          exact Or.inr ⟨before, after, rfl, by omega⟩
        · intro h
          rcases h with ⟨-, h⟩ | ⟨before, after, rfl, h⟩
          · omega
          · exact ⟨before, after, rfl, by omega⟩

theorem descend_add_pops (weight : α → Nat) {ops : List (StackOp α)} {depth final : Nat}
    (h : descend weight ops depth = some final) :
    final + pops ops = depth + pushed weight ops := by
  induction ops generalizing depth with
  | nil =>
    simp only [descend, Option.some.injEq] at h
    simp [h]
  | cons op ops ih =>
    cases op with
    | push a =>
      have hrest := ih h
      simp only [pops_push, pushed_push]
      omega
    | pop =>
      cases depth with
      | zero => simp [descend] at h
      | succ depth =>
        have hrest := ih h
        simp only [pops_pop, pushed_pop]
        omega

theorem descend_one (ops : List (StackOp α)) (stack : List α) :
    descend (fun _ => 1) ops stack.length = (run ops stack).map List.length := by
  induction ops generalizing stack with
  | nil => simp [descend]
  | cons op ops ih =>
    cases op with
    | push a => simpa [descend] using ih (a :: stack)
    | pop =>
      cases stack with
      | nil => simp [descend]
      | cons a stack => simpa [descend] using ih stack

theorem run_eq_none_iff_overpops {ops : List (StackOp α)} {stack : List α} :
    run ops stack = none ↔ Overpops (fun _ => 1) ops stack.length := by
  rw [← descend_eq_none_iff, descend_one, Option.map_eq_none_iff]

theorem not_overpops_of_run {ops : List (StackOp α)} {stack final : List α}
    (h : run ops stack = some final) : ¬Overpops (fun _ => 1) ops stack.length := by
  intro hover
  rw [run_eq_none_iff_overpops.mpr hover] at h
  cases h

theorem length_run {ops : List (StackOp α)} {stack final : List α}
    (h : run ops stack = some final) :
    final.length + pops ops = stack.length + pushed (fun _ => 1) ops := by
  apply descend_add_pops
  rw [descend_one, h, Option.map_some]

theorem Overpops.of_le {weight weight' : α → Nat} (hweight : ∀ a, weight a ≤ weight' a)
    {ops : List (StackOp α)} {depth : Nat} (h : Overpops weight' ops depth) :
    Overpops weight ops depth := by
  rcases h with ⟨before, after, rfl, hle⟩
  have hpushed := pushed_le hweight before
  exact ⟨before, after, rfl, by omega⟩

theorem Overpops.without (P : α → Bool) {weight : α → Nat} {ops : List (StackOp α)} {depth : Nat}
    (h : Overpops weight ops depth) : Overpops weight (without P ops) depth := by
  rcases h with ⟨before, after, rfl, hle⟩
  refine ⟨StackWords.without P before, StackWords.without P after, ?_, ?_⟩
  · rw [without_append]
    rfl
  · have hpushed : pushed (fun a => if P a then 0 else weight a) before ≤ pushed weight before := by
      apply pushed_le
      intro a
      by_cases ha : P a <;> simp [ha]
    rw [pushed_without, pops_without]
    omega

private theorem sum_kept (P : α → Bool) (labels : List α) :
    (labels.map fun a => if P a then 0 else 1).sum = (labels.filter fun a => !P a).length := by
  induction labels with
  | nil => rfl
  | cons a labels ih =>
    by_cases ha : P a
    · simp [ha, ih]
    · simp [ha, ih]
      omega

/-- Leaving out some labels only takes them out of the final stack exactly when no pop removes one
of them: otherwise the other pops reach further down. -/
theorem run_without_iff (P : α → Bool) {ops : List (StackOp α)} {final : List α}
    (h : run ops [] = some final) :
    run (without P ops) [] = some (final.filter fun a => !P a) ↔ ¬Cancels (fun a => P a = true) ops := by
  rw [cancels_iff_removed _ h]
  constructor
  · rintro hrun ⟨a, hmem, ha⟩
    have hlen := length_run hrun
    have hweight := weight_conserved (fun a => if P a then 0 else 1) h
    have hremoved := length_removed h
    rw [sum_kept, sum_kept] at hweight
    rw [pops_without, pushed_without] at hlen
    simp only [List.length_nil, List.map_nil, List.sum_nil, Nat.zero_add] at hlen hweight
    have hall : (removed ops []).length = ((removed ops []).filter fun a => !P a).length := by omega
    have hkept := List.length_filter_eq_length_iff.mp hall.symm a hmem
    simp [ha] at hkept
  · intro hkeep
    have hrun := run_without (P := P) h
    rw [List.filter_nil] at hrun
    apply hrun
    intro a hmem
    exact Bool.eq_false_iff.mpr fun ha => hkeep ⟨a, hmem, ha⟩

end StackWords
