import Libdane.Framework.SettledWords

/-!
# File trees

Nodes have named children, and a child knows its parent. A word walks through the tree: a push goes
to a child and a pop to the parent, which is the root itself at the root. The names of the nodes on
the way down form a tree of their own, in which every walk arrives.
-/

namespace StackWords

open StackOp

structure FileTree (ν α : Type) where
  root : ν
  child : ν → α → Option ν
  parent : ν → ν
  parent_root : parent root = root
  parent_child : ∀ {n a m}, child n a = some m → parent m = n

namespace FileTree

variable {ν α : Type}

/-- The node that a word walks to. -/
def walk (t : FileTree ν α) : List (StackOp α) → ν → Option ν
  | [], n => some n
  | push a :: ops, n => (t.child n a).bind (t.walk ops)
  | pop :: ops, n => t.walk ops (t.parent n)

/-- The node below the root that some names lead to, the last name first. -/
def node (t : FileTree ν α) : List α → Option ν
  | [] => some t.root
  | a :: names => (t.node names).bind fun n => t.child n a

theorem node_tail {t : FileTree ν α} {names : List α} {n : ν} (h : t.node names = some n) :
    t.node names.tail = some (t.parent n) := by
  cases names with
  | nil =>
    rw [node, Option.some.injEq] at h
    rw [List.tail_nil, node, ← h, t.parent_root]
  | cons a names =>
    rw [node] at h
    obtain ⟨above, habove, hchild⟩ := Option.bind_eq_some_iff.mp h
    rw [List.tail_cons, habove, t.parent_child hchild]

theorem node_settle {t : FileTree ν α} {ops : List (StackOp α)} {names : List α} {n m : ν}
    (hnames : t.node names = some n) (h : t.walk ops n = some m) :
    t.node (settle ops names) = some m := by
  induction ops generalizing names n with
  | nil =>
    rw [walk, Option.some.injEq] at h
    simpa [h] using hnames
  | cons op ops ih =>
    cases op with
    | push a =>
      rw [walk] at h
      obtain ⟨below, hchild, hwalk⟩ := Option.bind_eq_some_iff.mp h
      rw [settle_push]
      apply ih _ hwalk
      rw [node, hnames, Option.bind_some, hchild]
    | pop =>
      rw [walk] at h
      rw [settle_pop]
      exact ih (node_tail hnames) h

theorem walk_push (t : FileTree ν α) (down names : List α) :
    (t.node names).bind (t.walk (down.map push)) = t.node (down.reverse ++ names) := by
  induction down generalizing names with
  | nil => simp [walk]
  | cons a down ih =>
    rw [List.map_cons, List.reverse_cons, List.append_assoc, List.singleton_append, ← ih, node,
      Option.bind_assoc]
    rfl

/-- The tree of all names. -/
def ofNames (α : Type) : FileTree (List α) α where
  root := []
  child names a := some (a :: names)
  parent := List.tail
  parent_root := rfl
  parent_child h := by
    cases h
    rfl

theorem walk_ofNames (ops : List (StackOp α)) (names : List α) :
    (ofNames α).walk ops names = some (settle ops names) := by
  induction ops generalizing names with
  | nil => simp [walk]
  | cons op ops ih =>
    cases op with
    | push a => exact (ih (a :: names)).trans (by rw [settle_push])
    | pop => exact (ih names.tail).trans (by rw [settle_pop])

theorem node_ofNames (names : List α) : (ofNames α).node names = some names := by
  induction names with
  | nil => rfl
  | cons a names ih =>
    rw [node, ih]
    rfl

/-- Some names lead to the node that a word walks to in every tree in which it arrives, exactly if
they are what the word leaves. -/
theorem walk_node_iff (ops : List (StackOp α)) (names : List α) :
    (∀ (ν : Type) (t : FileTree ν α) n, t.walk ops t.root = some n → t.node names = some n) ↔
      settle ops [] = names := by
  constructor
  · intro h
    have hnode := h (List α) (ofNames α) (settle ops []) (walk_ofNames ops [])
    rw [node_ofNames, Option.some.injEq] at hnode
    exact hnode.symm
  · rintro rfl ν t n hwalk
    exact node_settle rfl hwalk

end FileTree

end StackWords
