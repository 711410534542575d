import Libdane.Filesystem.PathComposition
import Libdane.Framework.FileTree

/-!
# The node that a path names

A path is there to name a node of a file tree, and its normalised form is to name the same one. It
does in every tree, unless a parent reference behind a name that stays removes an empty component in
place of that name.
-/

namespace Libdane

open ByteMachine StackWords StackOp FileTree

variable {ν : Type}

/-- An empty component and a single dot stay at a node, two dots go to its parent. -/
def lookupStep (t : FileTree ν (List UInt8)) (n : ν) (c : List UInt8) : Option ν :=
  if c = [] ∨ c = dotName then some n
  else if c = dotDotName then some (t.parent n)
  else t.child n c

/-- The node that an absolute path names. -/
def lookup (t : FileTree ν (List UInt8)) (p : List UInt8) : Option ν :=
  (p.splitOn pathSeparator).foldlM (lookupStep t) t.root

private theorem foldlM_lookupStep (t : FileTree ν (List UInt8)) (components : List (List UInt8))
    (n : ν) :
    components.foldlM (lookupStep t) n =
      t.walk ((components.filter fun c => c ≠ [] ∧ c ≠ dotName).map resolveOp) n := by
  induction components generalizing n with
  | nil => rfl
  | cons c components ih =>
    rw [List.foldlM_cons]
    by_cases hstays : c = [] ∨ c = dotName
    · have hfilter : ¬(c ≠ [] ∧ c ≠ dotName) := by tauto
      rw [lookupStep, if_pos hstays, List.filter_cons_of_neg (by simpa using hfilter)]
      exact ih n
    · have hfilter : c ≠ [] ∧ c ≠ dotName := not_or.mp hstays
      rw [lookupStep, if_neg hstays, List.filter_cons_of_pos (by simpa using hfilter), List.map_cons,
        resolveOp]
      by_cases hparent : c = dotDotName
      · rw [if_pos hparent, if_pos hparent, walk]
        exact ih (t.parent n)
      · rw [if_neg hparent, if_neg hparent, walk]
        exact congrArg (t.child n c).bind (funext ih)

private theorem lookup_eq (t : FileTree ν (List UInt8)) {p : List UInt8}
    (hstarts : p.head? = some pathSeparator) :
    lookup t p = t.walk (without isEmptyComponent (pathOps p) ++
      lastOps (componentLast (componentsOf p))) t.root := by
  obtain ⟨-, -, hsplit⟩ := joined_componentsOf hstarts
  have hfilter : ([] :: componentsOf p).filter (fun c => c ≠ [] ∧ c ≠ dotName) =
      (componentsOf p).filter fun c => c ≠ [] ∧ c ≠ dotName :=
    List.filter_cons_of_neg (by simp)
  rw [lookup, foldlM_lookupStep, hsplit, hfilter, resolveOps_eq _ false, pathOps]

private theorem lookup_render (t : FileTree ν (List UInt8)) {stack : List (List UInt8)}
    {last : List UInt8} (hstack : ∀ c ∈ stack, pathSeparator ∉ c) (hlast : pathSeparator ∉ last)
    (hnames : ∀ c ∈ stack, ¬IsDotName c) (hlastName : ¬IsDotName last) :
    lookup t (render stack ++ last) =
      t.node ((last :: stack).filter fun c => !isEmptyComponent c) := by
  have hdown : (((render stack ++ last).splitOn pathSeparator).filter
      fun c => c ≠ [] ∧ c ≠ dotName).map resolveOp =
        (((last :: stack).filter fun c => !isEmptyComponent c).reverse).map push := by
    have hname : ∀ c ∈ (last :: stack).reverse, ¬IsDotName c := by
      intro c hc
      rcases List.mem_cons.mp (List.mem_reverse.mp hc) with rfl | hc
      · exact hlastName
      · exact hnames c hc
    rw [splitOn_render hstack hlast, List.filter_cons_of_neg (by simp), ← List.reverse_cons,
      ← List.filter_reverse]
    generalize (last :: stack).reverse = components at hname
    induction components with
    | nil => rfl
    | cons c components ih =>
      have hc := not_or.mp (hname c List.mem_cons_self)
      have hrest := ih fun d hd => hname d (List.mem_cons_of_mem c hd)
      by_cases hempty : c = []
      · simpa [hempty, isEmptyComponent] using hrest
      · simpa [hempty, hc.1, hc.2, resolveOp, isEmptyComponent] using hrest
  have hwalk := t.walk_push ((last :: stack).filter fun c => !isEmptyComponent c).reverse []
  rw [node, Option.bind_some, List.reverse_reverse, List.append_nil] at hwalk
  rw [lookup, foldlM_lookupStep, hdown, hwalk]

private theorem settle_lastOps (last : List UInt8) (stack : List (List UInt8)) :
    settle (lastOps last) (stack.filter fun c => !isEmptyComponent c) =
      (last :: stack).filter fun c => !isEmptyComponent c := by
  by_cases hlast : last = [] <;> simp [lastOps, hlast, isEmptyComponent]

private theorem settle_lastOps_inj {last : List UInt8} {left right : List (List UInt8)} :
    settle (lastOps last) left = settle (lastOps last) right ↔ left = right := by
  by_cases hlast : last = [] <;> simp [lastOps, hlast]

end Libdane
