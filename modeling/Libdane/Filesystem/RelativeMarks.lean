import Libdane.Filesystem.PathComponents

/-!
# The marks of a relative path

A parent reference that meets the first component of a relative path has no separator to stop at.
The marks are the operations on the components all the same, up to the first such reference.
-/

namespace Libdane

open StackWords StackOp

/-- What becomes of a relative path: an output, `libd_invalid_path`, or a scan below the output. -/
inductive RelativeOutcome (α : Type) where
  | ok (a : α)
  | invalid
  | leaves
  deriving DecidableEq

def RelativeOutcome.map {α β : Type} (f : α → β) : RelativeOutcome α → RelativeOutcome β
  | ok a => ok (f a)
  | invalid => invalid
  | leaves => leaves

/-- The output of a relative path after some marks. -/
def rewriteRelative : List Mark → List UInt8 → RelativeOutcome (List UInt8)
  | [], output => .ok output
  | .byte b :: marks, output => rewriteRelative marks (output ++ [b])
  | .parent :: marks, output =>
    if output.length ≤ 1 then .invalid
    else if pathSeparator ∈ output.dropLast then rewriteRelative marks (dropParent .above output)
    else .leaves

/-- The components of a relative path after some operations. The first one is never dropped. -/
def runRelative : List (StackOp (List UInt8)) → List (List UInt8) →
    RelativeOutcome (List (List UInt8))
  | [], stack => .ok stack
  | push c :: ops, stack => runRelative ops (c :: stack)
  | pop :: _, [] => .invalid
  | pop :: _, [c] => if c = [] then .invalid else .leaves
  | pop :: ops, _ :: d :: stack => runRelative ops (d :: stack)

theorem run_of_runRelative {ops : List (StackOp (List UInt8))} {stack final : List (List UInt8)}
    (h : runRelative ops stack = .ok final) : run ops stack = some final := by
  induction ops generalizing stack with
  | nil => simpa [runRelative] using h
  | cons op ops ih =>
    cases op with
    | push c => exact ih h
    | pop =>
      cases stack with
      | nil => simp [runRelative] at h
      | cons c below =>
        cases below with
        | nil =>
          rw [runRelative] at h
          split_ifs at h
        | cons d stack => exact ih h

theorem rewriteRelative_bytes (bytes : List UInt8) (marks : List Mark) (output : List UInt8) :
    rewriteRelative (bytes.map Mark.byte ++ marks) output = rewriteRelative marks (output ++ bytes) := by
  induction bytes generalizing output with
  | nil => simp
  | cons b bytes ih => simp [rewriteRelative, ih]

theorem dropParent_cons {b : UInt8} {output : List UInt8} (h : pathSeparator ∈ output.dropLast) :
    dropParent .above (b :: output) = b :: dropParent .above output := by
  have hne : output ≠ [] := by
    rintro rfl
    simp at h
  rw [dropParent, dropParent, List.dropLast_cons_of_ne_nil hne]
  generalize output.dropLast = front at h
  induction front using List.reverseRecOn with
  | nil => simp at h
  | append_singleton front x ih =>
    by_cases hx : x = pathSeparator
    · rw [← List.cons_append, List.rdropWhile_concat_neg _ _ _ (by simp [hx]),
        List.rdropWhile_concat_neg _ _ _ (by simp [hx])]
      rfl
    · have hfront : pathSeparator ∈ front := by simpa [Ne.symm hx] using h
      rw [← List.cons_append, List.rdropWhile_concat_pos _ _ _ (by simpa using hx),
        List.rdropWhile_concat_pos _ _ _ (by simpa using hx)]
      exact ih hfront

/-- The marks of a relative path are the operations on its components. -/
theorem rewriteRelative_eq {opened output : List UInt8} {marks : List Mark}
    {stack : List (List UInt8)} (h : ParentsAligned opened marks) (hopen : pathSeparator ∉ opened)
    (hstack : ∀ c ∈ stack, pathSeparator ∉ c) (hout : pathSeparator :: output = render stack ++ opened) :
    rewriteRelative marks output =
      (runRelative (markOps opened marks) stack).map fun final =>
        (render final ++ markLast opened marks).tail := by
  induction marks generalizing opened output stack with
  | nil =>
    rw [rewriteRelative, markOps, runRelative, RelativeOutcome.map, markLast, ← hout]
    rfl
  | cons mark marks ih =>
    cases mark with
    | byte b =>
      rw [rewriteRelative, markOps, markLast, openAfter]
      by_cases hb : b = pathSeparator
      · have hstack' : ∀ c ∈ opened :: stack, pathSeparator ∉ c := by
          simpa [hopen] using hstack
        rw [if_pos hb, if_pos hb, runRelative]
        rw [ParentsAligned, openAfter, if_pos hb] at h
        apply ih h List.not_mem_nil hstack'
        rw [← List.cons_append, hout, render_cons, hb]
        simp
      · rw [if_neg hb, if_neg hb]
        rw [ParentsAligned, openAfter, if_neg hb] at h
        apply ih h _ hstack
        · rw [← List.cons_append, hout, List.append_assoc]
        · simpa [hopen] using Ne.symm hb
    | parent =>
      obtain ⟨rfl, hmarks⟩ := h
      rw [List.append_nil] at hout
      rw [rewriteRelative, markOps, markLast]
      cases stack with
      | nil =>
        have hnil : output = [] := by simpa [render] using hout
        simp [hnil, runRelative, RelativeOutcome.map]
      | cons c below =>
        have hfree : pathSeparator ∉ c := hstack c List.mem_cons_self
        cases below with
        | nil =>
          have hc : output = c ++ [pathSeparator] := by simpa [render] using hout
          rw [runRelative, hc]
          by_cases hnil : c = []
          · simp [hnil, RelativeOutcome.map]
          · have hlong : ¬(c ++ [pathSeparator]).length ≤ 1 := by
              simpa using hnil
            rw [if_neg hlong, List.dropLast_concat, if_neg hfree, if_neg hnil]
            rfl
        | cons d stack =>
          obtain ⟨front, hfront⟩ : ∃ front,
              render (d :: stack) = pathSeparator :: (front ++ [pathSeparator]) := by
            exists (stack.reverse.flatMap fun c => c ++ [pathSeparator]) ++ d
            simp [render]
          have hbehind : output = front ++ [pathSeparator] ++ c ++ [pathSeparator] := by
            rw [render_cons, hfront] at hout
            simpa using hout
          have hlong : ¬output.length ≤ 1 := by
            have hlen := congrArg List.length hbehind
            simp only [List.length_append, List.length_singleton] at hlen
            omega
          have hmem : pathSeparator ∈ output.dropLast := by
            rw [hbehind, List.dropLast_concat]
            simp
          have hdrop : pathSeparator :: dropParent .above output = render (d :: stack) := by
            rw [← dropParent_cons hmem, hout, dropParent_render hfree]
          rw [if_neg hlong, if_pos hmem, runRelative]
          apply ih hmarks List.not_mem_nil fun e he => hstack e (List.mem_cons_of_mem c he)
          rw [hdrop, List.append_nil]

end Libdane
