import Libdane.Filesystem.PathReading
import Libdane.Framework.StackWords

/-!
# Components

The marks of a path are a word of stack operations on its components: a separator closes the open
component and pushes it, a parent reference pops. The output is the stack, separator by separator,
and the open component behind it.
-/

namespace Libdane

open StackWords StackOp

/-- The open component after one more byte. -/
def openAfter (opened : List UInt8) (b : UInt8) : List UInt8 :=
  if b = pathSeparator then [] else opened ++ [b]

/-- The pushes and pops of the marks behind an open component. -/
def markOps : List UInt8 → List Mark → List (StackOp (List UInt8))
  | _, [] => []
  | opened, .byte b :: marks =>
    if b = pathSeparator then push opened :: markOps [] marks else markOps (opened ++ [b]) marks
  | _, .parent :: marks => pop :: markOps [] marks

/-- The component that is still open at the end. -/
def markLast : List UInt8 → List Mark → List UInt8
  | opened, [] => opened
  | opened, .byte b :: marks => markLast (openAfter opened b) marks
  | _, .parent :: marks => markLast [] marks

/-- Parent references come only where no component is open. -/
def ParentsAligned : List UInt8 → List Mark → Prop
  | _, [] => True
  | opened, .byte b :: marks => ParentsAligned (openAfter opened b) marks
  | opened, .parent :: marks => opened = [] ∧ ParentsAligned [] marks

theorem markOps_bytes {bytes : List UInt8} (hs : pathSeparator ∉ bytes) (opened : List UInt8)
    (marks : List Mark) :
    markOps opened (bytes.map Mark.byte ++ marks) = markOps (opened ++ bytes) marks := by
  induction bytes generalizing opened with
  | nil => simp
  | cons b bytes ih =>
    simp only [List.mem_cons, not_or] at hs
    have hb : b ≠ pathSeparator := fun he => hs.1 he.symm
    simp [markOps, hb, ih hs.2]

theorem markLast_bytes {bytes : List UInt8} (hs : pathSeparator ∉ bytes) (opened : List UInt8)
    (marks : List Mark) :
    markLast opened (bytes.map Mark.byte ++ marks) = markLast (opened ++ bytes) marks := by
  induction bytes generalizing opened with
  | nil => simp
  | cons b bytes ih =>
    simp only [List.mem_cons, not_or] at hs
    have hb : b ≠ pathSeparator := fun he => hs.1 he.symm
    simp [markLast, openAfter, hb, ih hs.2]

private theorem parentsAligned_bytes (bytes opened : List UInt8) (marks : List Mark) :
    ParentsAligned opened (bytes.map Mark.byte ++ marks) ↔
      ParentsAligned (bytes.foldl openAfter opened) marks := by
  induction bytes generalizing opened with
  | nil => simp
  | cons b bytes ih => simp [ParentsAligned, ih]

private theorem foldl_openAfter {bytes : List UInt8} (h : bytes.getLast? = some pathSeparator)
    (opened : List UInt8) : bytes.foldl openAfter opened = [] := by
  induction bytes using List.reverseRecOn with
  | nil => simp at h
  | append_singleton bytes b _ =>
    simp only [List.getLast?_append, List.getLast?_singleton, Option.some_or, Option.some.injEq] at h
    simp [openAfter, h]

theorem Reads.aligned {behind : Bool} {rest opened : List UInt8} {marks : List Mark}
    (h : Reads behind rest marks) (hopen : behind = true → opened = []) :
    ParentsAligned opened marks := by
  induction h generalizing opened with
  | stop => trivial
  | @act behind behind' rest rest' a marks hstep h ih =>
    have hcase := readNext_cases behind rest
    rw [hstep] at hcase
    cases hcase with
    | separator rest =>
      rw [Act.marks, parentsAligned_bytes]
      exact ih fun _ => foldl_openAfter rfl opened
    | relative rest hbehind hends => exact ih fun _ => hopen hbehind
    | parent rest hbehind hends hdots => exact ⟨hopen hbehind, ih fun _ => rfl⟩
    | character b more rest hb hs hlen hdot =>
      rw [Act.marks, parentsAligned_bytes]
      apply ih
      intro hlast
      exact foldl_openAfter (by simpa using hlast) opened

def applyOps (side : Side) : List (StackOp (List UInt8)) → List UInt8 → Option (List UInt8)
  | [], output => some output
  | push c :: ops, output => applyOps side ops (output ++ c ++ [pathSeparator])
  | pop :: ops, output =>
    if output.length ≤ 1 then none else applyOps side ops (dropParent side output)

theorem rewriteOutput_eq_applyOps (side : Side) {opened : List UInt8} {marks : List Mark}
    (h : ParentsAligned opened marks) (output : List UInt8) :
    rewriteOutput side marks (output ++ opened) =
      (applyOps side (markOps opened marks) output).map fun final =>
        final ++ markLast opened marks := by
  induction marks generalizing opened output with
  | nil => simp [rewriteOutput, markOps, applyOps, markLast]
  | cons mark marks ih =>
    cases mark with
    | byte b =>
      by_cases hb : b = pathSeparator
      · have hrest := ih h (output ++ opened ++ [b])
        simp only [openAfter, hb, if_true, List.append_nil] at hrest
        simpa [rewriteOutput, markOps, markLast, applyOps, openAfter, hb] using hrest
      · have hrest := ih h output
        simp only [openAfter, hb, if_false, ← List.append_assoc] at hrest
        simpa [rewriteOutput, markOps, markLast, applyOps, openAfter, hb] using hrest
    | parent =>
      rcases h with ⟨rfl, hmarks⟩
      rw [List.append_nil, rewriteOutput, markOps, markLast, applyOps]
      by_cases hlen : output.length ≤ 1
      · simp [hlen]
      · have hrest := ih hmarks (dropParent side output)
        rw [List.append_nil] at hrest
        simpa [hlen] using hrest

/-- The output that holds exactly the components of a stack. -/
def render (stack : List (List UInt8)) : List UInt8 :=
  pathSeparator :: stack.reverse.flatMap fun c => c ++ [pathSeparator]

theorem render_nil : render [] = [pathSeparator] := rfl

theorem render_cons (c : List UInt8) (stack : List (List UInt8)) :
    render (c :: stack) = render stack ++ c ++ [pathSeparator] := by
  simp [render, List.append_assoc]

theorem length_render (stack : List (List UInt8)) :
    (render stack).length = (stack.map fun c => c.length + 1).sum + 1 := by
  induction stack with
  | nil => rfl
  | cons c stack ih =>
    rw [render_cons, List.length_append, List.length_append, ih, List.map_cons, List.sum_cons,
      List.length_singleton]
    omega

theorem render_getLast (stack : List (List UInt8)) :
    (render stack).getLast? = some pathSeparator := by
  cases stack with
  | nil => rfl
  | cons c stack => simp [render_cons]

theorem dropParent_render {c : List UInt8} (hs : pathSeparator ∉ c) (stack : List (List UInt8)) :
    dropParent .above (render (c :: stack)) = render stack := by
  have hlast := render_getLast stack
  rw [render_cons, dropParent, List.dropLast_concat]
  induction c using List.reverseRecOn with
  | nil =>
    rw [List.append_nil, List.rdropWhile_eq_self_iff]
    intro hne
    rw [List.getLast?_eq_some_getLast hne, Option.some.injEq] at hlast
    simp [hlast]
  | append_singleton c b ih =>
    simp only [List.mem_append, List.mem_singleton, not_or] at hs
    rw [← List.append_assoc, List.rdropWhile_concat_pos]
    · exact ih hs.1
    · simpa using fun he => hs.2 he.symm

theorem applyOps_above {ops : List (StackOp (List UInt8))} {stack : List (List UInt8)}
    (hops : ∀ c, push c ∈ ops → pathSeparator ∉ c) (hstack : ∀ c ∈ stack, pathSeparator ∉ c) :
    applyOps .above ops (render stack) = (run ops stack).map render := by
  induction ops generalizing stack with
  | nil => simp [applyOps]
  | cons op ops ih =>
    have hops' : ∀ c, push c ∈ ops → pathSeparator ∉ c :=
      fun c hc => hops c (List.mem_cons_of_mem op hc)
    cases op with
    | push c =>
      rw [applyOps, run_push, ← render_cons]
      apply ih hops'
      intro d hd
      rcases List.mem_cons.mp hd with rfl | hd
      · exact hops d List.mem_cons_self
      · exact hstack d hd
    | pop =>
      cases stack with
      | nil => simp [applyOps, render_nil]
      | cons c stack =>
        have hlen : ¬(render (c :: stack)).length ≤ 1 := by
          rw [length_render, List.map_cons, List.sum_cons]
          omega
        rw [applyOps, if_neg hlen, run_pop_cons, dropParent_render (hstack c List.mem_cons_self)]
        exact ih hops' fun d hd => hstack d (List.mem_cons_of_mem c hd)

theorem applyOps_below_length (ops : List (StackOp (List UInt8))) {output : List UInt8}
    (hne : output ≠ []) :
    (applyOps .below ops output).map (fun final => final.length - 1) =
      descend (fun c => c.length + 1) ops (output.length - 1) := by
  induction ops generalizing output with
  | nil => simp [applyOps, descend]
  | cons op ops ih =>
    have hpos := List.length_pos_iff.mpr hne
    cases op with
    | push c =>
      rw [applyOps, ih (by simp), descend]
      congr 1
      simp
      omega
    | pop =>
      rw [applyOps]
      by_cases hlen : output.length ≤ 1
      · have hzero : output.length - 1 = 0 := by omega
        rw [if_pos hlen, hzero, descend]
        rfl
      · obtain ⟨n, hn⟩ : ∃ n, output.length - 1 = n + 1 := ⟨output.length - 2, by omega⟩
        rw [if_neg hlen, dropParent, ih, List.length_dropLast, hn, descend]
        · rfl
        · apply List.ne_nil_of_length_pos
          rw [List.length_dropLast]
          omega

theorem applyOps_below {ops : List (StackOp (List UInt8))} {stack final : List (List UInt8)}
    (hrun : run ops stack = some final) (hempty : ∀ c ∈ removed ops stack, c = []) :
    applyOps .below ops (render stack) = some (render final) := by
  induction ops generalizing stack with
  | nil =>
    simp only [run_nil, Option.some.injEq] at hrun
    rw [applyOps, hrun]
  | cons op ops ih =>
    cases op with
    | push c =>
      rw [run_push] at hrun
      rw [removed_push] at hempty
      rw [applyOps, ← render_cons]
      exact ih hrun hempty
    | pop =>
      cases stack with
      | nil => simp at hrun
      | cons c stack =>
        rw [run_pop_cons] at hrun
        rw [removed_pop_cons] at hempty
        have hc := hempty c List.mem_cons_self
        have hlen : ¬(render (c :: stack)).length ≤ 1 := by
          rw [length_render, List.map_cons, List.sum_cons]
          omega
        have hdrop : dropParent .below (render (c :: stack)) = render stack := by
          rw [render_cons, dropParent, List.dropLast_concat, hc, List.append_nil]
        rw [applyOps, if_neg hlen, hdrop]
        exact ih hrun fun d hd => hempty d (List.mem_cons_of_mem c hd)

end Libdane
