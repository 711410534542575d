import Libdane.Filesystem.PathSimulation
import Libdane.Filesystem.PathText

/-!
# The lexical meaning of a path

Resolving a path folds its components over a stack. The function folds the same components together
with empty ones, so it resolves the path exactly as long as no parent reference removes an empty
component.
-/

namespace Libdane

open ByteMachine StackWords StackOp

/-- A NUL-terminated string in memory. -/
def StringAt (m : Mem) (start : Nat) (s : List UInt8) : Prop :=
  m.Holds start (s ++ [nullTerminator]) ∧ nullTerminator ∉ s

theorem StringAt.unique {m : Mem} {start : Nat} {s s' : List UInt8} (h : StringAt m start s)
    (h' : StringAt m start s') : s = s' := by
  obtain ⟨hholds, hnul⟩ := h
  obtain ⟨hholds', hnul'⟩ := h'
  induction s generalizing start s' with
  | nil =>
    cases s' with
    | nil => rfl
    | cons b s' =>
      have hhead := (Mem.holds_cons.mp hholds).1
      have hhead' := (Mem.holds_cons.mp hholds').1
      rw [hhead, Option.some.injEq] at hhead'
      exact absurd (by simp [hhead']) hnul'
  | cons a s ih =>
    obtain ⟨hhead, htail⟩ := Mem.holds_cons.mp hholds
    cases s' with
    | nil =>
      have hhead' := (Mem.holds_cons.mp hholds').1
      rw [hhead, Option.some.injEq] at hhead'
      exact absurd (by simp [hhead']) hnul
    | cons b s' =>
      obtain ⟨hhead', htail'⟩ := Mem.holds_cons.mp hholds'
      rw [hhead, Option.some.injEq] at hhead'
      simp only [List.mem_cons, not_or] at hnul hnul'
      rw [hhead', ih htail hnul.2 htail' hnul'.2]

/-- The bytes of a string in front of its terminator. -/
def beforeNul (bytes : List UInt8) : List UInt8 := bytes.takeWhile fun b => b != nullTerminator

theorem stringAt_beforeNul {m : Mem} {start : Nat} {bytes : List UInt8}
    (h : m.Holds start (bytes ++ [nullTerminator])) : StringAt m start (beforeNul bytes) := by
  have hout : nullTerminator ∉ beforeNul bytes := by
    intro hmem
    simpa using List.mem_takeWhile_imp hmem
  refine ⟨?_, hout⟩
  have hsplit : beforeNul bytes ++ bytes.dropWhile (fun b => b != nullTerminator) = bytes :=
    List.takeWhile_append_dropWhile
  cases hdrop : bytes.dropWhile fun b => b != nullTerminator with
  | nil =>
    rw [hdrop, List.append_nil] at hsplit
    rw [hsplit]
    exact h
  | cons b rest =>
    have hb : b = nullTerminator := by
      have hhead := List.head_dropWhile_not (fun b => b != nullTerminator) (l := bytes) (by simp [hdrop])
      simpa [hdrop] using hhead
    rw [hdrop, hb] at hsplit
    rw [← hsplit, List.append_assoc, List.cons_append, ← List.singleton_append, ← List.append_assoc,
      Mem.holds_append] at h
    exact h.1

/-- The non-empty components of a path. -/
def pathComponents (p : List UInt8) : List (List UInt8) :=
  (p.splitOn pathSeparator).filter fun c => c ≠ []

def resolveStep (stack : List (List UInt8)) (c : List UInt8) : Option (List (List UInt8)) :=
  if c = dotDotName then
    match stack with
    | [] => none
    | _ :: below => some below
  else some (c :: stack)

/-- The lexical meaning of a path: drop the empty components and the single dots, and fold the rest
over a stack on which two dots pop. -/
def resolve (p : List UInt8) : Option (List (List UInt8)) :=
  (((p.splitOn pathSeparator).filter fun c => c ≠ [] ∧ c ≠ dotName).foldlM resolveStep []).map
    List.reverse

/-- The answer says what the path means. -/
def ResolvesTo (args : NormalizeArgs) (p : List UInt8) (r : NormalizeReturn) : Prop :=
  (r.result = .invalidPath ↔ resolve p = none) ∧
    ∀ components, resolve p = some components →
      r.result = .ok ∧ ∃ out, StringAt r.dst args.outPath out ∧
        out.head? = some pathSeparator ∧ pathComponents out = components

theorem joined_append (components : List (List UInt8)) (last : List UInt8) :
    joined (components ++ [last]) = (components.flatMap fun c => c ++ [pathSeparator]) ++ last := by
  induction components with
  | nil => simp [joined]
  | cons c components ih =>
    cases components with
    | nil => simp [joined]
    | cons d components =>
      rw [List.cons_append, List.cons_append, joined_cons, ← List.cons_append, ih]
      simp

theorem splitOn_render {stack : List (List UInt8)} {last : List UInt8}
    (hstack : ∀ c ∈ stack, pathSeparator ∉ c) (hlast : pathSeparator ∉ last) :
    (render stack ++ last).splitOn pathSeparator = [] :: (stack.reverse ++ [last]) := by
  have htext : render stack ++ last = joined ([] :: (stack.reverse ++ [last])) := by
    rw [← List.cons_append, joined_append]
    rfl
  have hfree : ∀ c ∈ [] :: (stack.reverse ++ [last]), pathSeparator ∉ c := by
    intro c hc
    simp only [List.mem_cons, List.mem_append, List.mem_reverse, List.not_mem_nil, or_false] at hc
    rcases hc with rfl | hc | rfl
    · exact List.not_mem_nil
    · exact hstack c hc
    · exact hlast
  rw [htext, joined, List.splitOn_intercalate _ hfree (List.cons_ne_nil _ _)]

theorem pathComponents_render {stack : List (List UInt8)} {last : List UInt8}
    (hstack : ∀ c ∈ stack, pathSeparator ∉ c) (hlast : pathSeparator ∉ last) :
    pathComponents (render stack ++ last) =
      (stack.reverse ++ [last]).filter fun c => c ≠ [] := by
  rw [pathComponents, splitOn_render hstack hlast]
  simp

private theorem notMem_of_mem_splitOn {p c : List UInt8} (h : c ∈ p.splitOn pathSeparator) :
    pathSeparator ∉ c := by
  induction p generalizing c with
  | nil =>
    rw [List.splitOn_nil, List.mem_singleton] at h
    rw [h]
    exact List.not_mem_nil
  | cons b p ih =>
    rw [List.splitOn_cons_eq_if_modifyHead] at h
    by_cases hb : b = pathSeparator
    · simp only [hb, beq_self_eq_true, if_true, List.mem_cons] at h
      rcases h with rfl | h
      · exact List.not_mem_nil
      · exact ih h
    · simp only [beq_iff_eq, hb, if_false] at h
      cases hsplit : p.splitOn pathSeparator with
      | nil => simp [hsplit] at h
      | cons d rest =>
        rw [hsplit, List.modifyHead_cons, List.mem_cons] at h
        rcases h with rfl | h
        · simp only [List.mem_cons, not_or]
          exact ⟨Ne.symm hb, ih (by simp [hsplit])⟩
        · exact ih (by simp [hsplit, h])

theorem push_mem_componentOps {c : List UInt8} {components : List (List UInt8)} {skipped : Bool}
    (h : push c ∈ componentOps skipped components) :
    c ∈ components ∧ c ≠ dotName ∧ c ≠ dotDotName := by
  induction components generalizing skipped with
  | nil => simp [componentOps] at h
  | cons d rest ih =>
    cases rest with
    | nil =>
      rw [componentOps] at h
      split at h <;> simp at h
    | cons next rest =>
      have hrest : ∀ {skipped : Bool}, push c ∈ componentOps skipped (next :: rest) →
          c ∈ d :: next :: rest ∧ c ≠ dotName ∧ c ≠ dotDotName := by
        intro skipped h
        exact ⟨List.mem_cons_of_mem d (ih h).1, (ih h).2⟩
      rw [componentOps] at h
      split_ifs at h with hd hskip hdot hdots
      · cases List.mem_cons.mp h with
        | inl he =>
          cases he
          rw [hd]
          exact ⟨List.mem_cons_self, (List.cons_ne_nil _ _).symm, (List.cons_ne_nil _ _).symm⟩
        | inr h => exact hrest h
      · exact hrest h
      · exact hrest h
      · cases List.mem_cons.mp h with
        | inl he => cases he
        | inr h => exact hrest h
      · cases List.mem_cons.mp h with
        | inl he =>
          cases he
          exact ⟨List.mem_cons_self, hdot, hdots⟩
        | inr h => exact hrest h

theorem componentLast_mem {components : List (List UInt8)} :
    componentLast components = [] ∨ componentLast components ∈ components := by
  induction components with
  | nil => exact Or.inl rfl
  | cons c rest ih =>
    cases rest with
    | nil =>
      rw [componentLast]
      split_ifs
      · exact Or.inl rfl
      · exact Or.inr List.mem_cons_self
    | cons next rest =>
      rw [componentLast]
      exact ih.imp_right (List.mem_cons_of_mem c)

theorem joined_componentsOf {p : List UInt8} (hstarts : p.head? = some pathSeparator) :
    p = pathSeparator :: joined (componentsOf p) ∧ componentsOf p ≠ [] ∧
      p.splitOn pathSeparator = [] :: componentsOf p := by
  cases p with
  | nil => simp at hstarts
  | cons b p =>
    simp only [List.head?_cons, Option.some.injEq] at hstarts
    subst hstarts
    have hsplit : (pathSeparator :: p).splitOn pathSeparator = [] :: p.splitOn pathSeparator := by
      rw [List.splitOn_cons_eq_if_modifyHead, if_pos (beq_self_eq_true _)]
    have hcomponents : componentsOf (pathSeparator :: p) = p.splitOn pathSeparator := by
      rw [componentsOf, hsplit, List.tail_cons]
    refine ⟨?_, ?_, ?_⟩
    · rw [hcomponents, joined, List.intercalate_splitOn]
    · rw [hcomponents]
      exact List.splitOn_ne_nil _ _
    · rw [hcomponents, hsplit]

theorem componentsOf_free {p c : List UInt8} (h : c ∈ componentsOf p) : pathSeparator ∉ c :=
  notMem_of_mem_splitOn (List.mem_of_mem_tail h)

theorem pathOps_free {p c : List UInt8} (h : push c ∈ pathOps p) : pathSeparator ∉ c :=
  componentsOf_free (push_mem_componentOps h).1

private theorem mem_joined {components : List (List UInt8)} {c : List UInt8} {b : UInt8}
    (hc : c ∈ components) (hb : b ∈ c) : b ∈ joined components := by
  induction components with
  | nil => simp at hc
  | cons d rest ih =>
    cases rest with
    | nil =>
      rw [List.mem_singleton] at hc
      simpa [joined, ← hc] using hb
    | cons next rest =>
      rw [joined_cons, List.mem_append, List.mem_cons]
      rcases List.mem_cons.mp hc with rfl | hc
      · exact Or.inl hb
      · exact Or.inr (Or.inr (ih hc))

theorem componentsOf_noNul {p c : List UInt8} (hstarts : p.head? = some pathSeparator)
    (hnul : nullTerminator ∉ p) (h : c ∈ componentsOf p) : nullTerminator ∉ c := by
  intro hmem
  apply hnul
  rw [(joined_componentsOf hstarts).1]
  exact List.mem_cons_of_mem _ (mem_joined h hmem)

theorem rewriteOutput_noNul {side : Side} {marks : List Mark} {output final : List UInt8}
    (h : rewriteOutput side marks output = some final) (hmarks : Mark.byte nullTerminator ∉ marks)
    (hout : nullTerminator ∉ output) : nullTerminator ∉ final := by
  induction marks generalizing output with
  | nil =>
    rw [rewriteOutput, Option.some.injEq] at h
    exact h ▸ hout
  | cons mark marks ih =>
    simp only [List.mem_cons, not_or] at hmarks
    cases mark with
    | byte b =>
      apply ih h hmarks.2
      rw [List.mem_append, List.mem_singleton, not_or]
      exact ⟨hout, fun he => hmarks.1 (congrArg Mark.byte he)⟩
    | parent =>
      rw [rewriteOutput] at h
      split_ifs at h
      apply ih h hmarks.2
      intro hmem
      exact hout (List.dropLast_subset _ ((dropParent_isPrefix side output).subset hmem))

/-- The answer as an output string. -/
def AnswersString (args : NormalizeArgs) (r : NormalizeReturn) : Option (List UInt8) → Prop
  | none => r.result = .invalidPath
  | some final => r.result = .ok ∧ StringAt r.dst args.outPath final

/-- On a path of whole characters and with a large enough buffer the function returns, and its output
is what the operations of the path make of the root. -/
theorem normalize_text {args : NormalizeArgs} {p : List UInt8} {side : Side} {dst : Mem}
    (hl : Layout args p side) (hbuffer : IsBuffer dst args.outPath args.outLen)
    (hp : IsText p) (hlen : p.length < args.outLen) :
    ∃ r, Converges (libdFilesystemFilepathNormalize args dst) r ∧
      AnswersString args r ((applyOps side (pathOps p) (render [])).map fun output =>
        output ++ componentLast (componentsOf p)) := by
  obtain ⟨hjoined, hne, -⟩ := joined_componentsOf hl.starts
  have htext : IsText (joined (componentsOf p)) := by
    rw [hjoined] at hp
    exact (@IsText.split pathSeparator (by decide) [] _ hp).2
  obtain ⟨marks, hmarks⟩ := readsTo_joined hne htext
    (fun c hc => componentsOf_noNul hl.starts hl.noNul hc) (fun c hc => componentsOf_free hc) false
  rw [if_neg Bool.false_ne_true] at hmarks
  have hread : readMarks true (inputText p) = some (.byte pathSeparator :: marks) := by
    rw [hjoined]
    exact readMarks_close true hmarks
  have hcopied := copied_bytes [pathSeparator] marks
  have hsize := hmarks.copied_le
  have hplen := congrArg List.length hjoined
  rw [List.length_cons] at hplen
  simp only [List.map_cons, List.map_nil, List.singleton_append, List.length_singleton] at hcopied
  obtain ⟨r, hconv, hanswer⟩ := normalize_converges hl hbuffer hread (by omega)
  refine ⟨r, hconv, ?_⟩
  have hrewrite : rewriteOutput side (.byte pathSeparator :: marks) [] =
      (applyOps side (pathOps p) (render [])).map fun output =>
        output ++ componentLast (componentsOf p) := by
    have haligned := (reads_of_readMarks hmarks.read).aligned (fun _ => rfl : true = true → [] = [])
    have happly := rewriteOutput_eq_applyOps side haligned (render [])
    rw [List.append_nil, hmarks.ops_eq, hmarks.last_eq] at happly
    exact happly
  rw [← hrewrite]
  cases hfinal : rewriteOutput side (.byte pathSeparator :: marks) [] with
  | none =>
    rw [hfinal] at hanswer
    exact hanswer
  | some final =>
    rw [hfinal] at hanswer
    refine ⟨hanswer.1, hanswer.2, rewriteOutput_noNul hfinal ?_ List.not_mem_nil⟩
    simp [hmarks.noNul, pathSeparator_ne_nullTerminator.symm]

theorem normalize_wellFormed {args : NormalizeArgs} {p : List UInt8} {side : Side} {dst : Mem}
    (hl : Layout args p side) (hbuffer : IsBuffer dst args.outPath args.outLen)
    (hutf8 : IsWellFormedUtf8 p) (hlen : p.length < args.outLen) :
    ∃ r, Converges (libdFilesystemFilepathNormalize args dst) r ∧
      AnswersString args r ((applyOps side (pathOps p) (render [])).map fun output =>
        output ++ componentLast (componentsOf p)) :=
  normalize_text hl hbuffer hutf8.isText hlen

def resolveOp (c : List UInt8) : StackOp (List UInt8) := if c = dotDotName then pop else push c

private theorem foldlM_resolveStep (components stack : List (List UInt8)) :
    components.foldlM resolveStep stack = run (components.map resolveOp) stack := by
  induction components generalizing stack with
  | nil => simp
  | cons c components ih =>
    rw [List.foldlM_cons, List.map_cons, resolveOp]
    by_cases hc : c = dotDotName
    · rw [if_pos hc]
      cases stack with
      | nil => simp [resolveStep, hc]
      | cons d stack => simp [resolveStep, hc, ih]
    · rw [if_neg hc]
      simp [resolveStep, hc, ih]

def isEmptyComponent (c : List UInt8) : Bool := c == []

/-- The push of an open component, if there is one. -/
def lastOps (last : List UInt8) : List (StackOp (List UInt8)) :=
  if last = [] then [] else [push last]

/-- Resolving performs the operations of the function without the empty components. -/
theorem resolveOps_eq (components : List (List UInt8)) (skipped : Bool) :
    (components.filter fun c => c ≠ [] ∧ c ≠ dotName).map resolveOp =
      without isEmptyComponent (componentOps skipped components) ++
        lastOps (componentLast components) := by
  induction components generalizing skipped with
  | nil => rfl
  | cons c rest ih =>
    cases rest with
    | nil =>
      rw [componentOps, componentLast]
      by_cases hc : c = []
      · subst hc
        rfl
      by_cases hdot : c = dotName
      · subst hdot
        rfl
      by_cases hdots : c = dotDotName
      · subst hdots
        rfl
      · simp [hc, hdot, hdots, resolveOp, without, lastOps]
    | cons next rest =>
      rw [componentLast, componentOps]
      by_cases hc : c = []
      · subst hc
        rw [if_pos rfl]
        cases skipped with
        | false => simpa using ih false
        | true => simpa [without, isEmptyComponent] using ih false
      rw [if_neg hc]
      by_cases hdot : c = dotName
      · subst hdot
        rw [if_pos rfl]
        simpa [dotName] using ih true
      rw [if_neg hdot]
      by_cases hdots : c = dotDotName
      · subst hdots
        have hkept : (dotDotName :: next :: rest).filter (fun c => c ≠ [] ∧ c ≠ dotName) =
            dotDotName :: (next :: rest).filter fun c => c ≠ [] ∧ c ≠ dotName :=
          List.filter_cons_of_pos (by decide)
        rw [if_pos rfl, hkept, List.map_cons, ih true]
        rfl
      · have hkept : (c :: next :: rest).filter (fun c => c ≠ [] ∧ c ≠ dotName) =
            c :: (next :: rest).filter fun c => c ≠ [] ∧ c ≠ dotName :=
          List.filter_cons_of_pos (by simp [hc, hdot])
        rw [if_neg hdots, hkept, List.map_cons, ih false]
        simp [resolveOp, hdots, without, isEmptyComponent, hc]

private theorem resolve_eq {p : List UInt8} (hstarts : p.head? = some pathSeparator) :
    resolve p = (run (without isEmptyComponent (pathOps p) ++
      lastOps (componentLast (componentsOf p))) []).map List.reverse := by
  obtain ⟨-, -, hsplit⟩ := joined_componentsOf hstarts
  have hfilter : ([] :: componentsOf p).filter (fun c => c ≠ [] ∧ c ≠ dotName) =
      (componentsOf p).filter fun c => c ≠ [] ∧ c ≠ dotName :=
    List.filter_cons_of_neg (by simp)
  rw [resolve, hsplit, hfilter, foldlM_resolveStep, resolveOps_eq _ false, pathOps]

private theorem resolve_eq_map {p : List UInt8} (hstarts : p.head? = some pathSeparator) :
    resolve p = (run (without isEmptyComponent (pathOps p)) []).map fun stack =>
      stack.reverse ++ [componentLast (componentsOf p)].filter fun c => c ≠ [] := by
  have hlast : ∀ stack, run (lastOps (componentLast (componentsOf p))) stack =
      some ([componentLast (componentsOf p)].filter (fun c => c ≠ []) ++ stack) := by
    intro stack
    by_cases h : componentLast (componentsOf p) = [] <;> simp [lastOps, h]
  rw [resolve_eq hstarts, run_append]
  cases run (without isEmptyComponent (pathOps p)) [] with
  | none => rfl
  | some stack =>
    rw [Option.bind_some, hlast, Option.map_some, Option.map_some, List.reverse_append]
    by_cases h : componentLast (componentsOf p) = [] <;> simp [h]

/-- The function resolves a path exactly when no parent reference removes an empty component, or
when the path is invalid even with the empty components. -/
theorem normalize_resolves_iff (p : List UInt8) (args : NormalizeArgs) (dst : Mem)
    (hl : Layout args p .above) (hbuffer : IsBuffer dst args.outPath args.outLen)
    (hutf8 : IsWellFormedUtf8 p) (hlen : p.length < args.outLen) :
    ∃ r, Converges (libdFilesystemFilepathNormalize args dst) r ∧
      (ResolvesTo args p r ↔
        ¬Cancels (fun c => isEmptyComponent c = true) (pathOps p) ∨
          Overpops (fun _ => 1) (pathOps p) 0) := by
  obtain ⟨r, hconv, hanswer⟩ := normalize_wellFormed hl hbuffer hutf8 hlen
  refine ⟨r, hconv, ?_⟩
  rw [applyOps_above (fun c => pathOps_free) (fun c hc => absurd hc List.not_mem_nil)] at hanswer
  have hmeaning := resolve_eq_map hl.starts
  cases hrun : run (pathOps p) [] with
  | none =>
    -- the path is invalid with the empty components, and so it is without them
    have hover := run_eq_none_iff_overpops.mp hrun
    have hnone := run_eq_none_iff_overpops.mpr (hover.without isEmptyComponent)
    rw [hnone, Option.map_none] at hmeaning
    rw [hrun] at hanswer
    refine iff_of_true ⟨iff_of_true hanswer hmeaning, ?_⟩ (Or.inr hover)
    intro components hsome
    rw [hmeaning] at hsome
    cases hsome
  | some stack =>
    have hvalid : ¬Overpops (fun _ => 1) (pathOps p) 0 := not_overpops_of_run hrun
    rw [hrun, Option.map_some, Option.map_some] at hanswer
    obtain ⟨hok, hstring⟩ := hanswer
    have hstack : ∀ c ∈ stack, pathSeparator ∉ c := fun c hc => pathOps_free (push_of_mem_run hrun hc)
    have hlast : pathSeparator ∉ componentLast (componentsOf p) := by
      rcases @componentLast_mem (componentsOf p) with h | h
      · rw [h]
        exact List.not_mem_nil
      · exact componentsOf_free h
    have hcomponents : pathComponents (render stack ++ componentLast (componentsOf p)) =
        (stack.filter fun c => !isEmptyComponent c).reverse ++
          [componentLast (componentsOf p)].filter fun c => c ≠ [] := by
      rw [pathComponents_render hstack hlast, List.filter_append, List.filter_reverse]
      congr 2
      apply List.filter_congr
      intro c _
      by_cases hc : c = [] <;> simp [isEmptyComponent, hc]
    have hhead : (render stack ++ componentLast (componentsOf p)).head? = some pathSeparator := rfl
    have hinvalid : r.result ≠ .invalidPath := by
      rw [hok]
      decide
    rw [← run_without_iff isEmptyComponent hrun, or_iff_left hvalid]
    constructor
    · intro hresolves
      cases hwithout : run (without isEmptyComponent (pathOps p)) [] with
      | none =>
        rw [hwithout, Option.map_none] at hmeaning
        exact absurd (hresolves.1.mpr hmeaning) hinvalid
      | some left =>
        rw [hwithout, Option.map_some] at hmeaning
        obtain ⟨-, out, hout, -, hmeans⟩ := hresolves.2 _ hmeaning
        rw [StringAt.unique hout hstring, hcomponents, List.append_cancel_right_eq,
          List.reverse_inj] at hmeans
        rw [hmeans]
    · intro hwithout
      rw [hwithout, Option.map_some] at hmeaning
      refine ⟨iff_of_false hinvalid (by simp [hmeaning]), ?_⟩
      intro components hsome
      rw [hmeaning, Option.some.injEq] at hsome
      exact ⟨hok, _, hstring, hhead, hcomponents.trans hsome⟩

/-- `"/a/../b"`. -/
def parentPath : List UInt8 := [47, 97, 47, 46, 46, 47, 98]

theorem normalize_resolves_iff_parent :
    ∃ r, Converges (libdFilesystemFilepathNormalize (callOn parentPath 16 64 16) (zeroBuffer 64 16)) r ∧
      ResolvesTo (callOn parentPath 16 64 16) parentPath r := by
  have hl : Layout (callOn parentPath 16 64 16) parentPath .above :=
    ⟨rfl, by decide, rfl, by decide, by decide, by decide, (by decide : 16 < 64)⟩
  have hutf8 : IsWellFormedUtf8 parentPath := ⟨['/', 'a', '/', '.', '.', '/', 'b'], by decide⟩
  obtain ⟨r, hconv, hiff⟩ := normalize_resolves_iff parentPath (callOn parentPath 16 64 16)
    (zeroBuffer 64 16) hl (isBuffer_zeroBuffer 64 16) hutf8 (by decide)
  have hrun : run (pathOps parentPath) [] = some [] := by decide
  have hkeeps : ¬Cancels (fun c => isEmptyComponent c = true) (pathOps parentPath) := by
    rw [cancels_iff_removed _ hrun]
    decide
  exact ⟨r, hconv, hiff.mpr (Or.inl hkeeps)⟩

/-- `"/a/.//.."`. -/
def emptyComponentPath : List UInt8 := [47, 97, 47, 46, 47, 47, 46, 46]

/-- The two separators behind the skipped dot leave an empty component in the output, and the parent
reference removes that one. -/
theorem normalize_resolves_fails :
    Layout (callOn emptyComponentPath 16 64 16) emptyComponentPath .above ∧
      IsBuffer (zeroBuffer 64 16) 64 16 ∧ IsWellFormedUtf8 emptyComponentPath ∧
      emptyComponentPath.length < 16 ∧ resolve emptyComponentPath = some [] ∧
      ∃ r, Converges
          (libdFilesystemFilepathNormalize (callOn emptyComponentPath 16 64 16) (zeroBuffer 64 16)) r ∧
        r.result = .ok ∧ StringAt r.dst 64 [47, 97, 47] ∧
        ¬ResolvesTo (callOn emptyComponentPath 16 64 16) emptyComponentPath r := by
  have hl : Layout (callOn emptyComponentPath 16 64 16) emptyComponentPath .above :=
    ⟨rfl, by decide, rfl, by decide, by decide, by decide, (by decide : 16 < 64)⟩
  have hutf8 : IsWellFormedUtf8 emptyComponentPath :=
    ⟨['/', 'a', '/', '.', '/', '/', '.', '.'], by decide⟩
  have hmeaning : resolve emptyComponentPath = some [] := by decide
  refine ⟨hl, isBuffer_zeroBuffer 64 16, hutf8, by decide, hmeaning, ?_⟩
  obtain ⟨r, hconv, hok, hstring⟩ :=
    normalize_wellFormed hl (isBuffer_zeroBuffer 64 16) hutf8 (by decide)
  refine ⟨r, hconv, hok, hstring, ?_⟩
  intro h
  rcases h with ⟨-, hresolves⟩
  obtain ⟨-, out, hout, -, hcomponents⟩ := hresolves [] hmeaning
  rw [StringAt.unique hout hstring] at hcomponents
  revert hcomponents
  decide

end Libdane
