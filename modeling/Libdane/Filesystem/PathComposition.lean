import Libdane.Filesystem.PathIdempotence
import Libdane.Filesystem.PathPlacement
import Libdane.Framework.SettledWords

/-!
# Paths below a directory

A path below a directory can be normalised at once, or on top of the normalised directory. Both give
the same unless the normalised directory has an empty component: the second call collapses it, and
then every parent reference that passes it reaches one component further up.
-/

namespace Libdane

open ByteMachine StackWords StackOp

/-- A path that does not begin with a separator reads the same behind a reference and behind a
name. -/
private theorem componentOps_relative {q : List UInt8} (hrelative : q.head? ≠ some pathSeparator)
    (skipped : Bool) : componentOps skipped (q.splitOn pathSeparator) =
      componentOps false (q.splitOn pathSeparator) := by
  cases q with
  | nil => simp [componentOps, dotDotName]
  | cons b q =>
    have hb : b ≠ pathSeparator := fun he => hrelative (congrArg some he)
    obtain ⟨c, rest, hsplit⟩ := List.exists_cons_of_ne_nil (List.splitOn_ne_nil pathSeparator q)
    rw [List.splitOn_cons_eq_if_modifyHead, if_neg (by simpa using hb), hsplit,
      List.modifyHead_cons]
    cases rest with
    | nil => rw [componentOps, componentOps]
    | cons next rest => simp [componentOps]

/-- Where it does not matter what lies in front, the operations are those of the directory and then
those of the components behind it. -/
private theorem componentOps_append {components behind : List (List UInt8)} (hne : behind ≠ [])
    (hsame : ∀ skipped, componentOps skipped behind = componentOps false behind) (skipped : Bool) :
    componentOps skipped (components ++ behind) =
      componentOps skipped (components ++ [[]]) ++ componentOps false behind := by
  induction components generalizing skipped with
  | nil => simpa [componentOps, dotDotName] using hsame skipped
  | cons c rest ih =>
    obtain ⟨next, tail, htail⟩ : ∃ next tail, rest ++ behind = next :: tail :=
      List.exists_cons_of_ne_nil (by simp [hne])
    obtain ⟨next', tail', htail'⟩ : ∃ next tail, rest ++ [[]] = next :: tail :=
      List.exists_cons_of_ne_nil (by simp)
    rw [htail, htail'] at ih
    rw [List.cons_append, List.cons_append, htail, htail', componentOps, componentOps]
    split_ifs <;> simp [ih]

private theorem componentLast_append {components behind : List (List UInt8)} (hne : behind ≠ []) :
    componentLast (components ++ behind) = componentLast behind := by
  induction components with
  | nil => rfl
  | cons c rest ih =>
    obtain ⟨next, tail, htail⟩ : ∃ next tail, rest ++ behind = next :: tail :=
      List.exists_cons_of_ne_nil (by simp [hne])
    rw [htail] at ih
    rw [List.cons_append, htail]
    exact ih

private theorem componentsOf_below (p q : List UInt8) :
    componentsOf (p ++ pathSeparator :: q) = componentsOf p ++ q.splitOn pathSeparator := by
  rw [componentsOf, List.splitOn_append_cons_self,
    List.tail_append_of_ne_nil (List.splitOn_ne_nil _ _), componentsOf]

private theorem pathOps_below (p : List UInt8) {q : List UInt8}
    (hrelative : q.head? ≠ some pathSeparator) :
    pathOps (p ++ pathSeparator :: q) =
      pathOps (p ++ [pathSeparator]) ++ componentOps false (q.splitOn pathSeparator) := by
  have hdirectory : componentsOf (p ++ [pathSeparator]) = componentsOf p ++ [[]] := by
    rw [componentsOf_below, List.splitOn_nil]
  rw [pathOps, pathOps, hdirectory, componentsOf_below,
    componentOps_append (List.splitOn_ne_nil _ _) (componentOps_relative hrelative)]

private theorem componentLast_below (p q : List UInt8) :
    componentLast (componentsOf (p ++ pathSeparator :: q)) =
      componentLast (q.splitOn pathSeparator) := by
  rw [componentsOf_below, componentLast_append (List.splitOn_ne_nil _ _)]

private theorem render_eq_concat {stack : List (List UInt8)}
    (hstack : ∀ c ∈ stack, pathSeparator ∉ c) :
    ∃ front, render stack = front ++ [pathSeparator] ∧ componentsOf front = stack.reverse := by
  obtain ⟨front, hfront⟩ := List.getLast?_eq_some_iff.mp (render_getLast stack)
  exists front, hfront
  have hsplit := splitOn_render hstack (List.not_mem_nil (a := pathSeparator))
  have hcomponents : componentsOf (render stack ++ []) = stack.reverse ++ [[]] := by
    rw [componentsOf, hsplit, List.tail_cons]
  rw [List.append_nil, hfront, componentsOf_below, List.splitOn_nil] at hcomponents
  exact List.append_cancel_right hcomponents

private theorem componentOps_collapse {components : List (List UInt8)}
    (hnames : ∀ c ∈ components, ¬IsDotName c) :
    componentOps false (components ++ [[]]) =
      (components.filter fun c => !isEmptyComponent c).map push := by
  induction components with
  | nil => simp [componentOps, dotDotName]
  | cons c rest ih =>
    have hrest := ih fun d hd => hnames d (List.mem_cons_of_mem c hd)
    have hname := hnames c List.mem_cons_self
    have hdot : c ≠ dotName := fun he => hname (Or.inl he)
    have hdots : c ≠ dotDotName := fun he => hname (Or.inr he)
    obtain ⟨next, tail, htail⟩ : ∃ next tail, rest ++ [[]] = next :: tail :=
      List.exists_cons_of_ne_nil (by simp)
    rw [htail] at hrest
    rw [List.cons_append, htail, componentOps]
    by_cases hc : c = []
    · simp [hc, hrest, isEmptyComponent]
    · simp [hc, hdot, hdots, hrest, isEmptyComponent]

private theorem run_pathOps_render {stack : List (List UInt8)} {q : List UInt8}
    (hstack : ∀ c ∈ stack, pathSeparator ∉ c) (hnames : ∀ c ∈ stack, ¬IsDotName c)
    (hrelative : q.head? ≠ some pathSeparator) :
    run (pathOps (render stack ++ q)) [] =
      run (componentOps false (q.splitOn pathSeparator))
        (stack.filter fun c => !isEmptyComponent c) := by
  rcases render_eq_concat hstack with ⟨front, hfront, hcomponents⟩
  have hops : pathOps (front ++ [pathSeparator]) =
      (stack.filter fun c => !isEmptyComponent c).reverse.map push := by
    rw [pathOps, componentsOf_below, List.splitOn_nil, hcomponents, ← List.filter_reverse]
    exact componentOps_collapse fun c hc => hnames c (List.mem_reverse.mp hc)
  rw [hfront, List.append_assoc, List.singleton_append, pathOps_below front hrelative, run_append,
    hops, run_pushes, List.reverse_reverse, List.append_nil, Option.bind_some]

theorem normalize_above {args : NormalizeArgs} {p : List UInt8} {dst : Mem}
    (hl : Layout args p .above) (hbuffer : IsBuffer dst args.outPath args.outLen) (htext : IsText p)
    (hlen : p.length < args.outLen) :
    ∃ r, Converges (libdFilesystemFilepathNormalize args dst) r ∧
      AnswersString args r ((run (pathOps p) []).map fun stack =>
        render stack ++ componentLast (componentsOf p)) := by
  obtain ⟨r, hconv, hanswer⟩ := normalize_text hl hbuffer htext hlen
  rw [applyOps_above (fun c => pathOps_free) (fun c hc => absurd hc List.not_mem_nil),
    Option.map_map] at hanswer
  exact ⟨r, hconv, hanswer⟩

private theorem AnswersString.invalidPath_iff {args : NormalizeArgs} {r : NormalizeReturn}
    {answer : Option (List UInt8)} (h : AnswersString args r answer) :
    r.result = .invalidPath ↔ answer = none := by
  cases answer with
  | none => exact iff_of_true h rfl
  | some final => simp [h.1]

private theorem output_eq_iff {p p' : List UInt8}
    (hlast : componentLast (componentsOf p') = componentLast (componentsOf p)) :
    ((run (pathOps p) []).map fun stack => render stack ++ componentLast (componentsOf p)) =
        ((run (pathOps p') []).map fun stack => render stack ++ componentLast (componentsOf p')) ↔
      run (pathOps p) [] = run (pathOps p') [] := by
  have hfree := componentLast_free p
  rw [hlast]
  cases hrun : run (pathOps p) [] with
  | none => cases hrun' : run (pathOps p') [] <;> simp
  | some stack =>
    cases hrun' : run (pathOps p') [] with
    | none => simp
    | some stack' =>
      rw [Option.map_some, Option.map_some, Option.some.injEq, Option.some.injEq]
      constructor
      · intro h
        have hsplit := splitOn_render (fun c hc => pathOps_free (push_of_mem_run hrun hc)) hfree
        have hsplit' := splitOn_render (fun c hc => pathOps_free (push_of_mem_run hrun' hc)) hfree
        rw [h, hsplit', List.cons.injEq, List.append_cancel_right_eq, List.reverse_inj] at hsplit
        exact hsplit.2.symm
      · intro h
        rw [h]

theorem component_of_run {p : List UInt8} {stack : List (List UInt8)} (htext : IsText p)
    (hstarts : p.head? = some pathSeparator) (hrun : run (pathOps p) [] = some stack)
    {c : List UInt8} (hc : c ∈ stack) : IsText c ∧ pathSeparator ∉ c ∧ ¬IsDotName c := by
  have hpush := push_of_mem_run hrun hc
  obtain ⟨hmem, hnames⟩ := push_mem_componentOps hpush
  exact ⟨isText_componentsOf htext hstarts hmem, pathOps_free hpush, not_or.mpr hnames⟩

/-- A directory `p` with a separator behind it, and a path `q` below it. If the directory is invalid,
so is the path. Otherwise the path can be normalised on top of the normalised directory exactly when
that has no two adjacent separators, or when the path is invalid. -/
theorem normalize_below_iff (p q : List UInt8) (args args' : NormalizeArgs) (dst dst' : Mem)
    (hl : Layout args (p ++ [pathSeparator]) .above)
    (hl' : Layout args' (p ++ pathSeparator :: q) .above)
    (hbuffer : IsBuffer dst args.outPath args.outLen)
    (hbuffer' : IsBuffer dst' args'.outPath args'.outLen)
    (hlen : (p ++ [pathSeparator]).length < args.outLen)
    (hlen' : (p ++ pathSeparator :: q).length < args'.outLen)
    (hp : IsWellFormedUtf8 p) (hq : IsWellFormedUtf8 q)
    (hrelative : q.head? ≠ some pathSeparator) :
    ∃ r r', Converges (libdFilesystemFilepathNormalize args dst) r ∧
      Converges (libdFilesystemFilepathNormalize args' dst') r' ∧
      (r.result ≠ .ok → r.result = .invalidPath ∧ r'.result = .invalidPath) ∧
      (r.result = .ok → ∃ out, StringAt r.dst args.outPath out ∧
        ∀ args'' dst'', Layout args'' (out ++ q) .above →
          IsBuffer dst'' args''.outPath args''.outLen → (out ++ q).length < args''.outLen →
          ∃ r'', Converges (libdFilesystemFilepathNormalize args'' dst'') r'' ∧
            (SameAnswer args' args'' r' r'' ↔
              ¬[pathSeparator, pathSeparator] <:+: out ∨ r'.result = .invalidPath)) := by
  have htext := hp.isText.append isText_separator
  have htext' : IsText (p ++ pathSeparator :: q) := by
    rw [← List.singleton_append, ← List.append_assoc]
    exact htext.append hq.isText
  obtain ⟨r, hconv, hanswer⟩ := normalize_above hl hbuffer htext hlen
  obtain ⟨r', hconv', hanswer'⟩ := normalize_above hl' hbuffer' htext' hlen'
  refine ⟨r, r', hconv, hconv', ?_⟩
  have hempty : componentLast (componentsOf (p ++ [pathSeparator])) = [] := by
    rw [componentLast_below, List.splitOn_nil]
    rfl
  rw [hempty] at hanswer
  cases hrun : run (pathOps (p ++ [pathSeparator])) [] with
  | none =>
    have hnone : run (pathOps (p ++ pathSeparator :: q)) [] = none := by
      rw [pathOps_below p hrelative, run_append, hrun, Option.bind_none]
    rw [hrun] at hanswer
    rw [hnone] at hanswer'
    have hinvalid : r.result = .invalidPath := hanswer
    have hinvalid' : r'.result = .invalidPath := hanswer'
    simp [hinvalid, hinvalid']
  | some stack =>
    rw [hrun, Option.map_some, List.append_nil] at hanswer
    obtain ⟨hok, hstring⟩ := hanswer
    have hcomponent := fun c => component_of_run htext hl.starts hrun (c := c)
    have hfree : ∀ c ∈ stack, pathSeparator ∉ c := fun c hc => (hcomponent c hc).2.1
    have hnames : ∀ c ∈ stack, ¬IsDotName c := fun c hc => (hcomponent c hc).2.2
    refine ⟨fun hne => absurd hok hne, fun _ => ⟨render stack, hstring, ?_⟩⟩
    intro args'' dst'' hl'' hbuffer'' hlen''
    have htext'' := (isText_render fun c hc => (hcomponent c hc).1).append hq.isText
    obtain ⟨r'', hconv'', hanswer''⟩ := normalize_above hl'' hbuffer'' htext'' hlen''
    refine ⟨r'', hconv'', ?_⟩
    have hlast : componentLast (componentsOf (render stack ++ q)) =
        componentLast (componentsOf (p ++ pathSeparator :: q)) := by
      rcases render_eq_concat hfree with ⟨front, hfront, -⟩
      rw [hfront, List.append_assoc, List.singleton_append, componentLast_below,
        componentLast_below]
    have hadjacent := adjacent_iff hfree (List.not_mem_nil (a := pathSeparator))
    rw [List.append_nil] at hadjacent
    rw [sameAnswer_iff hanswer' hanswer'', output_eq_iff hlast, hanswer'.invalidPath_iff,
      Option.map_eq_none_iff, run_pathOps_render hfree hnames hrelative, pathOps_below p hrelative,
      run_append, hrun, Option.bind_some, eq_comm, run_filter_iff, hadjacent]
    have hnone : (∀ c ∈ stack, !isEmptyComponent c) ↔ [] ∉ stack := by
      constructor
      · intro h hmem
        simpa [isEmptyComponent] using h [] hmem
      · intro h c hc
        have hne : c ≠ [] := fun he => h (he ▸ hc)
        simpa [isEmptyComponent] using hne
    rw [hnone]

/-- `"/a/./c"`. -/
def nestedPath : List UInt8 := [47, 97, 47, 46, 47, 99]

/-- `"../b"`. -/
def siblingPath : List UInt8 := [46, 46, 47, 98]

/-- `"/a/./c/"` becomes `"/a/c/"`, and `"/a/./c/../b"` and `"/a/c/../b"` are the same path. -/
theorem normalize_below_iff_sibling :
    ∃ r r' r'',
      Converges (libdFilesystemFilepathNormalize (callOn (nestedPath ++ [47]) 16 64 16)
        (zeroBuffer 64 16)) r ∧
      StringAt r.dst 64 [47, 97, 47, 99, 47] ∧
      Converges (libdFilesystemFilepathNormalize (callOn (nestedPath ++ 47 :: siblingPath) 16 64 16)
        (zeroBuffer 64 16)) r' ∧
      Converges (libdFilesystemFilepathNormalize
        (callOn ([47, 97, 47, 99, 47] ++ siblingPath) 16 64 16) (zeroBuffer 64 16)) r'' ∧
      SameAnswer (callOn (nestedPath ++ 47 :: siblingPath) 16 64 16)
        (callOn ([47, 97, 47, 99, 47] ++ siblingPath) 16 64 16) r' r'' := by
  have hl : Layout (callOn (nestedPath ++ [47]) 16 64 16) (nestedPath ++ [47]) .above :=
    ⟨rfl, by decide, rfl, by decide, by decide, by decide, (by decide : 16 < 64)⟩
  have hl' : Layout (callOn (nestedPath ++ 47 :: siblingPath) 16 64 16)
      (nestedPath ++ 47 :: siblingPath) .above :=
    ⟨rfl, by decide, rfl, by decide, by decide, by decide, (by decide : 16 < 64)⟩
  have hl'' : Layout (callOn ([47, 97, 47, 99, 47] ++ siblingPath) 16 64 16)
      ([47, 97, 47, 99, 47] ++ siblingPath) .above :=
    ⟨rfl, by decide, rfl, by decide, by decide, by decide, (by decide : 16 < 64)⟩
  have hbuffer := isBuffer_zeroBuffer 64 16
  have hp : IsWellFormedUtf8 nestedPath := ⟨['/', 'a', '/', '.', '/', 'c'], by decide⟩
  have hq : IsWellFormedUtf8 siblingPath := ⟨['.', '.', '/', 'b'], by decide⟩
  obtain ⟨r, hconv, hok, hstring⟩ :=
    normalize_wellFormed hl hbuffer ⟨['/', 'a', '/', '.', '/', 'c', '/'], by decide⟩ (by decide)
  obtain ⟨s, r', hconv', hconvr', -, hbelow⟩ := normalize_below_iff nestedPath siblingPath
    (callOn (nestedPath ++ [47]) 16 64 16) (callOn (nestedPath ++ 47 :: siblingPath) 16 64 16)
    (zeroBuffer 64 16) (zeroBuffer 64 16) hl hl' hbuffer hbuffer (by decide) (by decide) hp hq
    (by decide)
  obtain rfl := hconv.unique hconv'
  obtain ⟨out, hout, hsame⟩ := hbelow hok
  obtain rfl := StringAt.unique hout hstring
  obtain ⟨r'', hconv'', hiff⟩ := hsame _ _ hl'' hbuffer (by decide)
  exact ⟨r, r', r'', hconv, hstring, hconvr', hconv'', hiff.mpr (Or.inl (by decide))⟩

end Libdane
