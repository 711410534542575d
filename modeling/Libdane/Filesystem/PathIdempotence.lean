import Libdane.Filesystem.PathDotFree

/-!
# Normalising twice

An output is a normal form when no component of it is empty or a reference. The function copies a
normal form as it is. An output that is not one has an empty component, which a second call removes.
-/

namespace Libdane

open ByteMachine StackWords StackOp

/-- A component that is pushed by every call. -/
def IsName (c : List UInt8) : Prop := c ≠ [] ∧ ¬IsDotName c

theorem componentLast_notDot (components : List (List UInt8)) :
    ¬IsDotName (componentLast components) := by
  induction components with
  | nil => exact fun hname => hname.ne_nil rfl
  | cons c rest ih =>
    cases rest with
    | nil =>
      rw [componentLast]
      split_ifs with hdot
      · exact fun hname => hname.ne_nil rfl
      · exact hdot
    | cons next rest => exact ih

theorem componentLast_free (p : List UInt8) : pathSeparator ∉ componentLast (componentsOf p) := by
  cases @componentLast_mem (componentsOf p) with
  | inl h =>
    rw [h]
    exact List.not_mem_nil
  | inr h => exact componentsOf_free h

private theorem componentLast_concat (components : List (List UInt8)) {last : List UInt8}
    (hlast : ¬IsDotName last) : componentLast (components ++ [last]) = last := by
  induction components with
  | nil =>
    rw [List.nil_append, componentLast]
    exact if_neg hlast
  | cons c rest ih =>
    cases rest with
    | nil => exact ih
    | cons next rest => exact ih

private theorem componentOps_names {components : List (List UInt8)} {last : List UInt8}
    (hnames : ∀ c ∈ components, IsName c) (hlast : ¬IsDotName last) :
    componentOps false (components ++ [last]) = components.map push := by
  induction components with
  | nil =>
    have hdots : last ≠ dotDotName := fun he => hlast (Or.inr he)
    rw [List.nil_append, componentOps, if_neg hdots]
    rfl
  | cons c rest ih =>
    have hrest := ih fun d hd => hnames d (List.mem_cons_of_mem c hd)
    obtain ⟨hne, hname⟩ := hnames c List.mem_cons_self
    have hdot : c ≠ dotName := fun he => hname (Or.inl he)
    have hdots : c ≠ dotDotName := fun he => hname (Or.inr he)
    cases hsplit : rest ++ [last] with
    | nil => simp at hsplit
    | cons next tail =>
      rw [hsplit] at hrest
      rw [List.cons_append, hsplit, componentOps, if_neg hne, if_neg hdot, if_neg hdots, hrest,
        List.map_cons]

theorem run_pushes (components stack : List (List UInt8)) :
    run (components.map push) stack = some (components.reverse ++ stack) := by
  induction components generalizing stack with
  | nil => simp
  | cons c components ih => simp [ih]

theorem IsText.append {first second : List UInt8} (hfirst : IsText first)
    (hsecond : IsText second) : IsText (first ++ second) := by
  induction hfirst with
  | nil => exact hsecond
  | cons hchunk _ ih =>
    rw [List.append_assoc]
    exact IsText.cons hchunk ih

theorem isText_separator : IsText [pathSeparator] :=
  IsText.cons (IsCharacter.ascii (by decide)) IsText.nil

private theorem isText_of_mem_joined {components : List (List UInt8)}
    (h : IsText (joined components)) {c : List UInt8} (hc : c ∈ components) : IsText c := by
  induction components with
  | nil => simp at hc
  | cons d rest ih =>
    cases rest with
    | nil =>
      rw [List.mem_singleton] at hc
      rw [hc]
      simpa [joined] using h
    | cons next rest =>
      rw [joined_cons] at h
      obtain ⟨hd, hrest⟩ := h.split (by decide)
      cases List.mem_cons.mp hc with
      | inl he => exact he ▸ hd
      | inr hc => exact ih hrest hc

theorem isText_componentsOf {p : List UInt8} (hp : IsText p)
    (hstarts : p.head? = some pathSeparator) {c : List UInt8} (hc : c ∈ componentsOf p) :
    IsText c := by
  rw [(joined_componentsOf hstarts).1] at hp
  exact isText_of_mem_joined (hp.tail (by decide)) hc

theorem isText_render {stack : List (List UInt8)} (hstack : ∀ c ∈ stack, IsText c) :
    IsText (render stack) := by
  induction stack with
  | nil => exact isText_separator
  | cons c stack ih =>
    rw [render_cons]
    have hbelow := ih fun d hd => hstack d (List.mem_cons_of_mem c hd)
    exact (hbelow.append (hstack c List.mem_cons_self)).append isText_separator

theorem adjacent_iff {stack : List (List UInt8)} {last : List UInt8}
    (hstack : ∀ c ∈ stack, pathSeparator ∉ c) (hlast : pathSeparator ∉ last) :
    [pathSeparator, pathSeparator] <:+: render stack ++ last ↔ [] ∈ stack := by
  constructor
  · intro h
    obtain ⟨before, after, hout⟩ := h
    have hsplit := splitOn_render hstack hlast
    rw [← hout, List.append_assoc, List.cons_append, List.cons_append, List.nil_append,
      List.splitOn_append_cons_self, List.splitOn_cons_eq_if_modifyHead,
      if_pos (beq_self_eq_true _)] at hsplit
    obtain ⟨c, front, hfront⟩ :=
      List.exists_cons_of_ne_nil (List.splitOn_ne_nil pathSeparator before)
    rw [hfront, List.cons_append, List.cons.injEq] at hsplit
    -- the component behind the second separator is not the one between the two
    have hinner := congrArg List.dropLast hsplit.2
    rw [List.dropLast_concat, List.dropLast_append_of_ne_nil (List.cons_ne_nil _ _),
      List.dropLast_cons_of_ne_nil (List.splitOn_ne_nil _ _)] at hinner
    rw [← List.mem_reverse, ← hinner]
    simp
  · intro h
    apply List.IsInfix.trans _ (List.prefix_append _ last).isInfix
    induction stack with
    | nil => simp at h
    | cons c stack ih =>
      have hbelow : render stack <:+: render (c :: stack) := by
        rw [render_cons, List.append_assoc]
        exact (List.prefix_append _ _).isInfix
      cases List.mem_cons.mp h with
      | inl hc =>
        obtain ⟨front, hfront⟩ := List.getLast?_eq_some_iff.mp (render_getLast stack)
        rw [← hc, render_cons, hfront]
        exact (List.suffix_append front _).isInfix.trans (by simp)
      | inr hc => exact (ih (fun d hd => hstack d (List.mem_cons_of_mem c hd)) hc).trans hbelow

theorem normalize_normalForm {stack : List (List UInt8)} {last : List UInt8} {args : NormalizeArgs}
    {dst : Mem} (hl : Layout args (render stack ++ last) .above)
    (hbuffer : IsBuffer dst args.outPath args.outLen) (htext : IsText (render stack ++ last))
    (hlen : (render stack ++ last).length < args.outLen)
    (hstack : ∀ c ∈ stack, pathSeparator ∉ c) (hfree : pathSeparator ∉ last)
    (hnames : ∀ c ∈ stack, IsName c) (hlast : ¬IsDotName last) :
    ∃ r, Converges (libdFilesystemFilepathNormalize args dst) r ∧
      AnswersString args r (some (render stack ++ last)) := by
  obtain ⟨r, hconv, hanswer⟩ := normalize_text hl hbuffer htext hlen
  refine ⟨r, hconv, ?_⟩
  have hcomponents : componentsOf (render stack ++ last) = stack.reverse ++ [last] := by
    rw [componentsOf, splitOn_render hstack hfree, List.tail_cons]
  have hops : pathOps (render stack ++ last) = stack.reverse.map push := by
    rw [pathOps, hcomponents]
    exact componentOps_names (fun c hc => hnames c (List.mem_reverse.mp hc)) hlast
  rw [applyOps_above (fun c => pathOps_free) (fun c hc => absurd hc List.not_mem_nil), hops,
    run_pushes, hcomponents, componentLast_concat _ hlast, List.reverse_reverse,
    List.append_nil] at hanswer
  exact hanswer

/-- If the call answers with an output, it has no two adjacent separators, and every call on it
answers with it again. -/
def IsIdempotent (args : NormalizeArgs) (r : NormalizeReturn) : Prop :=
  r.result = .ok → ∃ out, StringAt r.dst args.outPath out ∧
    ¬[pathSeparator, pathSeparator] <:+: out ∧
    ∀ args' dst', Layout args' out .above → IsBuffer dst' args'.outPath args'.outLen →
      out.length < args'.outLen →
      ∃ r', Converges (libdFilesystemFilepathNormalize args' dst') r' ∧
        AnswersString args' r' (some out)

/-- Normalising is idempotent exactly on the paths that leave no empty component behind and on the
invalid ones. -/
theorem normalize_idempotent_iff (p : List UInt8) (args : NormalizeArgs) (dst : Mem)
    (hl : Layout args p .above) (hbuffer : IsBuffer dst args.outPath args.outLen)
    (hutf8 : IsWellFormedUtf8 p) (hlen : p.length < args.outLen) :
    ∃ r, Converges (libdFilesystemFilepathNormalize args dst) r ∧
      (IsIdempotent args r ↔
        ¬Unmatched (fun c => isEmptyComponent c = true) (pathOps p) ∨
          Overpops (fun _ => 1) (pathOps p) 0) := by
  obtain ⟨r, hconv, hanswer⟩ := normalize_wellFormed hl hbuffer hutf8 hlen
  refine ⟨r, hconv, ?_⟩
  rw [applyOps_above (fun c => pathOps_free) (fun c hc => absurd hc List.not_mem_nil)] at hanswer
  cases hrun : run (pathOps p) [] with
  | none =>
    rw [hrun] at hanswer
    have hinvalid : r.result = .invalidPath := hanswer
    apply iff_of_true _ (Or.inr (run_eq_none_iff_overpops.mp hrun))
    intro hok
    rw [hinvalid] at hok
    cases hok
  | some stack =>
    have hvalid : ¬Overpops (fun _ => 1) (pathOps p) 0 := not_overpops_of_run hrun
    rw [hrun] at hanswer
    obtain ⟨hok, hstring⟩ := hanswer
    have hstack : ∀ c ∈ stack, pathSeparator ∉ c :=
      fun c hc => pathOps_free (push_of_mem_run hrun hc)
    have hfree := componentLast_free p
    have hadjacent := adjacent_iff hstack hfree
    rw [or_iff_left hvalid, ← exists_mem_run_iff _ hrun]
    constructor
    · intro h hempty
      obtain ⟨out, hout, hsingle, -⟩ := h hok
      obtain ⟨c, hc, hnil⟩ := hempty
      apply hsingle
      rw [StringAt.unique hout hstring]
      apply hadjacent.mpr
      have hcnil : c = [] := by simpa [isEmptyComponent] using hnil
      exact hcnil ▸ hc
    · intro hnone _
      refine ⟨_, hstring, ?_, ?_⟩
      · intro hinfix
        exact hnone ⟨[], hadjacent.mp hinfix, rfl⟩
      · intro args' dst' hl' hbuffer' hlen'
        have hcomponent : ∀ c ∈ stack, IsText c := fun c hc =>
          isText_componentsOf hutf8.isText hl.starts (push_mem_componentOps (push_of_mem_run hrun hc)).1
        have hlastText : IsText (componentLast (componentsOf p)) := by
          cases @componentLast_mem (componentsOf p) with
          | inl h =>
            rw [h]
            exact IsText.nil
          | inr h => exact isText_componentsOf hutf8.isText hl.starts h
        have htext := (isText_render hcomponent).append hlastText
        apply normalize_normalForm hl' hbuffer' htext hlen' hstack hfree _ (componentLast_notDot _)
        intro c hc
        constructor
        · rintro rfl
          exact hnone ⟨[], hc, rfl⟩
        · exact not_or.mpr (push_mem_componentOps (push_of_mem_run hrun hc)).2

theorem normalize_idempotent_iff_parent :
    ∃ r,
      Converges (libdFilesystemFilepathNormalize (callOn parentPath 16 64 16) (zeroBuffer 64 16))
        r ∧
      IsIdempotent (callOn parentPath 16 64 16) r := by
  have hl : Layout (callOn parentPath 16 64 16) parentPath .above :=
    ⟨rfl, by decide, rfl, by decide, by decide, by decide, (by decide : 16 < 64)⟩
  have hutf8 : IsWellFormedUtf8 parentPath := ⟨['/', 'a', '/', '.', '.', '/', 'b'], by decide⟩
  obtain ⟨r, hconv, hiff⟩ := normalize_idempotent_iff parentPath (callOn parentPath 16 64 16)
    (zeroBuffer 64 16) hl (isBuffer_zeroBuffer 64 16) hutf8 (by decide)
  have hrun : run (pathOps parentPath) [] = some [] := by decide
  have hnone : ¬Unmatched (fun c => isEmptyComponent c = true) (pathOps parentPath) := by
    rw [← exists_mem_run_iff _ hrun]
    simp
  exact ⟨r, hconv, hiff.mpr (Or.inl hnone)⟩

/-- `"/a/.//b"`. -/
def keptEmptyPath : List UInt8 := [47, 97, 47, 46, 47, 47, 98]

/-- `"/a/.//b"` becomes `"/a//b"`, which becomes `"/a/b"`. -/
theorem normalize_idempotent_fails :
    Layout (callOn keptEmptyPath 16 64 16) keptEmptyPath .above ∧
      IsBuffer (zeroBuffer 64 16) 64 16 ∧
      IsWellFormedUtf8 keptEmptyPath ∧ keptEmptyPath.length < 16 ∧
      ∃ r r',
        Converges
          (libdFilesystemFilepathNormalize (callOn keptEmptyPath 16 64 16) (zeroBuffer 64 16)) r ∧
        r.result = .ok ∧ StringAt r.dst 64 [47, 97, 47, 47, 98] ∧
        Converges (libdFilesystemFilepathNormalize (callOn [47, 97, 47, 47, 98] 16 64 16)
          (zeroBuffer 64 16)) r' ∧
        r'.result = .ok ∧ StringAt r'.dst 64 [47, 97, 47, 98] ∧
        ¬IsIdempotent (callOn keptEmptyPath 16 64 16) r := by
  have hl : Layout (callOn keptEmptyPath 16 64 16) keptEmptyPath .above :=
    ⟨rfl, by decide, rfl, by decide, by decide, by decide, (by decide : 16 < 64)⟩
  have hutf8 : IsWellFormedUtf8 keptEmptyPath :=
    ⟨['/', 'a', '/', '.', '/', '/', 'b'], by decide⟩
  have hl' : Layout (callOn [47, 97, 47, 47, 98] 16 64 16) [47, 97, 47, 47, 98] .above :=
    ⟨rfl, by decide, rfl, by decide, by decide, by decide, (by decide : 16 < 64)⟩
  have hutf8' : IsWellFormedUtf8 [47, 97, 47, 47, 98] := ⟨['/', 'a', '/', '/', 'b'], by decide⟩
  obtain ⟨r, hconv, hok, hstring⟩ :=
    normalize_wellFormed hl (isBuffer_zeroBuffer 64 16) hutf8 (by decide)
  obtain ⟨r', hconv', hok', hstring'⟩ :=
    normalize_wellFormed hl' (isBuffer_zeroBuffer 64 16) hutf8' (by decide)
  refine ⟨hl, isBuffer_zeroBuffer 64 16, hutf8, by decide, r, r', hconv, hok, hstring, hconv', hok',
    hstring', ?_⟩
  intro h
  obtain ⟨out, hout, hsingle, -⟩ := h hok
  apply hsingle
  rw [StringAt.unique hout hstring]
  exact ⟨[47, 97], [98], by decide⟩

end Libdane
