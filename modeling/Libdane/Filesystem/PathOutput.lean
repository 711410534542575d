import Libdane.Filesystem.PathComposition

/-!
# What a normalised path looks like

The output is well-formed text again, and its components are some of those of the path, in their
order. The paths that come out as they went in are those without references and without adjacent
separators.
-/

namespace Libdane

open ByteMachine StackWords StackOp

private theorem IsCharacter.eq_of_mem {chunk : List UInt8} {ascii : UInt8} (h : IsCharacter chunk)
    (hascii : ascii.toNat < 128) (hmem : ascii ∈ chunk) : chunk = [ascii] := by
  cases h with
  | ascii hb => rw [List.mem_singleton.mp hmem]
  | multibyte hlen hhigh => exact absurd (hhigh ascii hmem) (by omega)

private theorem isWellFormedUtf8_nil : IsWellFormedUtf8 [] := ⟨[], rfl⟩

private theorem isWellFormedUtf8_separator : IsWellFormedUtf8 [pathSeparator] := ⟨['/'], by decide⟩

private theorem IsWellFormedUtf8.append {first second : List UInt8}
    (hfirst : IsWellFormedUtf8 first)
    (hsecond : IsWellFormedUtf8 second) : IsWellFormedUtf8 (first ++ second) := by
  rcases hfirst with ⟨characters, rfl⟩
  rcases hsecond with ⟨more, rfl⟩
  exact ⟨characters ++ more, by rw [List.flatMap_append]⟩

private theorem IsWellFormedUtf8.split {ascii : UInt8} (hascii : ascii.toNat < 128)
    {first second : List UInt8} (h : IsWellFormedUtf8 (first ++ ascii :: second)) :
    IsWellFormedUtf8 first ∧ IsWellFormedUtf8 second := by
  rcases h with ⟨characters, h⟩
  induction characters generalizing first with
  | nil => simp at h
  | cons c characters ih =>
    rw [List.flatMap_cons] at h
    have hbytes : IsWellFormedUtf8 (String.utf8EncodeChar c) := ⟨[c], by simp⟩
    rcases List.append_eq_append_iff.mp h with ⟨tail, hchunk, hrest⟩ | ⟨tail, hfirst, hrest⟩
    · cases tail with
      | nil =>
        rw [List.append_nil] at hchunk
        exact ⟨hchunk ▸ hbytes, (@ih [] hrest).2⟩
      | cons b tail =>
        obtain ⟨rfl, hsecond⟩ := List.cons.inj hrest
        have hmem : ascii ∈ String.utf8EncodeChar c := by simp [hchunk]
        rw [(isCharacter_utf8EncodeChar c).eq_of_mem hascii hmem] at hchunk
        cases first with
        | nil =>
          obtain rfl : [] = tail := (List.cons.inj hchunk).2
          exact ⟨isWellFormedUtf8_nil, characters, hsecond⟩
        | cons x first =>
          have hlen := congrArg List.length hchunk
          simp at hlen
    · obtain ⟨htail, hsecond⟩ := ih hrest.symm
      rw [hfirst]
      exact ⟨hbytes.append htail, hsecond⟩

private theorem IsWellFormedUtf8.of_mem_joined {components : List (List UInt8)}
    (h : IsWellFormedUtf8 (joined components)) {c : List UInt8} (hc : c ∈ components) :
    IsWellFormedUtf8 c := by
  induction components with
  | nil => simp at hc
  | cons d rest ih =>
    cases rest with
    | nil =>
      rw [List.mem_singleton] at hc
      rw [hc]
      simpa [joined] using h
    | cons next rest =>
      rw [joined_cons] at h
      obtain ⟨hd, hrest⟩ := h.split (by decide)
      cases List.mem_cons.mp hc with
      | inl he => exact he ▸ hd
      | inr hc => exact ih hrest hc

private theorem IsWellFormedUtf8.of_mem_componentsOf {p : List UInt8} (h : IsWellFormedUtf8 p)
    (hstarts : p.head? = some pathSeparator) {c : List UInt8} (hc : c ∈ componentsOf p) :
    IsWellFormedUtf8 c := by
  rw [(joined_componentsOf hstarts).1, ← List.nil_append (pathSeparator :: _)] at h
  exact (h.split (by decide)).2.of_mem_joined hc

private theorem isWellFormedUtf8_render {stack : List (List UInt8)}
    (hstack : ∀ c ∈ stack, IsWellFormedUtf8 c) : IsWellFormedUtf8 (render stack) := by
  induction stack with
  | nil => exact isWellFormedUtf8_separator
  | cons c stack ih =>
    rw [render_cons]
    have hbelow := ih fun d hd => hstack d (List.mem_cons_of_mem c hd)
    exact (hbelow.append (hstack c List.mem_cons_self)).append isWellFormedUtf8_separator

private theorem labels_resolveOp (components : List (List UInt8)) :
    labels (components.map resolveOp) = components.filter fun c => c ≠ dotDotName := by
  induction components with
  | nil => rfl
  | cons c components ih => by_cases hc : c = dotDotName <;> simp [resolveOp, labels, hc, ih]

private theorem labels_lastOps (last : List UInt8) :
    labels (lastOps last) = [last].filter fun c => c ≠ [] := by
  by_cases hlast : last = [] <;> simp [lastOps, labels, hlast]

private theorem labels_sublist {p : List UInt8} (hstarts : p.head? = some pathSeparator) :
    ((labels (pathOps p)).filter (fun c => !isEmptyComponent c) ++
        [componentLast (componentsOf p)].filter fun c => c ≠ []).Sublist (pathComponents p) := by
  obtain ⟨-, -, hsplit⟩ := joined_componentsOf hstarts
  rw [← labels_without, ← labels_lastOps, ← labels_append, pathOps, ← resolveOps_eq _ false,
    labels_resolveOp, pathComponents, hsplit, List.filter_cons_of_neg (by simp)]
  apply List.filter_sublist.trans
  apply List.monotone_filter_right
  intro c hc
  simp only [decide_eq_true_eq] at hc ⊢
  exact hc.1

private theorem AnswersString.exists_of_ok {args : NormalizeArgs} {r : NormalizeReturn}
    {answer : Option (List UInt8)} (h : AnswersString args r answer) (hok : r.result = .ok) :
    ∃ out, answer = some out ∧ StringAt r.dst args.outPath out := by
  cases answer with
  | none =>
    have hinvalid : r.result = .invalidPath := h
    rw [hok] at hinvalid
    cases hinvalid
  | some out => exact ⟨out, rfl, h.2⟩

/-- A normalised path is an absolute path in well-formed text. Its components are components of the
path, in the same order, and none is a reference. -/
theorem normalize_output (p : List UInt8) (args : NormalizeArgs) (dst : Mem)
    (hl : Layout args p .above) (hbuffer : IsBuffer dst args.outPath args.outLen)
    (hutf8 : IsWellFormedUtf8 p) (hlen : p.length < args.outLen) :
    ∃ r, Converges (libdFilesystemFilepathNormalize args dst) r ∧
      (r.result = .ok → ∃ out, StringAt r.dst args.outPath out ∧ IsWellFormedUtf8 out ∧
        out.head? = some pathSeparator ∧ (pathComponents out).Sublist (pathComponents p) ∧
        ∀ c ∈ pathComponents out, ¬IsDotName c) := by
  obtain ⟨r, hconv, hanswer⟩ := normalize_above hl hbuffer hutf8.isText hlen
  refine ⟨r, hconv, ?_⟩
  intro hok
  obtain ⟨out, hout, hstring⟩ := hanswer.exists_of_ok hok
  obtain ⟨stack, hrun, rfl⟩ := Option.map_eq_some_iff.mp hout
  have hpushed := fun {c} hc => push_mem_componentOps (push_of_mem_run hrun hc (a := c))
  have hfree : ∀ c ∈ stack, pathSeparator ∉ c :=
    fun c hc => pathOps_free (push_of_mem_run hrun hc)
  have hlastText : IsWellFormedUtf8 (componentLast (componentsOf p)) := by
    cases @componentLast_mem (componentsOf p) with
    | inl h =>
      rw [h]
      exact isWellFormedUtf8_nil
    | inr h => exact hutf8.of_mem_componentsOf hl.starts h
  have hstackText := isWellFormedUtf8_render fun c hc =>
    hutf8.of_mem_componentsOf hl.starts (hpushed hc).1
  have hcomponents := pathComponents_render hfree (componentLast_free p)
  refine ⟨_, hstring, hstackText.append hlastText, rfl, ?_, ?_⟩
  · have hsub := (run_sublist hrun).filter fun c => !isEmptyComponent c
    rw [List.reverse_nil, List.nil_append] at hsub
    have hempty : stack.reverse.filter (fun c => c ≠ []) =
        stack.reverse.filter fun c => !isEmptyComponent c := by
      apply List.filter_congr
      intro c _
      by_cases hc : c = [] <;> simp [isEmptyComponent, hc]
    rw [hcomponents, List.filter_append, hempty]
    exact (hsub.append_right _).trans (labels_sublist hl.starts)
  · intro c hc
    rw [hcomponents] at hc
    have hmem := List.mem_of_mem_filter hc
    rw [List.mem_append, List.mem_reverse, List.mem_singleton] at hmem
    cases hmem with
    | inl hmem => exact not_or.mpr (hpushed hmem).2
    | inr hlast => exact hlast ▸ componentLast_notDot _

/-- The output `"/b"` of `"/a/../b"`. -/
theorem normalize_output_parent :
    ∃ r, Converges (libdFilesystemFilepathNormalize (callOn parentPath 16 64 16) (zeroBuffer 64 16)) r ∧
      StringAt r.dst 64 [47, 98] ∧ IsWellFormedUtf8 [47, 98] ∧
      (pathComponents [47, 98]).Sublist (pathComponents parentPath) := by
  have hl : Layout (callOn parentPath 16 64 16) parentPath .above :=
    ⟨rfl, by decide, rfl, by decide, by decide, by decide, (by decide : 16 < 64)⟩
  have hbuffer := isBuffer_zeroBuffer 64 16
  have hutf8 : IsWellFormedUtf8 parentPath := ⟨['/', 'a', '/', '.', '.', '/', 'b'], by decide⟩
  obtain ⟨r, hconv, hok, hstring⟩ := normalize_wellFormed hl hbuffer hutf8 (by decide)
  obtain ⟨r', hconv', hout⟩ := normalize_output parentPath _ _ hl hbuffer hutf8 (by decide)
  obtain rfl := hconv.unique hconv'
  obtain ⟨out, hstring', htext, -, hsub, -⟩ := hout hok
  obtain rfl := StringAt.unique hstring' hstring
  exact ⟨r, hconv, hstring, htext, hsub⟩

private theorem componentOps_nonempty {components : List (List UInt8)}
    (hnames : ∀ c ∈ components, ¬IsDotName c) {c : List UInt8}
    (h : push c ∈ componentOps false components) : c ≠ [] := by
  induction components with
  | nil => simp [componentOps] at h
  | cons d rest ih =>
    have hrest := ih fun e he => hnames e (List.mem_cons_of_mem d he)
    have hname := not_or.mp (hnames d List.mem_cons_self)
    cases rest with
    | nil => simp [componentOps, hname.2] at h
    | cons next rest =>
      rw [componentOps, if_neg hname.1, if_neg hname.2] at h
      by_cases hd : d = []
      · rw [if_pos hd] at h
        exact hrest (by simpa using h)
      · rw [if_neg hd] at h
        cases List.mem_cons.mp h with
        | inl he =>
          cases he
          exact hd
        | inr h => exact hrest h

/-- Above the input the output is the path itself exactly if no component of the path is a reference
and no two separators are adjacent. -/
theorem normalize_fixes_iff (p : List UInt8) (args : NormalizeArgs) (dst : Mem)
    (hl : Layout args p .above) (hbuffer : IsBuffer dst args.outPath args.outLen)
    (hutf8 : IsWellFormedUtf8 p) (hlen : p.length < args.outLen) :
    ∃ r, Converges (libdFilesystemFilepathNormalize args dst) r ∧
      (r.result = .ok ∧ StringAt r.dst args.outPath p ↔
        (∀ c ∈ pathComponents p, ¬IsDotName c) ∧ ¬[pathSeparator, pathSeparator] <:+: p) := by
  obtain ⟨hjoined, hne, hsplit⟩ := joined_componentsOf hl.starts
  have hnamed : (∀ c ∈ pathComponents p, ¬IsDotName c) ↔ ∀ c ∈ componentsOf p, ¬IsDotName c := by
    rw [pathComponents, hsplit, List.filter_cons_of_neg (by simp)]
    constructor
    · intro h c hc hname
      exact h c (List.mem_filter.mpr ⟨hc, by simpa using hname.ne_nil⟩) hname
    · intro h c hc
      exact h c (List.mem_of_mem_filter hc)
  rw [hnamed]
  -- the path as an output of its own components
  obtain ⟨front, last, hfront⟩ : ∃ front last, componentsOf p = front ++ [last] :=
    ⟨_, _, (List.dropLast_append_getLast hne).symm⟩
  have hself : render front.reverse ++ last = p := by
    rw [hjoined, hfront, joined_append]
    simp [render]
  have hcomponent : ∀ c ∈ componentsOf p, pathSeparator ∉ c := fun c hc => componentsOf_free hc
  rw [hfront] at hcomponent ⊢
  have hfree : ∀ c ∈ front.reverse, pathSeparator ∉ c :=
    fun c hc => hcomponent c (List.mem_append_left _ (List.mem_reverse.mp hc))
  have hlast : pathSeparator ∉ last := hcomponent last (by simp)
  have hadjacent := adjacent_iff hfree hlast
  rw [hself, List.mem_reverse] at hadjacent
  rw [hadjacent]
  obtain ⟨r, hconv, hanswer⟩ := normalize_above hl hbuffer hutf8.isText hlen
  refine ⟨r, hconv, ?_⟩
  constructor
  · rintro ⟨hok, hstring⟩
    obtain ⟨out, hout, hstring'⟩ := hanswer.exists_of_ok hok
    obtain ⟨stack, hrun, rfl⟩ := Option.map_eq_some_iff.mp hout
    have hself : p = render stack ++ componentLast (componentsOf p) :=
      StringAt.unique hstring hstring'
    have hstack := splitOn_render (fun c hc => pathOps_free (push_of_mem_run hrun hc))
      (componentLast_free p)
    rw [← hself, hsplit, hfront, List.cons.injEq] at hstack
    obtain ⟨hsame, -⟩ := List.append_inj' hstack.2 rfl
    have hnames : ∀ c ∈ front ++ [last], ¬IsDotName c := by
      intro c hc
      rw [hstack.2, List.mem_append, List.mem_reverse, List.mem_singleton] at hc
      cases hc with
      | inl hc => exact not_or.mpr (push_mem_componentOps (push_of_mem_run hrun hc)).2
      | inr hc => exact hc ▸ componentLast_notDot _
    refine ⟨hnames, fun hempty => ?_⟩
    rw [hsame, List.mem_reverse] at hempty
    have hpush := push_of_mem_run hrun hempty
    rw [pathOps, hfront] at hpush
    exact componentOps_nonempty hnames hpush rfl
  · rintro ⟨hnames, hempty⟩
    rw [← hself] at hl hlen
    have htext := hutf8.isText
    rw [← hself] at htext
    obtain ⟨r', hconv', hcopied⟩ := normalize_normalForm hl hbuffer htext hlen hfree hlast
      (fun c hc => ⟨fun hc' => hempty (hc' ▸ List.mem_reverse.mp hc),
        hnames c (List.mem_append_left _ (List.mem_reverse.mp hc))⟩) (hnames last (by simp))
    obtain rfl := hconv.unique hconv'
    rw [hself] at hcopied
    exact hcopied

theorem normalize_fixes_iff_name :
    ∃ r, Converges (libdFilesystemFilepathNormalize (callOn [47, 98] 16 64 16) (zeroBuffer 64 16)) r ∧
      r.result = .ok ∧ StringAt r.dst 64 [47, 98] := by
  have hl : Layout (callOn [47, 98] 16 64 16) [47, 98] .above :=
    ⟨rfl, by decide, rfl, by decide, by decide, by decide, (by decide : 16 < 64)⟩
  obtain ⟨r, hconv, hiff⟩ := normalize_fixes_iff [47, 98] (callOn [47, 98] 16 64 16)
    (zeroBuffer 64 16) hl (isBuffer_zeroBuffer 64 16) ⟨['/', 'b'], by decide⟩ (by decide)
  exact ⟨r, hconv, hiff.mpr ⟨by decide, by decide⟩⟩

end Libdane
