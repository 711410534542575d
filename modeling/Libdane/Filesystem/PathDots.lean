import Libdane.Filesystem.PathResolution

/-!
# Dot components

The function copies a dot component only where a chunk swallows the separator in front of it. The
component then stays in the output unless a later parent reference removes it.
-/

namespace Libdane

open ByteMachine StackWords StackOp

def IsDotName (c : List UInt8) : Prop := c = dotName ∨ c = dotDotName

instance (c : List UInt8) : Decidable (IsDotName c) :=
  inferInstanceAs (Decidable (c = dotName ∨ c = dotDotName))

theorem IsDotName.ne_nil {c : List UInt8} (h : IsDotName c) : c ≠ [] := by
  rcases h with rfl | rfl
  · exact List.cons_ne_nil _ _
  · exact List.cons_ne_nil _ _

theorem IsDotName.eq_dot {c : List UInt8} (h : IsDotName c) {b : UInt8} (hb : b ∈ c) : b = dot := by
  rcases h with rfl | rfl <;> simpa [dotName, dotDotName] using hb

/-- The marks behind the separators that begin a path. -/
def rootMarks (p : List UInt8) : Option (List Mark) :=
  readMarks true (inputText (p.dropWhile fun x => x == pathSeparator))

/-- Every dot component that the marks of the path push is matched by a later parent reference, and
the component that they leave open is none. -/
def DotsMatched (p : List UInt8) : Prop :=
  ∀ marks, rootMarks p = some marks →
    ¬Unmatched IsDotName (markOps [] marks) ∧ ¬IsDotName (beforeNul (markLast [] marks))

/-- Only the last mark may be a NUL byte. -/
def NulLast (marks : List Mark) : Prop :=
  ∀ before after, marks = before ++ .byte nullTerminator :: after → after = []

private theorem NulLast.cons {mark : Mark} {marks : List Mark} (h : NulLast marks)
    (hmark : mark ≠ .byte nullTerminator) : NulLast (mark :: marks) := by
  intro before after heq
  cases before with
  | nil =>
    simp only [List.nil_append, List.cons.injEq] at heq
    exact absurd heq.1 hmark
  | cons first before =>
    simp only [List.cons_append, List.cons.injEq] at heq
    exact h before after heq.2

private theorem NulLast.bytes {bytes : List UInt8} {marks : List Mark} (h : NulLast marks)
    (hnul : nullTerminator ∉ bytes) : NulLast (bytes.map Mark.byte ++ marks) := by
  induction bytes with
  | nil => exact h
  | cons b bytes ih =>
    simp only [List.mem_cons, not_or] at hnul
    rw [List.map_cons, List.cons_append]
    exact (ih hnul.2).cons fun he => hnul.1 (Mark.byte.inj he).symm

/-- What a reading has in front of it: some bytes with a property and the two NUL bytes, or the
second one alone. -/
def IsRest (P : List UInt8 → Prop) (rest : List UInt8) : Prop :=
  rest = [nullTerminator] ∨ ∃ q, rest = inputText q ∧ nullTerminator ∉ q ∧ P q

theorem IsRest.tail {P : List UInt8 → Prop} {b : UInt8} {rest : List UInt8}
    (h : IsRest P (b :: rest)) (hb : b ≠ nullTerminator) :
    ∃ q, rest = inputText q ∧ nullTerminator ∉ q ∧ P (b :: q) := by
  rcases h with hrest | ⟨q, hrest, hnul, hq⟩
  · cases hrest
    exact absurd rfl hb
  · cases q with
    | nil =>
      cases hrest
      exact absurd rfl hb
    | cons x q =>
      simp only [List.mem_cons, not_or] at hnul
      cases hrest
      exact ⟨q, rfl, hnul.2, hq⟩

theorem isRest_tail {P : List UInt8 → Prop} {q : List UInt8}
    (hP : ∀ q, P (pathSeparator :: q) → P q) (hends : endsHere (inputText q) = true)
    (hnul : nullTerminator ∉ q) (hq : P q) : IsRest P (inputText q).tail := by
  cases q with
  | nil => exact Or.inl rfl
  | cons x q =>
    simp only [List.mem_cons, not_or] at hnul
    have hx : x = pathSeparator := by simpa [inputText, endsHere, Ne.symm hnul.1] using hends
    subst hx
    exact Or.inr ⟨q, rfl, hnul.2, hP q hq⟩

theorem dotsHere_inputText {q : List UInt8} (h : dotsHere (inputText q) = true) :
    ∃ q', q = dot :: q' ∧ endsHere (inputText q') = true := by
  cases q with
  | nil => simp [inputText, dotsHere, dot_ne_nullTerminator.symm] at h
  | cons x q =>
    simp only [inputText, List.cons_append, dotsHere, List.tail_cons, Bool.and_eq_true,
      List.head?_cons, beq_iff_eq, Option.some.injEq] at h
    exact ⟨q, by rw [h.1], h.2⟩

theorem noNul_dropWhile {p : List UInt8} (hnul : nullTerminator ∉ p) :
    nullTerminator ∉ p.dropWhile fun x => x == pathSeparator :=
  fun hmem => hnul ((List.dropWhile_suffix _).subset hmem)

theorem Reads.nul {behind : Bool} {rest : List UInt8} {marks : List Mark}
    (h : Reads behind (nullTerminator :: rest) marks) : marks = [] := by
  cases h with
  | stop => rfl
  | act hstep => simp [readNext] at hstep

theorem not_reads_nil {behind : Bool} {marks : List Mark} : ¬Reads behind [] marks := by
  intro h
  cases h with
  | stop hstep => simp [readNext] at hstep
  | act hstep => simp [readNext] at hstep

theorem chunk_cases {chunk rest q : List UInt8} (h : chunk ++ rest = inputText q)
    (hnul : nullTerminator ∉ q) :
    (nullTerminator ∉ chunk ∧ ∃ q', rest = inputText q' ∧ nullTerminator ∉ q') ∨
      (chunk = q ++ [nullTerminator] ∧ rest = [nullTerminator]) ∨ rest = [] := by
  rcases List.append_eq_append_iff.mp h with ⟨q', rfl, hrest⟩ | ⟨swallowed, hchunk, hrest⟩
  · simp only [List.mem_append, not_or] at hnul
    exact Or.inl ⟨hnul.1, q', hrest, hnul.2⟩
  · cases swallowed with
    | nil =>
      rw [List.append_nil] at hchunk
      rw [List.nil_append] at hrest
      exact Or.inl ⟨hchunk ▸ hnul, [], hrest.symm, List.not_mem_nil⟩
    | cons first swallowed =>
      simp only [List.cons_append, List.cons.injEq] at hrest
      rcases hrest with ⟨rfl, hrest⟩
      cases swallowed with
      | nil => exact Or.inr (Or.inl ⟨hchunk, hrest.symm⟩)
      | cons second swallowed =>
        simp only [List.cons_append, List.cons.injEq, List.nil_eq, List.append_eq_nil_iff] at hrest
        exact Or.inr (Or.inr hrest.2.2)

theorem IsRest.step {behind behind' : Bool} {rest rest' : List UInt8} {a : Act} {marks : List Mark}
    (hrest : IsRest (fun _ => True) rest) (hstep : readNext behind rest = .act a behind' rest')
    (h : Reads behind' rest' marks) : IsRest (fun _ => True) rest' := by
  have hcase := readNext_cases behind rest
  rw [hstep] at hcase
  cases hcase with
  | separator rest =>
    rcases hrest.tail pathSeparator_ne_nullTerminator with ⟨q, rfl, hnul, -⟩
    rw [dropWhile_inputText]
    exact Or.inr ⟨_, rfl, noNul_dropWhile hnul, trivial⟩
  | relative rest hbehind hends =>
    rcases hrest.tail dot_ne_nullTerminator with ⟨q, rfl, hnul, -⟩
    exact isRest_tail (fun _ _ => trivial) hends hnul trivial
  | parent rest hbehind hends hdots =>
    rcases hrest.tail dot_ne_nullTerminator with ⟨q, rfl, hnul, -⟩
    rcases dotsHere_inputText hdots with ⟨q, rfl, hthere⟩
    simp only [List.mem_cons, not_or] at hnul
    exact isRest_tail (fun _ _ => trivial) hthere hnul.2 trivial
  | character b more rest hb hs hlen hdot =>
    obtain ⟨q, hq, hnul, -⟩ := hrest.tail hb
    rcases chunk_cases hq hnul with ⟨-, q', hq', hnul'⟩ | ⟨-, rfl⟩ | rfl
    · exact Or.inr ⟨q', hq', hnul', trivial⟩
    · exact Or.inl rfl
    · exact absurd h not_reads_nil

private theorem Reads.nulLast {behind : Bool} {rest : List UInt8} {marks : List Mark}
    (h : Reads behind rest marks) (hrest : IsRest (fun _ => True) rest) : NulLast marks := by
  induction h with
  | stop =>
    intro before after heq
    simp at heq
  | @act behind behind' rest rest' a marks hstep h ih =>
    have hmarks := ih (hrest.step hstep h)
    have hcase := readNext_cases behind rest
    rw [hstep] at hcase
    cases hcase with
    | separator rest => exact hmarks.cons (by decide)
    | relative rest hbehind hends => exact hmarks
    | parent rest hbehind hends hdots => exact hmarks.cons (by decide)
    | character b more rest hb hs hlen hdot =>
      obtain ⟨q, hq, hnul, -⟩ := hrest.tail hb
      rcases chunk_cases hq hnul with ⟨hmore, -⟩ | ⟨rfl, rfl⟩ | rfl
      · apply hmarks.bytes
        simp [hmore, Ne.symm hb]
      · rw [Reads.nul h, List.append_nil, Act.marks, ← List.cons_append, List.map_append]
        apply NulLast.bytes
        · intro before after heq
          cases before with
          | nil =>
            simp only [List.map_cons, List.map_nil, List.nil_append, List.cons.injEq] at heq
            exact heq.2.symm
          | cons first before => simp at heq
        · simp [hnul, Ne.symm hb]
      · exact absurd h not_reads_nil

private theorem mark_of_push {opened c : List UInt8} {marks : List Mark} {b : UInt8}
    (h : push c ∈ markOps opened marks) (hb : b ∈ c) :
    b ∈ opened ∨ (b ≠ pathSeparator ∧
      ∃ before after, marks = before ++ .byte b :: after ∧ after ≠ []) := by
  induction marks generalizing opened with
  | nil => simp [markOps] at h
  | cons mark marks ih =>
    have hlater : push c ∈ markOps [] marks → b ≠ pathSeparator ∧
        ∃ before after, mark :: marks = before ++ .byte b :: after ∧ after ≠ [] := by
      intro h
      rcases ih h with hnil | ⟨hne, before, after, rfl, hafter⟩
      · simp at hnil
      · exact ⟨hne, mark :: before, after, rfl, hafter⟩
    cases mark with
    | byte x =>
      rw [markOps] at h
      by_cases hx : x = pathSeparator
      · rw [if_pos hx] at h
        rcases List.mem_cons.mp h with he | h
        · cases he
          exact Or.inl hb
        · exact Or.inr (hlater h)
      · rw [if_neg hx] at h
        rcases ih h with hopen | ⟨hne, before, after, rfl, hafter⟩
        · rcases List.mem_append.mp hopen with hopen | hopen
          · exact Or.inl hopen
          · rw [List.mem_singleton] at hopen
            subst hopen
            refine Or.inr ⟨hx, [], marks, rfl, ?_⟩
            rintro rfl
            simp [markOps] at h
        · exact Or.inr ⟨hne, .byte x :: before, after, rfl, hafter⟩
    | parent =>
      rw [markOps] at h
      rcases List.mem_cons.mp h with he | h
      · cases he
      · exact Or.inr (hlater h)

private theorem markOps_free {c : List UInt8} {marks : List Mark} (h : push c ∈ markOps [] marks) :
    pathSeparator ∉ c := by
  intro hmem
  rcases mark_of_push h hmem with hnil | ⟨hne, -⟩
  · simp at hnil
  · exact hne rfl

private theorem NulLast.markOps {c : List UInt8} {marks : List Mark} (hmarks : NulLast marks)
    (h : push c ∈ Libdane.markOps [] marks) : nullTerminator ∉ c := by
  intro hmem
  rcases mark_of_push h hmem with hnil | ⟨-, before, after, heq, hafter⟩
  · simp at hnil
  · exact hafter (hmarks before after heq)

private theorem markLast_free {opened : List UInt8} {marks : List Mark}
    (hopen : pathSeparator ∉ opened) :
    pathSeparator ∉ markLast opened marks := by
  induction marks generalizing opened with
  | nil => exact hopen
  | cons mark marks ih =>
    cases mark with
    | byte b =>
      rw [markLast]
      apply ih
      by_cases hb : b = pathSeparator
      · simp [openAfter, hb]
      · simp [openAfter, hb, hopen, Ne.symm hb]
    | parent => exact ih List.not_mem_nil

private theorem mem_render {stack : List (List UInt8)} {b : UInt8} (h : b ∈ render stack) :
    b = pathSeparator ∨ ∃ c ∈ stack, b ∈ c := by
  induction stack with
  | nil => exact Or.inl (List.mem_singleton.mp h)
  | cons c stack ih =>
    rw [render_cons, List.mem_append, List.mem_append, List.mem_singleton] at h
    rcases h with (h | h) | h
    · rcases ih h with h | ⟨d, hd, hb⟩
      · exact Or.inl h
      · exact Or.inr ⟨d, List.mem_cons_of_mem c hd, hb⟩
    · exact Or.inr ⟨c, List.mem_cons_self, h⟩
    · exact Or.inl h

/-- The output string of a call on any bytes: the components that the marks leave, and the open
component up to its first NUL byte. -/
private theorem normalize_ok_string {args : NormalizeArgs} {p : List UInt8} {dst after : Mem}
    (hl : Layout args p .above) (hbuffer : IsBuffer dst args.outPath args.outLen)
    (hok : Converges (libdFilesystemFilepathNormalize args dst) { result := .ok, dst := after }) :
    ∃ marks stack, rootMarks p = some marks ∧ run (markOps [] marks) [] = some stack ∧
      StringAt after args.outPath (render stack ++ beforeNul (markLast [] marks)) := by
  obtain ⟨allMarks, final, hread, hrewrite, hholds⟩ := normalize_ok_sound hl hbuffer hok
  -- the root is one separator in front of the other marks
  obtain ⟨q, rfl⟩ : ∃ q, p = pathSeparator :: q := by
    have hstarts := hl.starts
    cases p with
    | nil => simp at hstarts
    | cons b q =>
      simp only [List.head?_cons, Option.some.injEq] at hstarts
      exact ⟨q, by rw [hstarts]⟩
  have hinput : inputText (pathSeparator :: q) = pathSeparator :: inputText q := rfl
  have hroot : (pathSeparator :: q).dropWhile (fun x => x == pathSeparator) =
      q.dropWhile fun x => x == pathSeparator := by simp
  rw [hinput, readMarks_separator, dropWhile_inputText, ← hroot] at hread
  rcases Option.map_eq_some_iff.mp hread with ⟨marks, hmarks, rfl⟩
  have hreads := reads_of_readMarks hmarks
  have hlast := hreads.nulLast (Or.inr ⟨_, rfl, noNul_dropWhile hl.noNul, trivial⟩)
  -- the output is the run of the operations, and the open component
  have haligned := hreads.aligned (fun _ => rfl : true = true → [] = [])
  have happly := rewriteOutput_eq_applyOps .above haligned (render [])
  have hrun := applyOps_above (fun c => @markOps_free c marks) fun c hc => absurd hc List.not_mem_nil
  rw [List.append_nil, hrun] at happly
  change rewriteOutput .above marks (render []) = some final at hrewrite
  rw [happly] at hrewrite
  cases hstack : run (markOps [] marks) [] with
  | none => simp [hstack] at hrewrite
  | some stack =>
    rw [hstack, Option.map_some, Option.map_some, Option.some.injEq] at hrewrite
    refine ⟨marks, stack, hmarks, hstack, ?_⟩
    have hstring := stringAt_beforeNul hholds
    rw [← hrewrite, beforeNul, List.takeWhile_append_of_pos] at hstring
    · exact hstring
    intro b hb
    rcases mem_render hb with rfl | ⟨c, hc, hmem⟩
    · decide
    · rw [bne_iff_ne]
      rintro rfl
      exact hlast.markOps (push_of_mem_run hstack hc) hmem

/-- A call that returns `libd_ok` leaves no dot component in its output exactly when every dot
component that a chunk has brought into it is matched by a later parent reference. -/
theorem normalize_dots_iff (p : List UInt8) (args : NormalizeArgs) (dst after : Mem)
    (hl : Layout args p .above) (hbuffer : IsBuffer dst args.outPath args.outLen)
    (hok : Converges (libdFilesystemFilepathNormalize args dst) { result := .ok, dst := after }) :
    ∃ out, StringAt after args.outPath out ∧
      ((∀ c ∈ pathComponents out, ¬IsDotName c) ↔ DotsMatched p) := by
  obtain ⟨marks, stack, hmarks, hstack, hout⟩ := normalize_ok_string hl hbuffer hok
  refine ⟨_, hout, ?_⟩
  have hlast : pathSeparator ∉ beforeNul (markLast [] marks) :=
    fun hmem => markLast_free List.not_mem_nil (List.takeWhile_subset _ hmem)
  have hfree : ∀ c ∈ stack, pathSeparator ∉ c :=
    fun c hc => markOps_free (push_of_mem_run hstack hc)
  have hmem : ∀ c, IsDotName c → (c ∈ pathComponents (render stack ++ beforeNul (markLast [] marks)) ↔
      c ∈ stack ∨ c = beforeNul (markLast [] marks)) := by
    intro c hc
    rw [pathComponents_render hfree hlast]
    simp [hc.ne_nil]
  have hmatched : DotsMatched p ↔ (¬∃ c ∈ stack, IsDotName c) ∧ ¬IsDotName (beforeNul (markLast [] marks)) := by
    rw [exists_mem_run_iff IsDotName hstack, DotsMatched, hmarks]
    simp
  rw [hmatched]
  constructor
  · intro hnone
    refine ⟨?_, fun hdot => hnone _ ((hmem _ hdot).mpr (Or.inr rfl)) hdot⟩
    intro h
    rcases h with ⟨c, hc, hdot⟩
    exact hnone c ((hmem c hdot).mpr (Or.inl hc)) hdot
  · rintro ⟨hstack, hopen⟩ c hc hdot
    rcases (hmem c hdot).mp hc with hc | rfl
    · exact hstack ⟨c, hc, hdot⟩
    · exact hopen hdot

/-- `"/\xE0/./.."`. -/
def matchedDotPath : List UInt8 := [47, 224, 47, 46, 47, 46, 46]

/-- The chunk of three bytes brings the dot into the output, and the parent reference removes it. -/
theorem normalize_dots_iff_matched :
    ∃ after out,
      Converges (libdFilesystemFilepathNormalize (callOn matchedDotPath 16 64 16) (zeroBuffer 64 16))
        { result := .ok, dst := after } ∧
      StringAt after 64 out ∧ ∀ c ∈ pathComponents out, ¬IsDotName c := by
  have hl : Layout (callOn matchedDotPath 16 64 16) matchedDotPath .above :=
    ⟨rfl, by decide, rfl, by decide, by decide, by decide, (by decide : 16 < 64)⟩
  have hread : readMarks true (inputText matchedDotPath) =
      some [.byte 47, .byte 224, .byte 47, .byte 46, .byte 47, .parent] := by decide
  obtain ⟨⟨result, after⟩, hconv, hok, -⟩ :=
    normalize_converges hl (isBuffer_zeroBuffer 64 16) hread (by decide)
  change result = .ok at hok
  subst hok
  obtain ⟨out, hout, hiff⟩ := normalize_dots_iff matchedDotPath (callOn matchedDotPath 16 64 16)
    (zeroBuffer 64 16) after hl (isBuffer_zeroBuffer 64 16) hconv
  refine ⟨after, out, hconv, hout, hiff.mpr ?_⟩
  intro marks hmarks
  have hroot : rootMarks matchedDotPath =
      some [.byte 224, .byte 47, .byte 46, .byte 47, .parent] := by decide
  rw [hroot, Option.some.injEq] at hmarks
  subst hmarks
  have hrun : run (markOps [] [.byte 224, .byte 47, .byte 46, .byte 47, .parent]) [] = some [[224]] := by
    decide
  rw [← exists_mem_run_iff IsDotName hrun]
  decide

/-- `"/\xE0/."`. -/
def swallowedDotPath : List UInt8 := [47, 224, 47, 46]

/-- The chunk of three bytes brings the dot into the output, where it stays. -/
theorem normalize_dots_fails :
    Layout (callOn swallowedDotPath 16 64 16) swallowedDotPath .above ∧
      IsBuffer (zeroBuffer 64 16) 64 16 ∧
      ∃ after,
        Converges (libdFilesystemFilepathNormalize (callOn swallowedDotPath 16 64 16) (zeroBuffer 64 16))
          { result := .ok, dst := after } ∧
        StringAt after 64 [47, 224, 47, 46] ∧
        ∃ c ∈ pathComponents [47, 224, 47, 46], IsDotName c := by
  have hl : Layout (callOn swallowedDotPath 16 64 16) swallowedDotPath .above :=
    ⟨rfl, by decide, rfl, by decide, by decide, by decide, (by decide : 16 < 64)⟩
  have hread : readMarks true (inputText swallowedDotPath) =
      some [.byte 47, .byte 224, .byte 47, .byte 46] := by decide
  refine ⟨hl, isBuffer_zeroBuffer 64 16, ?_⟩
  obtain ⟨⟨result, after⟩, hconv, hok, hholds⟩ :=
    normalize_converges hl (isBuffer_zeroBuffer 64 16) hread (by decide)
  change result = .ok at hok
  subst hok
  exact ⟨after, hconv, ⟨hholds, by decide⟩, dotName, by decide, Or.inl rfl⟩

end Libdane
