import Libdane.Filesystem.PathDots

/-!
# Paths that swallow no separator

On a path that swallows no separator, and so on every well-formed one, no dot component comes into
the output.
-/

namespace Libdane

open ByteMachine StackWords StackOp

/-- Some chunk of the reading takes a separator behind its first byte. -/
inductive Swallows : Bool → List UInt8 → Prop where
  | here {behind behind' : Bool} {rest rest' chunk : List UInt8}
      (hstep : readNext behind rest = .act (.copy chunk) behind' rest')
      (hs : pathSeparator ∈ chunk.tail) : Swallows behind rest
  | later {behind behind' : Bool} {rest rest' : List UInt8} {a : Act}
      (hstep : readNext behind rest = .act a behind' rest') (h : Swallows behind' rest') :
      Swallows behind rest

/-- The open component is no dot component that ends here. -/
structure Undecided (behind : Bool) (opened rest : List UInt8) : Prop where
  behind_iff : behind = true ↔ opened = []
  noNul : nullTerminator ∉ opened
  relative : opened = dotName → endsHere rest = false ∧ dotsHere rest = false
  parent : opened = dotDotName → endsHere rest = false

private theorem undecided_nil (rest : List UInt8) : Undecided true [] rest :=
  ⟨by simp, List.not_mem_nil, by simp [dotName], by simp [dotDotName]⟩

private theorem Undecided.not_isDotName {behind : Bool} {opened rest : List UInt8}
    (h : Undecided behind opened rest) (hends : endsHere rest = true) : ¬IsDotName opened := by
  intro h
  rcases h with hdot | hdots
  · rw [(h.relative hdot).1] at hends
    cases hends
  · rw [h.parent hdots] at hends
    cases hends

private theorem Undecided.character {behind : Bool} {opened more rest : List UInt8} {b : UInt8}
    (h : Undecided behind opened (b :: (more ++ rest))) (hb : b ≠ nullTerminator)
    (hmore : nullTerminator ∉ more) (hlen : (libdUtf8CharLen b).toNat = (b :: more).length)
    (hdot : b = dot → behind = true →
      endsHere (more ++ rest) = false ∧ dotsHere (more ++ rest) = false) :
    Undecided false (opened ++ b :: more) rest := by
  have hsingle : b = dot → more = [] := by
    rintro rfl
    rw [libdUtf8CharLen_dot, List.length_cons] at hlen
    exact List.length_eq_zero_iff.mp (by omega)
  refine ⟨by simp, by simp [h.noNul, hmore, Ne.symm hb], ?_, ?_⟩
  · intro heq
    have hbyte : b = dot := IsDotName.eq_dot (Or.inl heq) (by simp)
    obtain rfl := hsingle hbyte
    have hopen : opened = [] := by simpa [dotName] using congrArg List.dropLast heq
    exact hdot hbyte (h.behind_iff.mpr hopen)
  · intro heq
    have hbyte : b = dot := IsDotName.eq_dot (Or.inr heq) (by simp)
    obtain rfl := hsingle hbyte
    have hopen : opened = dotName := by
      simpa [dotDotName, dotName] using congrArg List.dropLast heq
    simpa [dotsHere, hbyte] using (h.relative hopen).2

private theorem ends_cases {q : List UInt8} (hends : endsHere (inputText q) = true)
    (hnul : nullTerminator ∉ q) :
    ((inputText q).head? == some pathSeparator) = true ∨ (inputText q).tail = [nullTerminator] := by
  cases q with
  | nil => exact Or.inr rfl
  | cons x q =>
    simp only [List.mem_cons, not_or] at hnul
    left
    simpa [inputText, endsHere, Ne.symm hnul.1] using hends

/-- Marks that push no dot component and leave none open. -/
def DotFree (opened : List UInt8) (marks : List Mark) : Prop :=
  (∀ c, push c ∈ markOps opened marks → ¬IsDotName c) ∧ ¬IsDotName (beforeNul (markLast opened marks))

private theorem beforeNul_eq_self {bytes : List UInt8} (h : nullTerminator ∉ bytes) :
    beforeNul bytes = bytes := by
  rw [beforeNul, List.takeWhile_eq_self_iff]
  intro b hb
  rw [bne_iff_ne]
  rintro rfl
  exact h hb

private theorem dotFree_nil : DotFree [] [] := by
  refine ⟨by simp [markOps], ?_⟩
  intro h
  exact h.ne_nil rfl

/-- A reading that swallows no separator brings no dot component into the output. -/
private theorem Reads.dotFree {behind : Bool} {rest opened : List UInt8} {marks : List Mark}
    (h : Reads behind rest marks) (hrest : IsRest (fun _ => True) rest) (hswallow : ¬Swallows behind rest)
    (hopen : Undecided behind opened rest) : DotFree opened marks := by
  induction h generalizing opened with
  | @stop behind rest hstep =>
    have hcase := readNext_cases behind rest
    rw [hstep] at hcase
    cases hcase with
    | stop rest =>
      refine ⟨by simp [markOps], ?_⟩
      rw [markLast, beforeNul_eq_self hopen.noNul]
      exact hopen.not_isDotName (by simp [endsHere])
  | @act behind behind' rest rest' a marks hstep h ih =>
    have hlater : ∀ {opened : List UInt8}, Undecided behind' opened rest' → DotFree opened marks :=
      ih (hrest.step hstep h) fun hs => hswallow (.later hstep hs)
    have hcase := readNext_cases behind rest
    rw [hstep] at hcase
    cases hcase with
    | separator rest =>
      obtain ⟨hpushes, hlast⟩ := hlater (undecided_nil _)
      refine ⟨?_, by simpa [Act.marks, markLast, openAfter] using hlast⟩
      intro c hc
      simp only [Act.marks, List.map_cons, List.map_nil, List.singleton_append, markOps, if_true] at hc
      rcases List.mem_cons.mp hc with he | hc
      · cases he
        exact hopen.not_isDotName (by simp [endsHere])
      · exact hpushes c hc
    | relative rest hbehind hends =>
      rcases hrest.tail dot_ne_nullTerminator with ⟨q, rfl, hnul, -⟩
      obtain rfl := hopen.behind_iff.mp hbehind
      rcases ends_cases hends hnul with hhead | hend
      · rw [hhead] at hlater
        exact hlater (undecided_nil _)
      · rw [hend] at h
        rw [Reads.nul h]
        exact dotFree_nil
    | parent rest hbehind hends hdots =>
      rcases hrest.tail dot_ne_nullTerminator with ⟨q, rfl, hnul, -⟩
      rcases dotsHere_inputText hdots with ⟨q, rfl, hthere⟩
      simp only [List.mem_cons, not_or] at hnul
      rw [DotFree, Act.marks, List.singleton_append, markOps, markLast]
      simp only [List.mem_cons, reduceCtorEq, false_or]
      rcases ends_cases hthere hnul.2 with hhead | hend
      · change ((inputText (dot :: q)).tail.head? == some pathSeparator) = true at hhead
        rw [hhead] at hlater
        exact hlater (undecided_nil _)
      · change (inputText (dot :: q)).tail.tail = _ at hend
        rw [hend] at h
        rw [Reads.nul h]
        exact dotFree_nil
    | character b more rest hb hs hlen hdot =>
      obtain ⟨q, hq, hnul, -⟩ := hrest.tail hb
      have hsep : pathSeparator ∉ b :: more := by
        rw [List.mem_cons, not_or]
        exact ⟨Ne.symm hs, fun hmem => hswallow (.here hstep hmem)⟩
      have hbehind : ((b :: more).getLast? == some pathSeparator) = false := by
        rw [beq_eq_false_iff_ne]
        exact fun he => hsep (List.mem_of_getLast? he)
      rw [DotFree, Act.marks, markOps_bytes hsep, markLast_bytes hsep]
      rcases chunk_cases hq hnul with ⟨hmore, -⟩ | ⟨rfl, rfl⟩ | rfl
      · rw [hbehind] at hlater
        exact hlater (hopen.character hb hmore hlen hdot)
      · -- the chunk takes the first NUL byte, so it is longer than a dot and the last one
        rw [Reads.nul h]
        refine ⟨by simp [markOps], ?_⟩
        intro hlast
        have hbyte : b = dot := by
          apply hlast.eq_dot
          have hkept : ∀ x ∈ opened, (x != nullTerminator) = true := by
            intro x hx
            rw [bne_iff_ne]
            rintro rfl
            exact hopen.noNul hx
          rw [markLast, beforeNul, List.takeWhile_append_of_pos hkept]
          simp [hb]
        rw [hbyte, libdUtf8CharLen_dot] at hlen
        simp at hlen
      · exact absurd h not_reads_nil

private theorem dotsMatched_of_not_swallows {p : List UInt8} (hnul : nullTerminator ∉ p)
    (h : ¬Swallows true (inputText (p.dropWhile fun x => x == pathSeparator))) : DotsMatched p := by
  intro marks hmarks
  obtain ⟨hpushes, hlast⟩ := (reads_of_readMarks hmarks).dotFree
    (Or.inr ⟨_, rfl, noNul_dropWhile hnul, trivial⟩) h (undecided_nil _)
  refine ⟨?_, hlast⟩
  intro h
  rcases h with ⟨c, before, after, hops, hdot, -⟩
  exact hpushes c (by simp [hops]) hdot

theorem IsText.tail {b : UInt8} {q : List UInt8} (hascii : b.toNat < 128) (h : IsText (b :: q)) :
    IsText q := (@IsText.split b hascii [] q h).2

private theorem IsText.dropWhile_separator {q : List UInt8} (h : IsText q) :
    IsText (q.dropWhile fun x => x == pathSeparator) := by
  induction q with
  | nil => exact h
  | cons b q ih =>
    by_cases hb : b = pathSeparator
    · subst hb
      simpa using ih (h.tail (by decide))
    · simpa [hb] using h

private theorem IsText.chunk {b : UInt8} {q more rest : List UInt8} (h : IsText (b :: q))
    (hlen : (libdUtf8CharLen b).toNat = (b :: more).length) (hsplit : more ++ rest = inputText q) :
    pathSeparator ∉ more ∧ ∃ q', rest = inputText q' ∧ IsText q' := by
  generalize htext : b :: q = text at h
  cases h with
  | nil => cases htext
  | @cons chunk q' hchunk hq' =>
    cases hchunk with
    | @ascii x hx =>
      simp only [List.singleton_append, List.cons.injEq] at htext
      rcases htext with ⟨rfl, rfl⟩
      rw [libdUtf8CharLen_toNat, if_pos hx, List.length_cons] at hlen
      obtain rfl : more = [] := List.length_eq_zero_iff.mp (by omega)
      exact ⟨List.not_mem_nil, q, hsplit, hq'⟩
    | @multibyte lead high hlen' hhigh =>
      simp only [List.cons_append, List.cons.injEq] at htext
      rcases htext with ⟨rfl, rfl⟩
      rw [inputText, List.append_assoc] at hsplit
      have hsame : more.length = high.length := by
        rw [hlen'] at hlen
        simpa using hlen.symm
      rcases List.append_inj hsplit hsame with ⟨rfl, rfl⟩
      refine ⟨?_, q', rfl, hq'⟩
      intro hmem
      exact absurd (hhigh pathSeparator (List.mem_cons_of_mem b hmem)) (by decide)

theorem IsRest.text_step {behind behind' : Bool} {rest rest' : List UInt8} {a : Act}
    (hrest : IsRest IsText rest) (hstep : readNext behind rest = .act a behind' rest') :
    IsRest IsText rest' := by
  have hclosed : ∀ q, IsText (pathSeparator :: q) → IsText q := fun q hq => hq.tail (by decide)
  have hcase := readNext_cases behind rest
  rw [hstep] at hcase
  cases hcase with
  | separator rest =>
    rcases hrest.tail pathSeparator_ne_nullTerminator with ⟨q, rfl, hnul, htext⟩
    rw [dropWhile_inputText]
    exact Or.inr ⟨_, rfl, noNul_dropWhile hnul, (hclosed q htext).dropWhile_separator⟩
  | relative rest hbehind hends =>
    rcases hrest.tail dot_ne_nullTerminator with ⟨q, rfl, hnul, htext⟩
    exact isRest_tail hclosed hends hnul (htext.tail (by decide))
  | parent rest hbehind hends hdots =>
    rcases hrest.tail dot_ne_nullTerminator with ⟨q, rfl, hnul, htext⟩
    rcases dotsHere_inputText hdots with ⟨q, rfl, hthere⟩
    simp only [List.mem_cons, not_or] at hnul
    exact isRest_tail hclosed hthere hnul.2 ((htext.tail (by decide)).tail (by decide))
  | character b more rest hb hs' hlen hdot =>
    obtain ⟨q, hq, hnul, htext⟩ := hrest.tail hb
    rcases htext.chunk hlen hq with ⟨-, q', rfl, htext'⟩
    have hsuffix : q' ++ [nullTerminator, nullTerminator] <:+ q ++ [nullTerminator, nullTerminator] :=
      ⟨more, hq⟩
    have hnul' := fun hmem => hnul ((List.suffix_append_self_iff.mp hsuffix).subset hmem)
    exact Or.inr ⟨q', rfl, hnul', htext'⟩

private theorem IsRest.not_swallows {behind : Bool} {rest : List UInt8}
    (hrest : IsRest IsText rest) :
    ¬Swallows behind rest := by
  intro h
  induction h with
  | @here behind behind' rest rest' chunk hstep hs =>
    have hcase := readNext_cases behind rest
    rw [hstep] at hcase
    cases hcase with
    | separator rest => simp at hs
    | character b more rest hb hs' hlen hdot =>
      obtain ⟨q, hq, -, htext⟩ := hrest.tail hb
      exact (htext.chunk hlen hq).1 hs
  | later hstep _ ih => exact ih (hrest.text_step hstep)

private theorem IsText.lead {b : UInt8} {q : List UInt8} (h : IsText (b :: q)) :
    0 < (libdUtf8CharLen b).toNat ∧ (libdUtf8CharLen b).toNat ≤ (b :: q).length := by
  generalize htext : b :: q = text at h
  cases h with
  | nil => cases htext
  | cons hchunk _ =>
    cases hchunk with
    | ascii hb =>
      simp only [List.singleton_append, List.cons.injEq] at htext
      rw [htext.1, libdUtf8CharLen_toNat, if_pos hb]
      simp
    | multibyte hlen _ =>
      simp only [List.cons_append, List.cons.injEq] at htext
      rw [htext.1, hlen]
      simp

theorem IsRest.not_stuck {behind : Bool} {rest : List UInt8} (hrest : IsRest IsText rest) :
    readNext behind rest ≠ .stuck := by
  intro hstuck
  have hcase := readNext_cases behind rest
  rw [hstuck] at hcase
  cases hcase with
  | empty =>
    cases hrest with
    | inl h => cases h
    | inr h =>
      obtain ⟨q, hq, -, -⟩ := h
      simp [inputText] at hq
  | stuck b rest hb hs hd hlen =>
    obtain ⟨q, hq, -, htext⟩ := hrest.tail hb
    have hlead := htext.lead
    have hlength := congrArg List.length hq
    simp only [inputText, List.length_append, List.length_cons, List.length_nil] at hlength hlead
    omega

theorem dotsMatched_of_wellFormed {p : List UInt8} (hutf8 : IsWellFormedUtf8 p)
    (hnul : nullTerminator ∉ p) : DotsMatched p := by
  apply dotsMatched_of_not_swallows hnul
  apply IsRest.not_swallows
  exact Or.inr ⟨_, rfl, noNul_dropWhile hnul, hutf8.isText.dropWhile_separator⟩

end Libdane
