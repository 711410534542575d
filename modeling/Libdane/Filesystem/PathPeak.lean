import Libdane.Filesystem.PathLargerBuffer

/-!
# How large a buffer a path needs

The function compares the capacity with the output as it stands, before later parent references
remove anything. What counts is therefore the longest output on the way, not the final one.
-/

namespace Libdane

open ByteMachine ByteMachine.Exec StackWords StackOp

/-- The greatest length of the output while some marks rewrite it. -/
def markPeak (side : Side) : List Mark → List UInt8 → Nat
  | [], output => output.length
  | .byte b :: marks, output => markPeak side marks (output ++ [b])
  | .parent :: marks, output =>
    if output.length ≤ 1 then output.length
    else max output.length (markPeak side marks (dropParent side output))

/-- The greatest length while some operations are performed and the open component is written. -/
def peakLength (side : Side) (last : List UInt8) :
    List (StackOp (List UInt8)) → List UInt8 → Nat
  | [], output => (output ++ last).length
  | push c :: ops, output => peakLength side last ops (output ++ c ++ [pathSeparator])
  | pop :: ops, output =>
    if output.length ≤ 1 then output.length
    else max output.length (peakLength side last ops (dropParent side output))

/-- The longest output that the function holds while it works on a path. -/
def pathPeak (side : Side) (p : List UInt8) : Nat :=
  peakLength side (componentLast (componentsOf p)) (pathOps p) (render [])

private theorem markPeak_bytes (side : Side) (bytes : List UInt8) (marks : List Mark)
    (output : List UInt8) :
    markPeak side (bytes.map Mark.byte ++ marks) output = markPeak side marks (output ++ bytes) := by
  induction bytes generalizing output with
  | nil => simp
  | cons b bytes ih => simp [markPeak, ih]

private theorem length_le_markPeak (side : Side) (marks : List Mark) (output : List UInt8) :
    output.length ≤ markPeak side marks output := by
  induction marks generalizing output with
  | nil => exact le_rfl
  | cons mark marks ih =>
    cases mark with
    | byte b =>
      have hrest := ih (output ++ [b])
      rw [List.length_append] at hrest
      exact (Nat.le_add_right _ _).trans hrest
    | parent =>
      rw [markPeak]
      split_ifs
      · exact le_rfl
      · exact le_max_left _ _

private theorem markPeak_le (side : Side) (marks : List Mark) (output : List UInt8) :
    markPeak side marks output ≤ output.length + copied marks := by
  induction marks generalizing output with
  | nil => simp [markPeak]
  | cons mark marks ih =>
    cases mark with
    | byte b =>
      have hrest := ih (output ++ [b])
      have hcopied := copied_bytes [b] marks
      simp only [List.map_cons, List.map_nil, List.singleton_append, List.length_append,
        List.length_singleton] at hrest hcopied
      rw [markPeak]
      omega
    | parent =>
      have hrest := ih (dropParent side output)
      have hdrop := dropParent_length side output
      rw [markPeak, copied_parent]
      split_ifs
      · exact Nat.le_add_right _ _
      · exact max_le (Nat.le_add_right _ _) (by omega)

private theorem markPeak_eq_peakLength (side : Side) {opened : List UInt8} {marks : List Mark}
    (h : ParentsAligned opened marks) (output : List UInt8) :
    markPeak side marks (output ++ opened) =
      peakLength side (markLast opened marks) (markOps opened marks) output := by
  induction marks generalizing opened output with
  | nil => simp [markPeak, markOps, peakLength, markLast]
  | cons mark marks ih =>
    cases mark with
    | byte b =>
      by_cases hb : b = pathSeparator
      · have hrest := ih h (output ++ opened ++ [b])
        simp only [openAfter, hb, if_true, List.append_nil] at hrest
        simpa [markPeak, markOps, markLast, peakLength, openAfter, hb] using hrest
      · have hrest := ih h output
        simp only [openAfter, hb, if_false, ← List.append_assoc] at hrest
        simpa [markPeak, markOps, markLast, peakLength, openAfter, hb] using hrest
    | parent =>
      rcases h with ⟨rfl, hmarks⟩
      have hrest := ih hmarks (dropParent side output)
      rw [List.append_nil] at hrest
      rw [List.append_nil, markPeak, markOps, markLast, peakLength, hrest]

/-- The answer for a capacity that may be too small for the longest output. -/
def AnswersWithin (args : NormalizeArgs) (r : NormalizeReturn) (peak : Nat)
    (answer : Option (List UInt8)) : Prop :=
  if args.outLen ≤ peak then r.result = .err else Answers args r answer

private theorem normalizeWriteChar_answer {args : NormalizeArgs} {c : Cursor} {scanPos : Nat}
    {r : NormalizeReturn} (h : normalizeWriteChar args c scanPos = ret (.inr r)) :
    r.result = .err := by
  rcases eq_ret_of_bind h with ⟨⟨offset, dst⟩, -, h⟩
  dsimp only at h
  split at h
  · cases h
    rfl
  · cases h

section Loop

variable {args : NormalizeArgs} {p : List UInt8} {side : Side} {c large : Cursor}
  {behind : Bool} {rest output : List UInt8}

private theorem Tracks.full_err (hl : Layout args p side) (h : Tracks args p behind rest output c)
    (hlarge : c.Extends large) (hbuffer : HoldsBuffer large.dst args.outPath args.outLen)
    {bytes rest' : List UInt8} {behind' : Bool}
    (hstep : readNext behind rest = .act (.copy bytes) behind' rest')
    (hroom : args.outLen ≤ output.length + bytes.length) {fuel : Nat}
    (hfuel : enoughFuel args p ≤ fuel)
    (hbody : normalizeBody args fuel args.outPath c = fault ∨ ∃ dst,
      normalizeBody args fuel args.outPath c = ret (.inr { result := .err, dst := dst })) :
    ∃ r, normalizeBody args fuel args.outPath large = ret (.inr r) ∧ r.result = .err := by
  obtain ⟨r, hr⟩ := h.full_returns hl hlarge hbuffer hstep hroom hfuel hbody
  exists r, hr
  by_cases hover : OverrunsBuffer args c
  · obtain ⟨lead, hbyte, hlong, -⟩ := hover
    have hne : (libdUtf8CharLen lead).toNat ≠ 1 := by omega
    rw [← hlarge.scanPos] at hbyte
    rw [normalizeBody_write hbyte (ne_nullTerminator_of_charLen hne)
      (normalizeSwitch_of_charLen hne _ _)] at hr
    exact normalizeWriteChar_answer hr
  · have hne := h.full_ends hl hstep hroom hover hfuel
    obtain ⟨dst, herr⟩ := hbody.resolve_left hne
    obtain ⟨answer, hanswer, hrelated⟩ := normalizeBody_follows hlarge _ herr
    rw [hr] at hanswer
    cases hanswer
    cases hrelated with
    | inr hreturn => exact hreturn.result

/-- The main loop answers for the marks that are left, or with `libd_err` if they make the output too
long on the way. -/
private theorem Tracks.answersWithin (hl : Layout args p side) {marks : List Mark}
    (hreads : Reads behind rest marks) (h : Tracks args p behind rest output c)
    (hlarge : c.Extends large) (hbuffer : HoldsBuffer large.dst args.outPath args.outLen)
    {fuel rounds : Nat} (hfuel : enoughFuel args p ≤ fuel) (hrounds : rest.length < rounds) :
    ∃ r, loop (normalizeBody args fuel args.outPath) rounds large = ret r ∧
      AnswersWithin args r (markPeak side marks output) (rewriteOutput side marks output) := by
  induction hreads generalizing output c large rounds with
  | stop hstep =>
    have hround := h.round hl
    rw [hstep] at hround
    cases hround with
    | stop hholds hbody =>
      obtain ⟨rounds, rfl⟩ := Nat.exists_eq_succ_of_ne_zero (by omega : rounds ≠ 0)
      obtain ⟨answer, hanswer, hrelated⟩ := normalizeBody_follows hlarge _ (hbody fuel hfuel)
      cases hrelated with
      | @inr _ r hreturn =>
        exists r, loop_done rounds hanswer
        have hroom : ¬args.outLen ≤ output.length := Nat.not_le.mpr h.written.room
        rw [AnswersWithin, markPeak, if_neg hroom]
        exact ⟨hreturn.result, fun k byte hk => hreturn.dst _ _ (hholds k byte hk)⟩
  | @act behind behind' rest rest' a marks hstep hreads ih =>
    have hround := h.round hl
    rw [hstep] at hround
    have hshorter := readNext_length hstep
    obtain ⟨rounds, rfl⟩ := Nat.exists_eq_succ_of_ne_zero (by omega : rounds ≠ 0)
    -- a round that goes on
    have hgo {output' : List UInt8} {next : Cursor} (hnext : Tracks args p behind' rest' output' next)
        (hbody : normalizeBody args fuel args.outPath c = ret (.inl next)) :
        ∃ r, loop (normalizeBody args fuel args.outPath) (rounds + 1) large = ret r ∧
          AnswersWithin args r (markPeak side marks output') (rewriteOutput side marks output') := by
      obtain ⟨answer, hanswer, hrelated⟩ := normalizeBody_follows hlarge _ hbody
      cases hrelated with
      | @inl _ next' hnext' =>
        have hround' : Round args large next' := ⟨fuel, hanswer⟩
        rw [loop_next rounds hanswer]
        exact ih hnext hnext' (hbuffer.round hround') (by omega)
    cases hround with
    | copy hroom hnext hbody =>
      rw [Act.marks, markPeak_bytes, rewriteOutput_bytes]
      exact hgo hnext (hbody fuel hfuel)
    | @full bytes _ _ hroom hbody =>
      obtain ⟨r, hr, herr⟩ := h.full_err hl hlarge hbuffer hstep hroom hfuel (hbody fuel hfuel)
      exists r, loop_done rounds hr
      have hpeak := length_le_markPeak side marks (output ++ bytes)
      rw [List.length_append] at hpeak
      rw [AnswersWithin, Act.marks, markPeak_bytes, if_pos (hroom.trans hpeak)]
      exact herr
    | skip hnext hbody => exact hgo hnext (hbody fuel hfuel)
    | parent hlen hnext hbody =>
      obtain ⟨r, hr, hanswer⟩ := hgo hnext (hbody fuel hfuel)
      exists r, hr
      have hroom := h.written.room
      have hlong : ¬output.length ≤ 1 := by omega
      have hpeak : args.outLen ≤ max output.length (markPeak side marks (dropParent side output)) ↔
          args.outLen ≤ markPeak side marks (dropParent side output) := by
        rw [le_max_iff]
        omega
      rw [Act.marks, List.singleton_append, markPeak, rewriteOutput, if_neg hlong, if_neg hlong,
        AnswersWithin, if_congr hpeak rfl rfl]
      exact hanswer
    | invalid hlen hbody =>
      obtain ⟨answer, hanswer, hrelated⟩ := normalizeBody_follows hlarge _ (hbody fuel hfuel)
      cases hrelated with
      | @inr _ r hreturn =>
        exists r, loop_done rounds hanswer
        have hroom : ¬args.outLen ≤ output.length := Nat.not_le.mpr h.written.room
        rw [Act.marks, List.singleton_append, markPeak, rewriteOutput, if_pos hlen, if_pos hlen,
          AnswersWithin, if_neg hroom]
        exact hreturn.result

end Loop

theorem exists_marks {p : List UInt8} (htext : IsText p) (hstarts : p.head? = some pathSeparator)
    (hnul : nullTerminator ∉ p) :
    ∃ marks, Reads true (inputText p) (.byte pathSeparator :: marks) ∧
      Reads true (inputText (p.tail.dropWhile fun x => x == pathSeparator)) marks ∧
      ParentsAligned [] marks ∧
      markOps [] marks = pathOps p ∧ markLast [] marks = componentLast (componentsOf p) ∧
      copied marks < p.length ∧ Mark.byte nullTerminator ∉ marks := by
  obtain ⟨hjoined, hne, -⟩ := joined_componentsOf hstarts
  have hplen := congrArg List.length hjoined
  have hbehind : IsText (joined (componentsOf p)) := by
    rw [hjoined] at htext
    exact htext.tail (by decide)
  obtain ⟨marks, hmarks⟩ := readsTo_joined hne hbehind
    (fun c hc => componentsOf_noNul hstarts hnul hc) (fun c hc => componentsOf_free hc) false
  rw [if_neg Bool.false_ne_true] at hmarks
  have hread : readMarks true (inputText p) = some (.byte pathSeparator :: marks) := by
    rw [hjoined]
    exact readMarks_close true hmarks
  have htail : p.tail = joined (componentsOf p) := congrArg List.tail hjoined
  have hreads : Reads true (inputText (p.tail.dropWhile fun x => x == pathSeparator)) marks := by
    rw [htail]
    exact reads_of_readMarks hmarks.read
  have hsize := hmarks.copied_le
  rw [List.length_cons] at hplen
  exact ⟨marks, reads_of_readMarks hread, hreads, hreads.aligned fun _ => rfl, hmarks.ops_eq,
    hmarks.last_eq, by omega, hmarks.noNul⟩

end Libdane
