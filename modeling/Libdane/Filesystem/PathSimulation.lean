import Libdane.Filesystem.PathTracking

/-!
# The normalisation follows the reading

A cursor tracks a rest of the input and an output. Each round of the main loop does to the cursor
what the reading says it does to the rest and the output, so a run of the function computes the
rewritten output of the marks of its input.
-/

namespace Libdane

open ByteMachine ByteMachine.Exec

section Round

variable {args : NormalizeArgs} {p : List UInt8} {side : Side} {behind behind' : Bool}
  {rest rest' output : List UInt8} {c : Cursor}

private theorem takeWhile_inputText (q : List UInt8) :
    ((inputText q).takeWhile fun x => x == pathSeparator) =
      q.takeWhile fun x => x == pathSeparator := by
  induction q with
  | nil => rfl
  | cons b q ih =>
    change ((b :: inputText q).takeWhile _) = _
    by_cases hb : b = pathSeparator
    · simp [hb, ih]
    · simp [hb]

/-- What the reading says of a round is what the round does to a cursor that tracks it. -/
inductive RoundOf (args : NormalizeArgs) (p : List UInt8) (side : Side) (output : List UInt8)
    (c : Cursor) : ReadStep → Prop where
  | stop {dst : Mem} (hholds : dst.Holds args.outPath (output ++ [nullTerminator]))
      (hbody : ∀ fuel, enoughFuel args p ≤ fuel →
        normalizeBody args fuel args.outPath c = ret (.inr { result := .ok, dst := dst })) :
      RoundOf args p side output c .stop
  | stuck (hbody : ∀ fuel, enoughFuel args p ≤ fuel →
        normalizeBody args fuel args.outPath c = fault ∨
          normalizeBody args fuel args.outPath c = ret (.inl c)) :
      RoundOf args p side output c .stuck
  | copy {bytes rest : List UInt8} {behind : Bool} {next : Cursor}
      (hroom : output.length + bytes.length < args.outLen)
      (hnext : Tracks args p behind rest (output ++ bytes) next)
      (hbody : ∀ fuel, enoughFuel args p ≤ fuel →
        normalizeBody args fuel args.outPath c = ret (.inl next)) :
      RoundOf args p side output c (.act (.copy bytes) behind rest)
  | full {bytes rest : List UInt8} {behind : Bool}
      (hroom : args.outLen ≤ output.length + bytes.length)
      (hbody : ∀ fuel, enoughFuel args p ≤ fuel →
        normalizeBody args fuel args.outPath c = fault ∨
          ∃ dst, normalizeBody args fuel args.outPath c =
            ret (.inr { result := .err, dst := dst })) :
      RoundOf args p side output c (.act (.copy bytes) behind rest)
  | skip {rest : List UInt8} {behind : Bool} {next : Cursor}
      (hnext : Tracks args p behind rest output next)
      (hbody : ∀ fuel, enoughFuel args p ≤ fuel →
        normalizeBody args fuel args.outPath c = ret (.inl next)) :
      RoundOf args p side output c (.act .skip behind rest)
  | parent {rest : List UInt8} {behind : Bool} {next : Cursor} (hlen : 2 ≤ output.length)
      (hnext : Tracks args p behind rest (dropParent side output) next)
      (hbody : ∀ fuel, enoughFuel args p ≤ fuel →
        normalizeBody args fuel args.outPath c = ret (.inl next)) :
      RoundOf args p side output c (.act .parent behind rest)
  | invalid {rest : List UInt8} {behind : Bool} (hlen : output.length ≤ 1)
      (hbody : ∀ fuel, enoughFuel args p ≤ fuel →
        normalizeBody args fuel args.outPath c =
          ret (.inr { result := .invalidPath, dst := c.dst })) :
      RoundOf args p side output c (.act .parent behind rest)

private theorem round_write (hl : Layout args p side) (h : Tracks args p behind rest output c)
    {b : UInt8} {more : List UInt8} (skipped : List UInt8) {behind : Bool} {next : List UInt8}
    (hrest : rest = skipped ++ (b :: more) ++ next)
    (hbehind : behind = ((b :: more).getLast? == some pathSeparator))
    (hlen : (libdUtf8CharLen b).toNat = (b :: more).length)
    (hslash : output = [] → b = pathSeparator)
    (hbody : ∀ fuel, enoughFuel args p ≤ fuel → normalizeBody args fuel args.outPath c =
      normalizeWriteChar args c (c.scanPos + skipped.length)) :
    RoundOf args p side output c (.act (.copy (b :: more)) behind next) := by
  have hscan := h.scans
  rw [hrest] at hscan
  have hall := hscan.holds hl
  rw [List.append_assoc, Mem.holds_append, Mem.holds_append] at hall
  obtain ⟨-, hsrc, -⟩ := hall
  rcases Nat.lt_or_ge (output.length + (b :: more).length) args.outLen with hroom | hroom
  · obtain ⟨after, hwrite, hpos, hwritten⟩ := h.written.writeChar hl hsrc hlen hroom
    refine .copy hroom ⟨?_, hwritten, ?_⟩ fun fuel hfuel => (hbody fuel hfuel).trans hwrite
    · have hadvance := hscan.advance _ (by simp)
      rw [List.getLast?_append_of_ne_nil _ (List.cons_ne_nil _ _), ← hbehind, List.length_append,
        ← Nat.add_assoc, ← hpos] at hadvance
      exact hadvance
    · have hhead := h.slash
      cases output with
      | nil => simp [hslash rfl]
      | cons x output => simpa using hhead
  · refine .full hroom fun fuel hfuel => ?_
    rw [hbody fuel hfuel]
    exact h.written.writeChar_full hl hsrc hlen hroom

private theorem Tracks.output_head (h : Tracks args p behind (dot :: rest) output c) :
    output.head? = some pathSeparator := by
  have hhead := h.slash
  cases output with
  | nil => simp [dot, pathSeparator] at hhead
  | cons x output => simpa using hhead

private theorem normalizeSwitch_dot (hl : Layout args p side)
    (h : Tracks args p behind (dot :: rest) output c) (fuel start : Nat) :
    normalizeSwitch args fuel start c dot =
      if behind && endsHere rest then ret (.continueLoop { c with scanPos := c.scanPos + 2 })
      else if behind && dotsHere rest then
        if c.writePos == start || c.writePos - 1 == start then ret .invalidPath
        else do
          let pathStart := platformFilepathEndOfPrefix args.inputPath
          let writePos ← loop (dropNameBody c.dst pathStart) fuel (c.writePos - 1)
          ret (.continueLoop { c with writePos := writePos, scanPos := c.scanPos + 3 })
      else ret (.writeChar c.scanPos) := by
  have hrelative := foundRelativeRef_spec hl h.scans (by decide)
  have hparent := foundParentRef_spec hl h.scans (by decide)
  simp only [normalizeSwitch, hrelative, hparent, ret_bind]
  simp [dot, pathSeparator]

theorem Tracks.body_separator (hl : Layout args p side)
    (h : Tracks args p behind (pathSeparator :: rest) output c) {fuel : Nat}
    (hfuel : enoughFuel args p ≤ fuel) :
    normalizeBody args fuel args.outPath c =
      normalizeWriteChar args c (c.scanPos + (rest.takeWhile fun x => x == pathSeparator).length) := by
  obtain ⟨q, hq, -⟩ := h.scans.tail hl (by decide)
  obtain ⟨hbyte, htail⟩ := Mem.holds_cons.mp (h.scans.holds hl)
  apply normalizeBody_write hbyte (by decide)
  have hlen : q.length < fuel := by
    obtain ⟨done, hdone, -, -⟩ := h.scans.split
    have hlen := congrArg List.length hdone
    unfold enoughFuel at hfuel
    rw [hq] at hlen
    simp only [List.length_append, List.length_cons, inputText] at hlen hfuel
    omega
  rw [hq] at htail
  simp only [normalizeSwitch, beq_self_eq_true, if_true, skipSeparators_spec htail hlen, ret_bind]
  rw [hq, takeWhile_inputText]

theorem replicate_separators (rest : List UInt8) :
    pathSeparator :: rest = (rest.takeWhile fun x => x == pathSeparator) ++ [pathSeparator] ++
      rest.dropWhile fun x => x == pathSeparator := by
  have hrun : (rest.takeWhile fun x => x == pathSeparator) = List.replicate
      (rest.takeWhile fun x => x == pathSeparator).length pathSeparator := by
    apply List.eq_replicate_of_mem
    intro x hx
    simpa using List.mem_takeWhile_imp hx
  rw [hrun, ← List.replicate_succ', List.replicate_succ, List.cons_append, ← hrun,
    List.takeWhile_append_dropWhile]

private theorem Tracks.round_separator (hl : Layout args p side)
    (h : Tracks args p behind (pathSeparator :: rest) output c) :
    RoundOf args p side output c
      (.act (.copy [pathSeparator]) true (rest.dropWhile fun x => x == pathSeparator)) :=
  round_write hl h _ (replicate_separators rest) rfl (by decide) (fun _ => rfl)
    fun _ hfuel => h.body_separator hl hfuel

private theorem Tracks.round_relative (hl : Layout args p side)
    (h : Tracks args p behind (dot :: rest) output c) (hbehind : behind = true)
    (hends : endsHere rest = true) :
    RoundOf args p side output c
      (.act .skip (rest.head? == some pathSeparator) rest.tail) := by
  have hbyte := (Mem.holds_cons.mp (h.scans.holds hl)).1
  have hswitch := fun fuel start => normalizeSwitch_dot hl h fuel start
  simp only [hbehind, hends, Bool.and_self, if_true] at hswitch
  cases rest with
  | nil => simp [endsHere] at hends
  | cons one rest =>
    have hwritten : Written args output { c with scanPos := c.scanPos + 2 } :=
      ⟨h.written.write, h.written.holds, h.written.buffer, h.written.room⟩
    have hslash : (output ++ rest).head? = some pathSeparator := by
      rw [List.head?_append, h.output_head]
      rfl
    have hnext : Tracks args p ((one :: rest).head? == some pathSeparator) rest output
        { c with scanPos := c.scanPos + 2 } :=
      ⟨h.scans.advance [dot, one] (by simp), hwritten, hslash⟩
    exact .skip hnext fun fuel _ => normalizeBody_continue hbyte (by decide) (hswitch fuel _)

private theorem Tracks.round_parent (hl : Layout args p side)
    (h : Tracks args p behind (dot :: rest) output c) (hbehind : behind = true)
    (hends : endsHere rest = false) (hdots : dotsHere rest = true) :
    RoundOf args p side output c
      (.act .parent (rest.tail.head? == some pathSeparator) rest.tail.tail) := by
  have hbyte := (Mem.holds_cons.mp (h.scans.holds hl)).1
  have hswitch := fun fuel start => normalizeSwitch_dot hl h fuel start
  have hwrite := h.written.write
  have hhead := h.output_head
  simp only [hbehind, hends, hdots, Bool.and_self, Bool.and_false, if_true, Bool.false_eq_true,
    if_false] at hswitch
  rcases Nat.lt_or_ge 1 output.length with hlen | hlen
  · cases rest with
    | nil => simp [dotsHere] at hdots
    | cons one rest =>
      cases rest with
      | nil => simp [dotsHere, endsHere] at hdots
      | cons two rest =>
        have hdrop := fun fuel (hfuel : enoughFuel args p ≤ fuel) =>
          h.written.dropParent hl hhead hlen (c.scanPos + 3) hfuel
        have hslash : (dropParent side output ++ rest).head? = some pathSeparator := by
          rw [List.head?_append, dropParent_head side hhead hlen]
          rfl
        have hnext : Tracks args p ((two :: rest).head? == some pathSeparator) rest
            (dropParent side output)
            { c with writePos := args.outPath + (dropParent side output).length,
                     scanPos := c.scanPos + 3 } :=
          ⟨h.scans.advance [dot, one, two] (by simp), (hdrop _ le_rfl).2, hslash⟩
        refine .parent hlen hnext fun fuel hfuel =>
          normalizeBody_continue hbyte (by decide) ((hswitch fuel _).trans ?_)
        rw [if_neg]
        · simp only [(hdrop fuel hfuel).1, ret_bind]
        · simp only [Bool.or_eq_true, beq_iff_eq]
          omega
  · refine .invalid hlen fun fuel _ => normalizeBody_invalid hbyte (by decide) ?_
    rw [hswitch, if_pos]
    simp only [Bool.or_eq_true, beq_iff_eq]
    omega

private theorem Tracks.round_stuck (hl : Layout args p side) {b : UInt8}
    (h : Tracks args p behind (b :: rest) output c) (hb : b ≠ nullTerminator)
    (hs : b ≠ pathSeparator) (hd : b ≠ dot)
    (hlen : (libdUtf8CharLen b).toNat = 0 ∨ rest.length + 1 < (libdUtf8CharLen b).toNat) :
    RoundOf args p side output c .stuck := by
  have hbyte := (Mem.holds_cons.mp (h.scans.holds hl)).1
  have hroom := h.written.room
  have hend := hl.outEnd
  have hpos := hl.outPath
  refine .stuck fun fuel _ => ?_
  have hswitch : normalizeSwitch args fuel args.outPath c b = ret (.writeChar c.scanPos) := by
    simp [normalizeSwitch, hs, hd]
  rw [normalizeBody_write hbyte hb hswitch, normalizeWriteChar, platformWriteCharTo_eq hbyte]
  rcases hlen with hzero | hshort
  · right
    have hdiff : ptrDiff c.writePos args.outPath = output.length := by
      rw [h.written.write, ptrDiff_eq (by omega)]
    simp only [hzero, Mem.copy, ret_bind, Nat.add_zero, hdiff]
    rw [if_neg (by omega)]
  · left
    rcases Mem.copy_cases c.dst c.writePos args.src c.scanPos (libdUtf8CharLen b).toNat with
      ⟨bytes, hbytes, hholds, -⟩ | hfault
    · -- the copy would read the byte behind the input
      have hlt : (b :: rest).length < bytes.length := by
        rw [hbytes]
        exact hshort
      have hin := hholds _ _ (List.getElem?_eq_getElem hlt)
      rw [h.scans.outside hl] at hin
      contradiction
    · rw [hfault]
      rfl

theorem Tracks.body_character (hl : Layout args p side) {b : UInt8} {more : List UInt8}
    (h : Tracks args p behind (b :: (more ++ rest)) output c) (hb : b ≠ nullTerminator)
    (hs : b ≠ pathSeparator) (hdot : b = dot → behind = true →
      endsHere (more ++ rest) = false ∧ dotsHere (more ++ rest) = false) (fuel : Nat) :
    normalizeBody args fuel args.outPath c = normalizeWriteChar args c c.scanPos := by
  apply normalizeBody_write (Mem.holds_cons.mp (h.scans.holds hl)).1 hb
  by_cases hd : b = dot
  · subst hd
    rw [normalizeSwitch_dot hl h]
    cases behind with
    | false => simp
    | true =>
      obtain ⟨hends, hdots⟩ := hdot rfl rfl
      simp [hends, hdots]
  · simp [normalizeSwitch, hs, hd]

private theorem Tracks.round_character (hl : Layout args p side) {b : UInt8} {more : List UInt8}
    (h : Tracks args p behind (b :: (more ++ rest)) output c) (hb : b ≠ nullTerminator)
    (hs : b ≠ pathSeparator) (hlen : (libdUtf8CharLen b).toNat = (b :: more).length)
    (hdot : b = dot → behind = true →
      endsHere (more ++ rest) = false ∧ dotsHere (more ++ rest) = false) :
    RoundOf args p side output c
      (.act (.copy (b :: more)) ((b :: more).getLast? == some pathSeparator) rest) := by
  refine round_write hl h [] (by simp) rfl hlen ?_ fun fuel _ => h.body_character hl hb hs hdot fuel
  rintro rfl
  simpa using h.slash

theorem Tracks.round (hl : Layout args p side) (h : Tracks args p behind rest output c) :
    RoundOf args p side output c (readNext behind rest) := by
  have hcase := readNext_cases behind rest
  generalize readNext behind rest = step at hcase
  cases hcase with
  | empty =>
    refine .stuck fun fuel _ => Or.inl ?_
    have hout := h.scans.outside hl
    rw [List.length_nil, Nat.add_zero] at hout
    simp [normalizeBody, Mem.load, hout]
  | stop rest =>
    have hbyte := (Mem.holds_cons.mp (h.scans.holds hl)).1
    obtain ⟨dst, hstore, hholds⟩ := h.written.terminate
    refine .stop hholds fun fuel _ => ?_
    simp only [normalizeBody, Mem.load_eq_ret.mpr hbyte, ret_bind, beq_self_eq_true, if_true, hstore]
  | separator rest => exact h.round_separator hl
  | relative rest hbehind hends => exact h.round_relative hl hbehind hends
  | parent rest hbehind hends hdots => exact h.round_parent hl hbehind hends hdots
  | stuck b rest hb hs hd hlen => exact h.round_stuck hl hb hs hd hlen
  | character b more rest hb hs hlen hdot => exact h.round_character hl hb hs hlen hdot

/-- The answer of the function for an output, or for the invalid path. -/
def Answers (args : NormalizeArgs) (r : NormalizeReturn) : Option (List UInt8) → Prop
  | none => r.result = .invalidPath
  | some final => r.result = .ok ∧ r.dst.Holds args.outPath (final ++ [nullTerminator])

/-- A buffer with room for everything the marks copy gets the rewritten output. -/
private theorem Tracks.runs (hl : Layout args p side) {marks : List Mark}
    (h : Tracks args p behind rest output c) (hmarks : readMarks behind rest = some marks)
    (hroom : output.length + copied marks < args.outLen) :
    ∃ r, Answers args r (rewriteOutput side marks output) ∧
      ∀ fuel, enoughFuel args p ≤ fuel → ∀ rounds, rest.length < rounds →
        loop (normalizeBody args fuel args.outPath) rounds c = ret r := by
  induction hn : rest.length using Nat.strong_induction_on generalizing behind rest output c marks with
  | _ n ih =>
    have hround := h.round hl
    generalize hstep : readNext behind rest = step at hround
    -- a round that goes on with a shorter rest
    have hgo : ∀ {behind' : Bool} {rest' output' : List UInt8} {next : Cursor} {marks' : List Mark},
        rest'.length < rest.length → Tracks args p behind' rest' output' next →
        readMarks behind' rest' = some marks' → output'.length + copied marks' < args.outLen →
        (∀ fuel, enoughFuel args p ≤ fuel →
          normalizeBody args fuel args.outPath c = ret (.inl next)) →
        ∃ r, Answers args r (rewriteOutput side marks' output') ∧
          ∀ fuel, enoughFuel args p ≤ fuel → ∀ rounds, n < rounds →
            loop (normalizeBody args fuel args.outPath) rounds c = ret r := by
      intro behind' rest' output' next marks' hlt hnext hmarks' hroom' hbody
      obtain ⟨r, hanswer, hloop⟩ := ih rest'.length (by omega) hnext hmarks' hroom' rfl
      refine ⟨r, hanswer, fun fuel hfuel rounds hrounds => ?_⟩
      rcases Nat.exists_eq_succ_of_ne_zero (by omega : rounds ≠ 0) with ⟨rounds, rfl⟩
      rw [loop_next rounds (hbody fuel hfuel)]
      exact hloop fuel hfuel rounds (by omega)
    -- a round that answers
    have hdone : ∀ {r : NormalizeReturn},
        (∀ fuel, enoughFuel args p ≤ fuel →
          normalizeBody args fuel args.outPath c = ret (.inr r)) →
        ∀ fuel, enoughFuel args p ≤ fuel → ∀ rounds, n < rounds →
          loop (normalizeBody args fuel args.outPath) rounds c = ret r := by
      intro r hbody fuel hfuel rounds hrounds
      rcases Nat.exists_eq_succ_of_ne_zero (by omega : rounds ≠ 0) with ⟨rounds, rfl⟩
      exact loop_done rounds (hbody fuel hfuel)
    cases hround with
    | stop hholds hbody =>
      rw [readMarks_stop hstep] at hmarks
      cases hmarks
      exact ⟨_, ⟨rfl, hholds⟩, hdone hbody⟩
    | stuck hbody =>
      rw [readMarks_stuck hstep] at hmarks
      cases hmarks
    | @copy bytes rest' behind' next _ hnext hbody =>
      rw [readMarks_act hstep] at hmarks
      rcases Option.map_eq_some_iff.mp hmarks with ⟨marks', hmarks', rfl⟩
      rw [Act.marks, copied_bytes] at hroom
      rw [Act.marks, rewriteOutput_bytes]
      exact hgo (readNext_length hstep) hnext hmarks' (by rw [List.length_append]; omega) hbody
    | @full bytes rest' behind' hfull _ =>
      rw [readMarks_act hstep] at hmarks
      rcases Option.map_eq_some_iff.mp hmarks with ⟨marks', -, rfl⟩
      rw [Act.marks, copied_bytes] at hroom
      omega
    | @skip rest' behind' next hnext hbody =>
      rw [readMarks_act hstep] at hmarks
      rcases Option.map_eq_some_iff.mp hmarks with ⟨marks', hmarks', rfl⟩
      exact hgo (readNext_length hstep) hnext hmarks' hroom hbody
    | @parent rest' behind' next hlen hnext hbody =>
      rw [readMarks_act hstep] at hmarks
      rcases Option.map_eq_some_iff.mp hmarks with ⟨marks', hmarks', rfl⟩
      have hshort := dropParent_length side output
      change output.length + copied (Mark.parent :: marks') < _ at hroom
      change ∃ r, Answers args r (rewriteOutput side (Mark.parent :: marks') output) ∧ _
      rw [copied_parent] at hroom
      rw [rewriteOutput, if_neg (by omega)]
      exact hgo (readNext_length hstep) hnext hmarks' (by omega) hbody
    | @invalid rest' behind' hlen hbody =>
      rw [readMarks_act hstep] at hmarks
      rcases Option.map_eq_some_iff.mp hmarks with ⟨marks', -, rfl⟩
      refine ⟨_, ?_, hdone hbody⟩
      change Answers args _ (rewriteOutput side (Mark.parent :: marks') output)
      rw [rewriteOutput, if_pos hlen]
      rfl

/-- A run that ends with `libd_ok` has read all marks and has written the rewritten output. -/
private theorem Tracks.sound (hl : Layout args p side) {fuel rounds : Nat}
    (hfuel : enoughFuel args p ≤ fuel) {dst : Mem} (h : Tracks args p behind rest output c)
    (hrun : loop (normalizeBody args fuel args.outPath) rounds c =
      ret { result := .ok, dst := dst }) :
    ∃ marks final, readMarks behind rest = some marks ∧
      rewriteOutput side marks output = some final ∧
      dst.Holds args.outPath (final ++ [nullTerminator]) := by
  induction rounds generalizing behind rest output c with
  | zero => cases hrun
  | succ rounds ih =>
    have hround := h.round hl
    generalize hstep : readNext behind rest = step at hround
    cases hround with
    | stop hholds hbody =>
      rw [loop_done rounds (hbody fuel hfuel)] at hrun
      cases hrun
      exact ⟨[], output, readMarks_stop hstep, rfl, hholds⟩
    | stuck hbody =>
      rcases hbody fuel hfuel with hbody | hbody
      · rw [loop_fault rounds hbody] at hrun
        cases hrun
      · rw [loop_stuck hbody] at hrun
        cases hrun
    | @copy bytes rest' behind' next _ hnext hbody =>
      rw [loop_next rounds (hbody fuel hfuel)] at hrun
      obtain ⟨marks, final, hmarks, hfinal, hholds⟩ := ih hnext hrun
      refine ⟨(Act.copy bytes).marks ++ marks, final, ?_, ?_, hholds⟩
      · rw [readMarks_act hstep, hmarks]
        rfl
      · rw [Act.marks, rewriteOutput_bytes]
        exact hfinal
    | @full bytes rest' behind' _ hbody =>
      rcases hbody fuel hfuel with hbody | ⟨dst', hbody⟩
      · rw [loop_fault rounds hbody] at hrun
        cases hrun
      · rw [loop_done rounds hbody] at hrun
        cases hrun
    | @skip rest' behind' next hnext hbody =>
      rw [loop_next rounds (hbody fuel hfuel)] at hrun
      obtain ⟨marks, final, hmarks, hfinal, hholds⟩ := ih hnext hrun
      refine ⟨marks, final, ?_, hfinal, hholds⟩
      rw [readMarks_act hstep, hmarks]
      rfl
    | @parent rest' behind' next hlen hnext hbody =>
      rw [loop_next rounds (hbody fuel hfuel)] at hrun
      obtain ⟨marks, final, hmarks, hfinal, hholds⟩ := ih hnext hrun
      refine ⟨Mark.parent :: marks, final, ?_, ?_, hholds⟩
      · rw [readMarks_act hstep, hmarks]
        rfl
      · rw [rewriteOutput, if_neg (by omega)]
        exact hfinal
    | @invalid rest' behind' hlen hbody =>
      rw [loop_done rounds (hbody fuel hfuel)] at hrun
      cases hrun

end Round

section Call

variable {args : NormalizeArgs} {p : List UInt8} {side : Side} {dst : Mem}

theorem Tracks.start (hl : Layout args p side) (hbuffer : IsBuffer dst args.outPath args.outLen)
    (hlen : 0 < args.outLen) :
    Tracks args p true (inputText p) [] (startCursor args dst) := by
  refine ⟨⟨[], rfl, rfl, rfl⟩, Written.start hbuffer hlen, ?_⟩
  have hstarts := hl.starts
  cases p with
  | nil => simp at hstarts
  | cons b p => exact hstarts

theorem Layout.enters (hl : Layout args p side) (hlen : 0 < args.outLen) : Enters args := by
  refine ⟨hl.outPath, hlen, hl.inputPath, pathSeparator, ?_, by decide⟩
  have hstarts := hl.starts
  cases p with
  | nil => simp at hstarts
  | cons b p =>
    simp only [List.head?_cons, Option.some.injEq] at hstarts
    rw [hl.src, ← hstarts]
    exact (Mem.holds_cons.mp (Mem.holds_ofBytes args.inputPath (inputText (b :: p)))).1

theorem normalize_converges (hl : Layout args p side)
    (hbuffer : IsBuffer dst args.outPath args.outLen) {marks : List Mark}
    (hmarks : readMarks true (inputText p) = some marks) (hroom : copied marks < args.outLen) :
    ∃ r, Converges (libdFilesystemFilepathNormalize args dst) r ∧
      Answers args r (rewriteOutput side marks []) := by
  have hstart := Tracks.start hl hbuffer (by omega)
  obtain ⟨r, hanswer, hloop⟩ := hstart.runs hl hmarks (by simpa using hroom)
  refine ⟨r, ⟨enoughFuel args p, fun fuel hfuel => ?_⟩, hanswer⟩
  have hpos : (inputText p).length < fuel := by
    unfold enoughFuel at hfuel
    omega
  rw [(hl.enters (by omega)).normalize_eq dst (by omega)]
  exact hloop fuel hfuel fuel hpos

theorem normalize_ok_sound (hl : Layout args p side)
    (hbuffer : IsBuffer dst args.outPath args.outLen) {after : Mem}
    (hok : Converges (libdFilesystemFilepathNormalize args dst) { result := .ok, dst := after }) :
    ∃ marks final, readMarks true (inputText p) = some marks ∧
      rewriteOutput side marks [] = some final ∧
      after.Holds args.outPath (final ++ [nullTerminator]) := by
  obtain ⟨enough, hrun⟩ := hok
  have hfuel := hrun (max enough (enoughFuel args p)) (le_max_left _ _)
  have hpos : 0 < enoughFuel args p := Nat.succ_pos _
  have hmax := le_max_right enough (enoughFuel args p)
  rcases Nat.eq_zero_or_pos args.outLen with hzero | hlen
  · simp [libdFilesystemFilepathNormalize, hzero] at hfuel
  · rw [(hl.enters hlen).normalize_eq dst (by omega)] at hfuel
    exact (Tracks.start hl hbuffer hlen).sound hl hmax hfuel

end Call

end Libdane
