import Libdane.Filesystem.PathReading
import Libdane.Filesystem.PathRounds

/-!
# Cursors that track a reading

A cursor tracks a rest of the input and an output: it stands at the rest, and the output lies in the
buffer behind it. What the function reads and writes on the way is told by the rest and the output.
-/

namespace Libdane

open ByteMachine ByteMachine.Exec

def Side.Holds (args : NormalizeArgs) : Side → Prop
  | .above => args.inputPath < args.outPath
  | .below => args.outPath + args.outLen ≤ args.inputPath

/-- The function is called on a path that begins with a separator, and may read its bytes and the
two NUL bytes behind them. -/
structure Layout (args : NormalizeArgs) (p : List UInt8) (side : Side) : Prop where
  src : args.src = Mem.ofBytes args.inputPath (inputText p)
  noNul : nullTerminator ∉ p
  starts : p.head? = some pathSeparator
  inputPath : 0 < args.inputPath
  outPath : 0 < args.outPath
  outEnd : args.outPath + args.outLen ≤ 2 ^ 64
  side : side.Holds args

/-- A memory that holds `outLen` bytes at `outPath`. -/
def IsBuffer (dst : Mem) (outPath outLen : Nat) : Prop :=
  ∀ x, (dst x).isSome = decide (outPath ≤ x ∧ x < outPath + outLen)

/-- A call whose input memory is the path and its two NUL bytes. -/
def callOn (p : List UInt8) (inputPath outPath outLen : Nat) : NormalizeArgs :=
  { src := Mem.ofBytes inputPath (inputText p), outPath := outPath, outLen := outLen,
    inputPath := inputPath }

def zeroBuffer (outPath outLen : Nat) : Mem := Mem.ofBytes outPath (List.replicate outLen 0)

theorem isBuffer_zeroBuffer (outPath outLen : Nat) :
    IsBuffer (zeroBuffer outPath outLen) outPath outLen := by
  intro x
  rw [zeroBuffer, Mem.ofBytes]
  by_cases hx : outPath ≤ x
  · have hlt : x - outPath < outLen ↔ x < outPath + outLen := by omega
    rw [if_pos hx, List.getElem?_replicate]
    by_cases hin : x < outPath + outLen <;> simp [hx, hlt, hin]
  · simp [hx]

/-- The output written so far. -/
structure Written (args : NormalizeArgs) (output : List UInt8) (c : Cursor) : Prop where
  write : c.writePos = args.outPath + output.length
  holds : c.dst.Holds args.outPath output
  buffer : IsBuffer c.dst args.outPath args.outLen
  room : output.length < args.outLen

/-- The scan position has a rest of the input in front of it, and possibly a separator behind. -/
structure Scans (args : NormalizeArgs) (p : List UInt8) (behind : Bool) (rest : List UInt8)
    (scanPos : Nat) : Prop where
  split : ∃ done, done ++ rest = inputText p ∧ scanPos = args.inputPath + done.length ∧
    behind = (done.isEmpty || done.getLast? == some pathSeparator)

structure Tracks (args : NormalizeArgs) (p : List UInt8) (behind : Bool)
    (rest output : List UInt8) (c : Cursor) : Prop where
  scans : Scans args p behind rest c.scanPos
  written : Written args output c
  slash : (output ++ rest).head? = some pathSeparator

/-- Fuel for the inner loops. -/
def enoughFuel (args : NormalizeArgs) (p : List UInt8) : Nat :=
  (inputText p).length + args.outLen + 1

section Scan

variable {args : NormalizeArgs} {p : List UInt8} {side : Side} {behind : Bool}
  {rest : List UInt8} {scanPos : Nat}

theorem Scans.holds (hl : Layout args p side) (h : Scans args p behind rest scanPos) :
    args.src.Holds scanPos rest := by
  obtain ⟨done, hdone, hpos, -⟩ := h.split
  have hall := Mem.holds_ofBytes args.inputPath (inputText p)
  rw [← hdone, Mem.holds_append, hdone, ← hl.src, ← hpos] at hall
  exact hall.2

theorem Scans.outside (hl : Layout args p side) (h : Scans args p behind rest scanPos) :
    args.src (scanPos + rest.length) = none := by
  obtain ⟨done, hdone, hpos, -⟩ := h.split
  have hlen := congrArg List.length hdone
  rw [List.length_append] at hlen
  rw [hl.src, hpos]
  simp only [Mem.ofBytes, if_pos (show args.inputPath ≤ args.inputPath + done.length + rest.length by omega)]
  apply List.getElem?_eq_none
  omega

private theorem Scans.behindSatisfied (hl : Layout args p side)
    (h : Scans args p behind rest scanPos) :
    behindSatisfied args.src args.inputPath scanPos = ret behind := by
  obtain ⟨done, hdone, hpos, hbehind⟩ := h.split
  unfold Libdane.behindSatisfied
  induction done using List.reverseRecOn with
  | nil => simp [hpos, hbehind]
  | append_singleton done b _ =>
    have hall := Mem.holds_ofBytes args.inputPath (inputText p)
    rw [← hdone, List.append_assoc, Mem.holds_append, List.singleton_append, Mem.holds_cons,
      ← List.singleton_append, ← List.append_assoc, hdone, ← hl.src] at hall
    have hne : scanPos ≠ args.inputPath := by
      rw [hpos, List.length_append, List.length_singleton]
      omega
    have hbefore : args.src.loadBefore scanPos = ret b := by
      refine Mem.loadBefore_eq_ret.mpr ⟨_, ?_, hall.2.1⟩
      rw [hpos, List.length_append, List.length_singleton, Nat.add_assoc]
    simp only [beq_iff_eq, hne, if_false, hbefore, ret_bind, hbehind]
    simp

theorem Scans.tail (hl : Layout args p side) {b : UInt8}
    (h : Scans args p behind (b :: rest) scanPos) (hb : b ≠ nullTerminator) :
    ∃ q, rest = inputText q ∧ nullTerminator ∉ q := by
  obtain ⟨done, hdone, -, -⟩ := h.split
  rcases List.append_eq_append_iff.mp hdone with ⟨q, hp, hrest⟩ | ⟨q, hd, hnul⟩
  · cases q with
    | nil =>
      simp only [List.nil_append, List.cons.injEq] at hrest
      exact absurd hrest.1 hb
    | cons x q =>
      simp only [List.cons_append, List.cons.injEq] at hrest
      refine ⟨q, hrest.2, fun hmem => hl.noNul ?_⟩
      rw [hp]
      simp [hmem]
  · have hmem : b ∈ [nullTerminator, nullTerminator] := by
      rw [hnul]
      simp
    simp only [List.mem_cons, List.not_mem_nil, or_false, or_self] at hmem
    exact absurd hmem hb

theorem Scans.advance (bytes : List UInt8) (h : Scans args p behind (bytes ++ rest) scanPos)
    (hne : bytes ≠ []) :
    Scans args p (bytes.getLast? == some pathSeparator) rest (scanPos + bytes.length) := by
  obtain ⟨done, hdone, hpos, -⟩ := h.split
  refine ⟨done ++ bytes, by simpa using hdone, ?_, ?_⟩
  · rw [hpos, List.length_append, Nat.add_assoc]
  · rw [List.getLast?_append_of_ne_nil _ hne]
    simp [hne]

theorem skipSeparators_spec {src : Mem} {rest : List UInt8} {scanPos fuel : Nat}
    (hsrc : src.Holds (scanPos + 1) (inputText rest)) (hfuel : rest.length < fuel) :
    loop (skipSeparatorsBody src) fuel scanPos =
      ret (scanPos + (rest.takeWhile fun x => x == pathSeparator).length) := by
  induction rest generalizing scanPos fuel with
  | nil =>
    cases fuel with
    | zero => omega
    | succ fuel =>
      apply loop_done
      obtain ⟨hone, -⟩ := Mem.holds_cons.mp hsrc
      simp [skipSeparatorsBody, Mem.load_eq_ret.mpr hone, nullTerminator, pathSeparator]
  | cons b rest ih =>
    cases fuel with
    | zero => omega
    | succ fuel =>
      obtain ⟨hone, htail⟩ := Mem.holds_cons.mp hsrc
      by_cases hb : b = pathSeparator
      · subst hb
        have hbody : skipSeparatorsBody src scanPos = ret (.inl (scanPos + 1)) := by
          simp [skipSeparatorsBody, Mem.load_eq_ret.mpr hone]
        rw [loop_next fuel hbody, ih htail (by simpa using hfuel)]
        simp [Nat.add_assoc, Nat.add_comm 1]
      · have hbody : skipSeparatorsBody src scanPos = ret (.inr scanPos) := by
          simp [skipSeparatorsBody, Mem.load_eq_ret.mpr hone, hb]
        rw [loop_done fuel hbody]
        simp [hb]

theorem foundRelativeRef_spec (hl : Layout args p side) {b : UInt8}
    (h : Scans args p behind (b :: rest) scanPos) (hb : b ≠ nullTerminator) :
    foundRelativeRef args.src args.inputPath scanPos = ret (behind && endsHere rest) := by
  rcases h.tail hl hb with ⟨q, rfl, -⟩
  obtain ⟨-, htail⟩ := Mem.holds_cons.mp (h.holds hl)
  cases q with
  | nil =>
    obtain ⟨hone, -⟩ := Mem.holds_cons.mp htail
    simp [foundRelativeRef, h.behindSatisfied hl, Mem.load_eq_ret.mpr hone, endsHere, inputText]
  | cons x q =>
    obtain ⟨hone, -⟩ := Mem.holds_cons.mp htail
    simp [foundRelativeRef, h.behindSatisfied hl, Mem.load_eq_ret.mpr hone, endsHere, inputText]

theorem foundParentRef_spec (hl : Layout args p side) {b : UInt8}
    (h : Scans args p behind (b :: rest) scanPos) (hb : b ≠ nullTerminator) :
    foundParentRef args.src args.inputPath scanPos = ret (behind && dotsHere rest) := by
  rcases h.tail hl hb with ⟨q, rfl, hq⟩
  obtain ⟨-, htail⟩ := Mem.holds_cons.mp (h.holds hl)
  cases q with
  | nil =>
    obtain ⟨hone, -⟩ := Mem.holds_cons.mp htail
    simp [foundParentRef, Mem.load_eq_ret.mpr hone, dotsHere, inputText, nullTerminator, dot]
  | cons x q =>
    obtain ⟨hone, htail⟩ := Mem.holds_cons.mp htail
    have hx : x ≠ nullTerminator := fun he => hq (by simp [he])
    cases q with
    | nil =>
      obtain ⟨htwo, -⟩ := Mem.holds_cons.mp htail
      simp [foundParentRef, h.behindSatisfied hl, Mem.load_eq_ret.mpr hone, Mem.load_eq_ret.mpr htwo,
        dotsHere, endsHere, inputText, hx]
    | cons y q =>
      obtain ⟨htwo, -⟩ := Mem.holds_cons.mp htail
      simp [foundParentRef, h.behindSatisfied hl, Mem.load_eq_ret.mpr hone, Mem.load_eq_ret.mpr htwo,
        dotsHere, endsHere, inputText, hx, Bool.and_assoc]

end Scan

section Write

variable {args : NormalizeArgs} {p : List UInt8} {side : Side} {output : List UInt8} {c : Cursor}

theorem ptrDiff_eq {start n : Nat} (hn : n < 2 ^ 64) : ptrDiff (start + n) start = n := by
  unfold ptrDiff
  omega

theorem Written.start {dst : Mem} {scanPos : Nat} (hbuffer : IsBuffer dst args.outPath args.outLen)
    (hlen : 0 < args.outLen) :
    Written args [] { dst := dst, writePos := args.outPath, scanPos := scanPos } :=
  ⟨rfl, Mem.holds_nil, hbuffer, hlen⟩

theorem Written.terminate (h : Written args output c) :
    ∃ dst, c.dst.store c.writePos nullTerminator = ret dst ∧
      dst.Holds args.outPath (output ++ [nullTerminator]) := by
  have hroom := h.room
  have hsome : (c.dst c.writePos).isSome := by
    rw [h.buffer, h.write]
    simpa using hroom
  refine ⟨_, Mem.store_eq_ret hsome, Mem.holds_append.mpr ⟨?_, Mem.holds_cons.mpr ⟨?_, Mem.holds_nil⟩⟩⟩
  · apply Mem.holds_of_agree h.holds
    intro x _ hx
    rw [Function.update_of_ne]
    rw [h.write]
    omega
  · rw [← h.write, Function.update_self]

private theorem Written.copyChar (h : Written args output c) {b : UInt8} {more : List UInt8}
    {scanPos : Nat} (hsrc : args.src.Holds scanPos (b :: more))
    (hlen : (libdUtf8CharLen b).toNat = (b :: more).length)
    (hroom : output.length + (b :: more).length ≤ args.outLen) :
    ∃ dst, platformWriteCharTo c.dst c.writePos args.src scanPos = ret (libdUtf8CharLen b, dst) ∧
      dst.Holds args.outPath (output ++ b :: more) ∧ IsBuffer dst args.outPath args.outLen := by
  have hwritable : c.dst.Writable c.writePos (b :: more).length := by
    intro k hk
    rw [h.buffer, h.write]
    simp only [decide_eq_true_eq]
    omega
  obtain ⟨dst, hcopy, hholds, hframe, hsome⟩ := Mem.copy_holds hsrc hwritable
  refine ⟨dst, ?_, Mem.holds_append.mpr ⟨?_, ?_⟩, ?_⟩
  · rw [platformWriteCharTo_eq (Mem.holds_cons.mp hsrc).1, hlen, hcopy, ret_bind]
  · apply Mem.holds_of_agree h.holds
    intro x _ hx
    apply hframe
    left
    rw [h.write]
    exact hx
  · rw [← h.write]
    exact hholds
  · intro x
    rw [hsome x, h.buffer x]

theorem Written.writeChar (hl : Layout args p side) (h : Written args output c) {b : UInt8}
    {more : List UInt8} {scanPos : Nat} (hsrc : args.src.Holds scanPos (b :: more))
    (hlen : (libdUtf8CharLen b).toNat = (b :: more).length)
    (hroom : output.length + (b :: more).length < args.outLen) :
    ∃ next, normalizeWriteChar args c scanPos = ret (.inl next) ∧
      next.scanPos = scanPos + (b :: more).length ∧ Written args (output ++ b :: more) next := by
  have hend := hl.outEnd
  obtain ⟨dst, hchar, hholds, hbuffer⟩ := h.copyChar hsrc hlen hroom.le
  have hwrite : c.writePos + (b :: more).length = args.outPath + (output ++ b :: more).length := by
    rw [h.write, List.length_append, Nat.add_assoc]
  refine ⟨{ dst := dst, writePos := c.writePos + (b :: more).length,
            scanPos := scanPos + (b :: more).length }, ?_, rfl, hwrite, hholds, hbuffer, ?_⟩
  · have hdiff : ptrDiff (c.writePos + (b :: more).length) args.outPath =
        output.length + (b :: more).length := by
      rw [h.write, Nat.add_assoc, ptrDiff_eq (by omega)]
    simp only [normalizeWriteChar, hchar, ret_bind, hlen, hdiff]
    rw [if_neg (by omega)]
  · rw [List.length_append]
    exact hroom

theorem Written.writeChar_last (hl : Layout args p side) (h : Written args output c) {b : UInt8}
    {more : List UInt8} {scanPos : Nat} (hsrc : args.src.Holds scanPos (b :: more))
    (hlen : (libdUtf8CharLen b).toNat = (b :: more).length)
    (hroom : output.length + (b :: more).length = args.outLen) :
    ∃ dst, normalizeWriteChar args c scanPos = ret (.inr { result := .err, dst := dst }) := by
  have hend := hl.outEnd
  have hpos := hl.outPath
  obtain ⟨dst, hchar, -, -⟩ := h.copyChar hsrc hlen hroom.le
  have hdiff : ptrDiff (c.writePos + (b :: more).length) args.outPath = args.outLen := by
    rw [h.write, Nat.add_assoc, hroom, ptrDiff_eq (by omega)]
  refine ⟨dst, ?_⟩
  simp only [normalizeWriteChar, hchar, ret_bind, hlen, hdiff]
  rw [if_pos le_rfl]

theorem writeChar_overrun {b : UInt8} {scanPos : Nat}
    (hbuffer : IsBuffer c.dst args.outPath args.outLen) (hbyte : args.src scanPos = some b)
    (hlen : 0 < (libdUtf8CharLen b).toNat)
    (hover : args.outPath + args.outLen < c.writePos + (libdUtf8CharLen b).toNat) :
    normalizeWriteChar args c scanPos = fault := by
  cases Mem.copy_cases c.dst c.writePos args.src scanPos (libdUtf8CharLen b).toNat with
  | inl hmoves =>
    obtain ⟨bytes, -, -, hwritable⟩ := hmoves
    have hlast := hwritable ((libdUtf8CharLen b).toNat - 1) (by omega)
    rw [hbuffer] at hlast
    simp only [decide_eq_true_eq] at hlast
    omega
  | inr hfault =>
    rw [normalizeWriteChar, platformWriteCharTo_eq hbyte, hfault]
    rfl

theorem Written.writeChar_full (hl : Layout args p side) (h : Written args output c) {b : UInt8}
    {more : List UInt8} {scanPos : Nat} (hsrc : args.src.Holds scanPos (b :: more))
    (hlen : (libdUtf8CharLen b).toNat = (b :: more).length)
    (hroom : args.outLen ≤ output.length + (b :: more).length) :
    normalizeWriteChar args c scanPos = fault ∨
      ∃ dst, normalizeWriteChar args c scanPos = ret (.inr { result := .err, dst := dst }) := by
  cases Nat.eq_or_lt_of_le hroom with
  | inl hlast => exact Or.inr (h.writeChar_last hl hsrc hlen hlast.symm)
  | inr hover =>
    left
    apply writeChar_overrun h.buffer (Mem.holds_cons.mp hsrc).1
    · rw [hlen]
      exact Nat.succ_pos _
    · rw [hlen, h.write]
      omega

private theorem dropName_above {dst : Mem} {start pathStart fuel : Nat} {output : List UInt8}
    (hdst : dst.Holds start output) (hslash : output.head? = some pathSeparator)
    (hside : pathStart < start) (hfuel : output.length < fuel) :
    loop (dropNameBody dst pathStart) fuel (start + output.length) =
      ret (start + (output.rdropWhile fun b => b != pathSeparator).length) := by
  induction output using List.reverseRecOn generalizing fuel with
  | nil => simp at hslash
  | append_singleton output b ih =>
    obtain ⟨hinit, hb⟩ := Mem.holds_append.mp hdst
    have hbefore : dst.loadBefore (start + (output ++ [b]).length) = ret b := by
      refine Mem.loadBefore_eq_ret.mpr ⟨start + output.length, ?_, (Mem.holds_cons.mp hb).1⟩
      rw [List.length_append, List.length_singleton, Nat.add_assoc]
    cases fuel with
    | zero => omega
    | succ fuel =>
      by_cases hsep : b = pathSeparator
      · have hbody : dropNameBody dst pathStart (start + (output ++ [b]).length) =
            ret (.inr (start + (output ++ [b]).length)) := by
          simp only [dropNameBody, hbefore, ret_bind]
          simp [hsep]
        rw [loop_done fuel hbody, List.rdropWhile_concat_neg _ _ _ (by simp [hsep])]
      · have hslash' : output.head? = some pathSeparator := by
          cases output with
          | nil =>
            simp only [List.nil_append, List.head?_cons, Option.some.injEq] at hslash
            exact absurd hslash hsep
          | cons x output => simpa using hslash
        have hbody : dropNameBody dst pathStart (start + (output ++ [b]).length) =
            ret (.inl (start + output.length)) := by
          simp only [dropNameBody, hbefore, ret_bind]
          rw [if_pos]
          · simp
          · simp only [bne_iff_ne, ne_eq, hsep, not_false_iff, decide_eq_true_eq, Bool.and_eq_true,
              true_and]
            omega
        rw [List.length_append, List.length_singleton] at hfuel
        rw [loop_next fuel hbody, ih hinit hslash' (by omega),
          List.rdropWhile_concat_pos _ _ _ (by simpa using hsep)]

private theorem dropName_below {dst : Mem} {start pathStart fuel : Nat} {output : List UInt8}
    (hdst : dst.Holds start output) (hne : output ≠ []) (hside : start + output.length ≤ pathStart)
    (hfuel : 0 < fuel) :
    loop (dropNameBody dst pathStart) fuel (start + output.length) = ret (start + output.length) := by
  rcases Nat.exists_eq_succ_of_ne_zero hfuel.ne' with ⟨fuel, rfl⟩
  induction output using List.reverseRecOn with
  | nil => exact absurd rfl hne
  | append_singleton output b _ =>
    have hb := (Mem.holds_append.mp hdst).2
    have hbefore : dst.loadBefore (start + (output ++ [b]).length) = ret b := by
      refine Mem.loadBefore_eq_ret.mpr ⟨start + output.length, ?_, (Mem.holds_cons.mp hb).1⟩
      rw [List.length_append, List.length_singleton, Nat.add_assoc]
    apply loop_done
    simp only [dropNameBody, hbefore, ret_bind]
    rw [if_neg]
    simp only [Bool.and_eq_true, decide_eq_true_eq, not_and, not_lt]
    exact fun _ => hside

theorem Written.dropParent (hl : Layout args p side) (h : Written args output c)
    (hslash : output.head? = some pathSeparator) (hlen : 2 ≤ output.length) (scanPos : Nat)
    {fuel : Nat} (hfuel : enoughFuel args p ≤ fuel) :
    loop (dropNameBody c.dst (platformFilepathEndOfPrefix args.inputPath)) fuel (c.writePos - 1) =
        ret (args.outPath + (Libdane.dropParent side output).length) ∧
      Written args (Libdane.dropParent side output)
        { c with writePos := args.outPath + (Libdane.dropParent side output).length,
                 scanPos := scanPos } := by
  have hroom := h.room
  have hsplit : output = output.dropLast ++ [output.getLast (List.ne_nil_of_length_pos (by omega))] :=
    (List.dropLast_concat_getLast _).symm
  have hholds : c.dst.Holds args.outPath output.dropLast := by
    have hall := h.holds
    rw [hsplit, Mem.holds_append] at hall
    exact hall.1
  have hlast : output.dropLast.length = output.length - 1 := List.length_dropLast
  have hpos : c.writePos - 1 = args.outPath + output.dropLast.length := by
    rw [h.write]
    omega
  unfold enoughFuel at hfuel
  refine ⟨?_, rfl, ?_, h.buffer, ?_⟩
  · rw [hpos]
    have hside := hl.side
    cases side with
    | above =>
      have hhead : output.dropLast.head? = some pathSeparator := by
        exact Libdane.dropParent_head .below hslash hlen
      exact dropName_above hholds hhead hside (by omega)
    | below =>
      apply dropName_below hholds (List.ne_nil_of_length_pos (by omega)) _ (by omega)
      change args.outPath + args.outLen ≤ args.inputPath at hside
      change _ ≤ args.inputPath
      omega
  · obtain ⟨tail, htail⟩ := dropParent_isPrefix side output
    rw [← htail, Mem.holds_append] at hholds
    exact hholds.1
  · exact (dropParent_length side output).trans_lt hroom

end Write

end Libdane
