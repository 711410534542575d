import Libdane.Filesystem.PathCapacity
import Libdane.Framework.LargerMemory

/-!
# A larger output buffer

The capacity is compared with the write position once in every round that copies, and nowhere else.
Two calls with different capacities go through the same states until the smaller one is full, and a
buffer of one byte more than the path is never full.
-/

namespace Libdane

open ByteMachine ByteMachine.Exec

/-- The same positions in a larger output memory. -/
structure Cursor.Extends (c large : Cursor) : Prop where
  writePos : large.writePos = c.writePos
  scanPos : large.scanPos = c.scanPos
  dst : c.dst.Extends large.dst

inductive SwitchExit.Extends : SwitchExit → SwitchExit → Prop where
  | writeChar (scanPos : Nat) : SwitchExit.Extends (.writeChar scanPos) (.writeChar scanPos)
  | continueLoop {c large : Cursor} (h : c.Extends large) :
      SwitchExit.Extends (.continueLoop c) (.continueLoop large)
  | invalidPath : SwitchExit.Extends .invalidPath .invalidPath

structure NormalizeReturn.Extends (r large : NormalizeReturn) : Prop where
  result : large.result = r.result
  dst : r.dst.Extends large.dst

section Memory

variable {args : NormalizeArgs} {c large : Cursor} {fuel start : Nat}

private theorem dropName_follows {small large : Mem} (h : small.Extends large)
    (pathStart fuel writePos : Nat) :
    Follows Eq (loop (dropNameBody small pathStart) fuel writePos)
      (loop (dropNameBody large pathStart) fuel writePos) := by
  apply Follows.loop (S := Eq) _ fuel rfl
  intro w w' hw
  subst hw
  apply (h.loadBefore w).bind
  intro before before' hbefore
  subst hbefore
  apply Follows.ret
  split
  · exact .inl rfl
  · exact .inr rfl

private theorem normalizeSwitch_follows (h : c.Extends large) (byte : UInt8) :
    Follows SwitchExit.Extends (normalizeSwitch args fuel start c byte)
      (normalizeSwitch args fuel start large byte) := by
  obtain ⟨dst, writePos, scanPos⟩ := large
  obtain ⟨hwrite, hscan, hdst⟩ := h
  cases hwrite
  cases hscan
  unfold normalizeSwitch
  split
  · apply Follows.bind_same
    intro scanPos
    exact Follows.ret (.writeChar scanPos)
  split
  · apply Follows.bind_same
    intro relative
    split
    · exact Follows.ret (.continueLoop ⟨rfl, rfl, hdst⟩)
    apply Follows.bind_same
    intro parent
    split
    · split
      · exact Follows.ret .invalidPath
      · apply (dropName_follows hdst _ fuel _).bind
        intro writePos writePos' hsame
        subst hsame
        exact Follows.ret (.continueLoop ⟨rfl, rfl, hdst⟩)
    · exact Follows.ret (.writeChar _)
  · exact Follows.ret (.writeChar _)

private theorem platformWriteCharTo_follows {small large : Mem} (h : small.Extends large)
    (dest : Nat) (src : Mem) (start : Nat) :
    Follows (fun out out' : UInt8 × Mem => out'.1 = out.1 ∧ out.2.Extends out'.2)
      (platformWriteCharTo small dest src start) (platformWriteCharTo large dest src start) := by
  apply Follows.bind_same
  intro lead
  apply (h.copy dest src start _).bind
  intro after after' hafter
  exact Follows.ret ⟨rfl, hafter⟩

private theorem normalizeWriteChar_follows (h : c.Extends large) (scanPos : Nat) :
    Follows (Sum.LiftRel Cursor.Extends NormalizeReturn.Extends) (normalizeWriteChar args c scanPos)
      (normalizeWriteChar args large scanPos) := by
  unfold normalizeWriteChar
  rw [h.writePos]
  apply (platformWriteCharTo_follows h.dst _ _ _).bind
  intro out out' hout
  obtain ⟨offset, dst⟩ := out
  obtain ⟨offset', dst'⟩ := out'
  obtain ⟨hoffset, hdst⟩ := hout
  cases hoffset
  simp only
  split
  · exact Follows.ret (.inr ⟨rfl, hdst⟩)
  · exact Follows.ret (.inl ⟨rfl, rfl, hdst⟩)

theorem normalizeBody_follows (h : c.Extends large) :
    Follows (Sum.LiftRel Cursor.Extends NormalizeReturn.Extends)
      (normalizeBody args fuel start c) (normalizeBody args fuel start large) := by
  unfold normalizeBody
  rw [h.scanPos, h.writePos]
  apply Follows.bind_same
  intro byte
  split
  · apply (h.dst.store _ _).bind
    intro after after' hafter
    exact Follows.ret (.inr ⟨rfl, hafter⟩)
  · apply (normalizeSwitch_follows h byte).bind
    intro exit exit' hexit
    cases hexit with
    | writeChar scanPos => exact normalizeWriteChar_follows h scanPos
    | continueLoop hnext => exact Follows.ret (.inl hnext)
    | invalidPath => exact Follows.ret (.inr ⟨rfl, h.dst⟩)

private theorem normalize_follows {args : NormalizeArgs} {dst large : Mem} (henters : Enters args)
    (h : dst.Extends large) {fuel : Nat} (hfuel : 0 < fuel) :
    Follows NormalizeReturn.Extends (libdFilesystemFilepathNormalize args dst fuel)
      (libdFilesystemFilepathNormalize args large fuel) := by
  rw [henters.normalize_eq dst hfuel, henters.normalize_eq large hfuel]
  exact Follows.loop (fun _ _ hs => normalizeBody_follows hs) fuel ⟨rfl, rfl, h⟩

end Memory

section Capacities

variable {args : NormalizeArgs} {n m : Nat}

private theorem normalizeWriteChar_eq_or (hnm : n ≤ m) (c : Cursor) (scanPos : Nat) :
    normalizeWriteChar { args with outLen := n } c scanPos =
        normalizeWriteChar { args with outLen := m } c scanPos ∨
      ∃ r, normalizeWriteChar { args with outLen := n } c scanPos = ret (.inr r) ∧
        r.result = .err := by
  unfold normalizeWriteChar
  cases platformWriteCharTo c.dst c.writePos args.src scanPos with
  | ret out =>
    simp only [ret_bind]
    by_cases hfull : n ≤ ptrDiff (c.writePos + out.1.toNat) args.outPath
    · rw [if_pos hfull]
      exact Or.inr ⟨_, rfl, rfl⟩
    · rw [if_neg hfull, if_neg (by omega)]
      exact Or.inl rfl
  | fault => exact Or.inl rfl
  | outOfFuel => exact Or.inl rfl

private theorem normalizeBody_eq_or (hnm : n ≤ m) (fuel start : Nat) (c : Cursor) :
    normalizeBody { args with outLen := n } fuel start c =
        normalizeBody { args with outLen := m } fuel start c ∨
      ∃ r, normalizeBody { args with outLen := n } fuel start c = ret (.inr r) ∧
        r.result = .err := by
  have hswitch (byte : UInt8) : normalizeSwitch { args with outLen := m } fuel start c byte =
      normalizeSwitch { args with outLen := n } fuel start c byte := rfl
  unfold normalizeBody
  cases args.src.load c.scanPos with
  | ret byte =>
    simp only [ret_bind, hswitch]
    split
    · exact Or.inl rfl
    · cases normalizeSwitch { args with outLen := n } fuel start c byte with
      | ret exit =>
        cases exit with
        | writeChar scanPos => exact normalizeWriteChar_eq_or hnm c scanPos
        | continueLoop next => exact Or.inl rfl
        | invalidPath => exact Or.inl rfl
      | fault => exact Or.inl rfl
      | outOfFuel => exact Or.inl rfl
  | fault => exact Or.inl rfl
  | outOfFuel => exact Or.inl rfl

private theorem normalize_eq_or (hnm : n ≤ m) (hn : Enters { args with outLen := n })
    (hm : Enters { args with outLen := m }) (dst : Mem) {fuel : Nat} (hfuel : 0 < fuel) :
    libdFilesystemFilepathNormalize { args with outLen := n } dst fuel =
        libdFilesystemFilepathNormalize { args with outLen := m } dst fuel ∨
      ∃ r, libdFilesystemFilepathNormalize { args with outLen := n } dst fuel = ret r ∧
        r.result = .err := by
  rw [hn.normalize_eq dst hfuel, hm.normalize_eq dst hfuel]
  exact loop_eq_or (normalizeBody_eq_or hnm fuel args.outPath) fuel _

end Capacities

/-- The output memory holds the buffer and the bytes behind it that a character may take which
begins in the buffer. Nothing is known of the rest, but an address has 64 bits. -/
structure HoldsBuffer (dst : Mem) (outPath outLen : Nat) : Prop where
  mapped : ∀ x, outPath ≤ x → x < outPath + outLen + 3 → (dst x).isSome
  addresses : ∀ x, 2 ^ 64 ≤ x → dst x = none

/-- The bytes of the buffer itself. -/
def bufferPart (dst : Mem) (outPath outLen : Nat) : Mem := fun x =>
  if outPath ≤ x ∧ x < outPath + outLen then dst x else none

section Returns

variable {args : NormalizeArgs} {p : List UInt8} {side : Side} {dst : Mem} {c large next : Cursor}
  {behind : Bool} {rest output : List UInt8} {outPath outLen : Nat}

theorem HoldsBuffer.isBuffer (h : HoldsBuffer dst outPath outLen) :
    IsBuffer (bufferPart dst outPath outLen) outPath outLen := by
  intro x
  by_cases hx : outPath ≤ x ∧ x < outPath + outLen
  · rw [bufferPart, if_pos hx, h.mapped x hx.1 (by omega), decide_eq_true hx]
  · rw [bufferPart, if_neg hx, decide_eq_false hx]
    rfl

theorem bufferPart_extends (dst : Mem) (outPath outLen : Nat) :
    (bufferPart dst outPath outLen).Extends dst := by
  intro x b hb
  unfold bufferPart at hb
  split at hb
  · exact hb
  · cases hb

theorem Round.mapped (h : Round args c next) (x : Nat) : (next.dst x).isSome =
    (c.dst x).isSome := by
  cases h.cases with
  | write hbyte hb hle hskip hwrite =>
    obtain ⟨lead, -, hcopy, -⟩ := writeChar_run hwrite
    obtain ⟨bytes, -, -, -, -, hsome⟩ := Mem.copy_run hcopy
    exact hsome x
  | relative => rfl
  | parent => rfl

theorem HoldsBuffer.round (h : HoldsBuffer c.dst outPath outLen) (hround : Round args c next) :
    HoldsBuffer next.dst outPath outLen := by
  constructor
  · intro x hlo hhi
    rw [hround.mapped x]
    exact h.mapped x hlo hhi
  · intro x hx
    have hsome := hround.mapped x
    rw [h.addresses x hx] at hsome
    cases hnext : next.dst x with
    | none => rfl
    | some b =>
      rw [hnext] at hsome
      cases hsome

private theorem libdUtf8CharLen_le (b : UInt8) : (libdUtf8CharLen b).toNat ≤ 4 := by
  rw [libdUtf8CharLen_toNat]
  split_ifs <;> omega

private theorem HoldsBuffer.writeChar_over (h : HoldsBuffer c.dst args.outPath args.outLen)
    (hpos : 0 < args.outPath) {scanPos : Nat} {b : UInt8} {more : List UInt8}
    (hsrc : args.src.Holds scanPos (b :: more))
    (hlen : (libdUtf8CharLen b).toNat = (b :: more).length) (hlo : args.outPath ≤ c.writePos)
    (hroom : c.writePos < args.outPath + args.outLen)
    (hover : args.outPath + args.outLen ≤ c.writePos + (libdUtf8CharLen b).toNat) :
    ∃ r, normalizeWriteChar args c scanPos = ret (.inr r) := by
  have hfour := libdUtf8CharLen_le b
  have hwritable : c.dst.Writable c.writePos (b :: more).length := by
    intro k hk
    exact h.mapped _ (by omega) (by omega)
  obtain ⟨after, hcopy, -⟩ := Mem.copy_holds hsrc hwritable
  -- the last byte of the slack has an address
  have hend : args.outPath + args.outLen + 2 < 2 ^ 64 := by
    by_contra hge
    have hlast := h.mapped (args.outPath + args.outLen + 2) (by omega) (by omega)
    rw [h.addresses _ (Nat.le_of_not_lt hge)] at hlast
    cases hlast
  have hdiff : ptrDiff (c.writePos + (libdUtf8CharLen b).toNat) args.outPath =
      c.writePos - args.outPath + (libdUtf8CharLen b).toNat := by
    have hsplit : c.writePos + (libdUtf8CharLen b).toNat = args.outPath +
        (c.writePos - args.outPath + (libdUtf8CharLen b).toNat) := by omega
    rw [hsplit, ptrDiff_eq (by omega)]
  refine ⟨{ result := .err, dst := after }, ?_⟩
  rw [normalizeWriteChar, platformWriteCharTo_eq (Mem.holds_cons.mp hsrc).1, hlen, hcopy]
  simp only [ret_bind, hdiff]
  rw [if_pos (by omega)]

/-- With room for a straddling character, a round that is full returns. -/
theorem Tracks.full_returns (hl : Layout args p side) (h : Tracks args p behind rest output c)
    (hlarge : c.Extends large) (hbuffer : HoldsBuffer large.dst args.outPath args.outLen)
    {bytes rest' : List UInt8} {behind' : Bool}
    (hstep : readNext behind rest = .act (.copy bytes) behind' rest')
    (hroom : args.outLen ≤ output.length + bytes.length) {fuel : Nat}
    (hfuel : enoughFuel args p ≤ fuel)
    (hbody : normalizeBody args fuel args.outPath c = fault ∨ ∃ dst,
      normalizeBody args fuel args.outPath c = ret (.inr { result := .err, dst := dst })) :
    ∃ r, normalizeBody args fuel args.outPath large = ret (.inr r) := by
  by_cases hover : OverrunsBuffer args c
  · obtain ⟨lead, hbyte, hlong, hover⟩ := hover
    have hne : (libdUtf8CharLen lead).toNat ≠ 1 := by omega
    have hwrite := h.written.write
    have hleft := h.written.room
    rw [← hlarge.scanPos] at hbyte
    rw [normalizeBody_write hbyte (ne_nullTerminator_of_charLen hne)
      (normalizeSwitch_of_charLen hne _ _), hlarge.scanPos]
    have hcase := readNext_cases behind rest
    have hholds := h.scans.holds hl
    rw [hstep] at hcase
    cases hcase with
    | separator rest =>
      have hlead := (Mem.holds_cons.mp hholds).1
      rw [← hlarge.scanPos, hbyte] at hlead
      cases hlead
      exact absurd hlong (by decide)
    | character b more rest hb hs hlen hdot =>
      rw [← List.cons_append, Mem.holds_append] at hholds
      have hlead := (Mem.holds_cons.mp hholds.1).1
      rw [← hlarge.scanPos, hbyte] at hlead
      cases hlead
      apply hbuffer.writeChar_over hl.outPath hholds.1 hlen
      · rw [hlarge.writePos]
        omega
      · rw [hlarge.writePos]
        omega
      · rw [hlarge.writePos]
        omega
  · have hne := h.full_ends hl hstep hroom hover hfuel
    obtain ⟨dst, herr⟩ := hbody.resolve_left hne
    obtain ⟨answer, hanswer, hrelated⟩ := normalizeBody_follows hlarge _ herr
    cases hrelated with
    | @inr _ r _ => exact ⟨r, hanswer⟩

private theorem Tracks.returns (hl : Layout args p side) (hrest : IsRest IsText rest)
    (h : Tracks args p behind rest output c) (hlarge : c.Extends large)
    (hbuffer : HoldsBuffer large.dst args.outPath args.outLen) {fuel rounds : Nat}
    (hfuel : enoughFuel args p ≤ fuel) (hrounds : rest.length < rounds) :
    ∃ r, loop (normalizeBody args fuel args.outPath) rounds large = ret r := by
  induction rounds generalizing behind rest output c large with
  | zero => omega
  | succ rounds ih =>
    have hround := h.round hl
    generalize hstep : readNext behind rest = step at hround
    -- a round that goes on
    have hgo {behind' : Bool} {rest' output' : List UInt8} {next : Cursor} {a : Act}
        (hact : readNext behind rest = .act a behind' rest')
        (hnext : Tracks args p behind' rest' output' next)
        (hbody : normalizeBody args fuel args.outPath c = ret (.inl next)) :
        ∃ r, loop (normalizeBody args fuel args.outPath) (rounds + 1) large = ret r := by
      obtain ⟨answer, hanswer, hrelated⟩ := normalizeBody_follows hlarge _ hbody
      cases hrelated with
      | @inl _ next' hnext' =>
        have hround' : Round args large next' := ⟨fuel, hanswer⟩
        have hshorter := readNext_length hact
        rw [loop_next rounds hanswer]
        exact ih (hrest.text_step hact) hnext hnext' (hbuffer.round hround') (by omega)
    -- a round that answers
    have hdone {r : NormalizeReturn}
        (hbody : normalizeBody args fuel args.outPath c = ret (.inr r)) :
        ∃ r, loop (normalizeBody args fuel args.outPath) (rounds + 1) large = ret r := by
      obtain ⟨answer, hanswer, hrelated⟩ := normalizeBody_follows hlarge _ hbody
      cases hrelated with
      | @inr _ r' _ => exact ⟨r', loop_done rounds hanswer⟩
    cases hround with
    | stop hholds hbody => exact hdone (hbody fuel hfuel)
    | stuck => exact absurd hstep hrest.not_stuck
    | copy hroom hnext hbody => exact hgo hstep hnext (hbody fuel hfuel)
    | full hroom hbody =>
      obtain ⟨r, hr⟩ := h.full_returns hl hlarge hbuffer hstep hroom hfuel (hbody fuel hfuel)
      exact ⟨r, loop_done rounds hr⟩
    | skip hnext hbody => exact hgo hstep hnext (hbody fuel hfuel)
    | parent hlen hnext hbody => exact hgo hstep hnext (hbody fuel hfuel)
    | invalid hlen hbody => exact hdone (hbody fuel hfuel)

private theorem normalize_returns (hl : Layout args p side)
    (hbuffer : HoldsBuffer dst args.outPath args.outLen) (htext : IsText p)
    (hlen : 0 < args.outLen) : ∃ r, Converges (libdFilesystemFilepathNormalize args dst) r := by
  have hstart := Tracks.start hl hbuffer.isBuffer hlen
  have hlarge : (startCursor args (bufferPart dst args.outPath args.outLen)).Extends
      (startCursor args dst) := ⟨rfl, rfl, bufferPart_extends _ _ _⟩
  have hrest : IsRest IsText (inputText p) := Or.inr ⟨p, rfl, hl.noNul, htext⟩
  have hpos : 0 < enoughFuel args p := Nat.succ_pos _
  have hrounds : (inputText p).length < enoughFuel args p := by
    unfold enoughFuel
    omega
  obtain ⟨r, hr⟩ := hstart.returns hl hrest hlarge hbuffer le_rfl hrounds
  rw [← (hl.enters hlen).normalize_eq dst hpos] at hr
  exact ⟨r, (normalize_settled args dst).converges hr⟩

private theorem normalize_ne_err (hl : Layout args p side)
    (hbuffer : HoldsBuffer dst args.outPath args.outLen) (htext : IsText p)
    (hlen : p.length < args.outLen) {r : NormalizeReturn}
    (hconv : Converges (libdFilesystemFilepathNormalize args dst) r) : r.result ≠ .err := by
  have henters := hl.enters (Nat.zero_lt_of_lt hlen)
  obtain ⟨small, hsmall, hanswer⟩ := normalize_text hl hbuffer.isBuffer htext hlen
  obtain ⟨enough, hrun⟩ := hconv
  obtain ⟨enough', hrun'⟩ := hsmall
  have hfuel : 0 < max enough enough' + 1 := Nat.succ_pos _
  have hsame := hrun (max enough enough' + 1) (by omega)
  obtain ⟨r', hr', hrelated⟩ := normalize_follows henters (bufferPart_extends dst _ _) hfuel small
    (hrun' (max enough enough' + 1) (by omega))
  rw [hsame] at hr'
  cases hr'
  rw [hrelated.result]
  intro herr
  cases houtput : (applyOps side (pathOps p) (render [])).map fun output =>
      output ++ componentLast (componentsOf p) with
  | none =>
    rw [houtput] at hanswer
    have hinvalid : small.result = .invalidPath := hanswer
    rw [herr] at hinvalid
    cases hinvalid
  | some final =>
    rw [houtput] at hanswer
    have hok : small.result = .ok := hanswer.1
    rw [herr] at hok
    cases hok

end Returns

private theorem Layout.smaller {args : NormalizeArgs} {p : List UInt8} {side : Side} {n m : Nat}
    (hl : Layout { args with outLen := m } p side) (hnm : n ≤ m) :
    Layout { args with outLen := n } p side := by
  have hend := hl.outEnd
  refine ⟨hl.src, hl.noNul, hl.starts, hl.inputPath, hl.outPath, ?_, ?_⟩
  · show args.outPath + n ≤ 2 ^ 64
    exact (Nat.add_le_add_left hnm _).trans hend
  · cases side with
    | above => exact hl.side
    | below => exact (Nat.add_le_add_left hnm _).trans hl.side

private theorem HoldsBuffer.smaller {dst : Mem} {outPath n m : Nat} (h : HoldsBuffer dst outPath m)
    (hnm : n ≤ m) : HoldsBuffer dst outPath n :=
  ⟨fun x hlo hhi => h.mapped x hlo (by omega), h.addresses⟩

/-- A call with a smaller capacity returns `libd_err` or what the call with the larger one returns,
with the same output. A buffer of one byte more than the path is large enough. -/
theorem normalize_larger_buffer (p : List UInt8) (args : NormalizeArgs) (n m : Nat) (side : Side)
    (dst : Mem) (hl : Layout { args with outLen := m } p side)
    (hbuffer : HoldsBuffer dst args.outPath m) (hutf8 : IsWellFormedUtf8 p) (hn : 1 ≤ n)
    (hnm : n ≤ m) :
    ∃ r r', Converges (libdFilesystemFilepathNormalize { args with outLen := n } dst) r ∧
      Converges (libdFilesystemFilepathNormalize { args with outLen := m } dst) r' ∧
      (r.result = .err ∨ r = r') ∧
      (r.result = .ok → r'.result = .ok) ∧
      (p.length < n → r.result ≠ .err) := by
  have hl' := hl.smaller hnm
  have hbuffer' := hbuffer.smaller hnm
  have hm : 1 ≤ m := hn.trans hnm
  obtain ⟨r, hr⟩ := normalize_returns hl' hbuffer' hutf8.isText hn
  obtain ⟨r', hr'⟩ := normalize_returns hl hbuffer hutf8.isText hm
  have hsame : r.result = .err ∨ r = r' := by
    obtain ⟨enough, hrun⟩ := id hr
    obtain ⟨enough', hrun'⟩ := id hr'
    have hfuel : 0 < max enough enough' + 1 := Nat.succ_pos _
    have hboth := normalize_eq_or hnm (hl'.enters hn) (hl.enters hm) dst hfuel
    rw [hrun _ (by omega), hrun' _ (by omega)] at hboth
    cases hboth with
    | inl heq =>
      cases heq
      exact Or.inr rfl
    | inr herr =>
      obtain ⟨answer, hanswer, herr⟩ := herr
      cases hanswer
      exact Or.inl herr
  refine ⟨r, r', hr, hr', hsame, ?_, ?_⟩
  · intro hok
    cases hsame with
    | inl herr =>
      rw [herr] at hok
      cases hok
    | inr heq => rwa [← heq]
  · intro hlen
    exact normalize_ne_err hl' hbuffer' hutf8.isText hlen hr

/-- The path of seven bytes in a buffer of eight and in one of thirteen, in a memory of sixteen. -/
theorem normalize_larger_buffer_parent :
    ∃ r r',
      Converges (libdFilesystemFilepathNormalize (callOn parentPath 16 64 8) (zeroBuffer 64 16)) r ∧
      Converges (libdFilesystemFilepathNormalize (callOn parentPath 16 64 13) (zeroBuffer 64 16))
        r' ∧
      (r.result = .err ∨ r = r') ∧ (r.result = .ok → r'.result = .ok) ∧ r.result ≠ .err := by
  have hl : Layout (callOn parentPath 16 64 13) parentPath .above :=
    ⟨rfl, by decide, rfl, by decide, by decide, by decide, (by decide : 16 < 64)⟩
  have hutf8 : IsWellFormedUtf8 parentPath := ⟨['/', 'a', '/', '.', '.', '/', 'b'], by decide⟩
  have hzero := isBuffer_zeroBuffer 64 16
  have hbuffer : HoldsBuffer (zeroBuffer 64 16) 64 13 := by
    constructor
    · intro x hlo hhi
      rw [hzero]
      exact decide_eq_true ⟨hlo, hhi⟩
    · intro x hx
      have hsome := hzero x
      rw [decide_eq_false (by omega)] at hsome
      exact Option.isNone_iff_eq_none.mp (by simpa using hsome)
  obtain ⟨r, r', hr, hr', hsame, hok, herr⟩ := normalize_larger_buffer parentPath
    (callOn parentPath 16 64 8) 8 13 .above (zeroBuffer 64 16) hl hbuffer hutf8 (by decide)
    (by decide)
  exact ⟨r, r', hr, hr', hsame, hok, herr (by decide)⟩

end Libdane
