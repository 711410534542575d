import Libdane.Filesystem.Filepath
import Libdane.Framework.LoopStates

/-!
# The rounds of the main loop

What a round of the main loop can do is said once, for arbitrary memories. A round that goes on has
copied a character, has skipped a reference or has dropped the last component.
-/

namespace Libdane

open ByteMachine ByteMachine.Exec

/-- The state in front of the main loop. -/
def startCursor (args : NormalizeArgs) (dst : Mem) : Cursor :=
  { dst := dst, writePos := args.outPath, scanPos := args.inputPath }

/-- A round that goes on with the main loop. -/
def Round (args : NormalizeArgs) : Cursor → Cursor → Prop :=
  Goes fun fuel => normalizeBody args fuel args.outPath

/-- The call comes to its main loop: no pointer is `NULL`, and neither the buffer nor the path is
empty. -/
structure Enters (args : NormalizeArgs) : Prop where
  outPath : 0 < args.outPath
  outLen : 0 < args.outLen
  inputPath : 0 < args.inputPath
  first : ∃ b, args.src args.inputPath = some b ∧ b ≠ nullTerminator

/-- The states in front of which the main loop of the call can stand. -/
structure Reached (args : NormalizeArgs) (dst : Mem) (c : Cursor) : Prop where
  enters : Enters args
  visits : Visits (fun fuel => normalizeBody args fuel args.outPath) (startCursor args dst) c

theorem Reached.start {args : NormalizeArgs} (h : Enters args) (dst : Mem) :
    Reached args dst (startCursor args dst) := ⟨h, .refl⟩

theorem Reached.next {args : NormalizeArgs} {dst : Mem} {c next : Cursor} (h : Reached args dst c)
    (hround : Round args c next) : Reached args dst next := ⟨h.enters, h.visits.tail hround⟩

theorem Reached.invariant {args : NormalizeArgs} {dst : Mem} {P : Cursor → Prop}
    (hstart : P (startCursor args dst))
    (hround : ∀ c next, Reached args dst c → P c → Round args c next → P next) {c : Cursor}
    (h : Reached args dst c) : P c := by
  obtain ⟨henters, hvisits⟩ := h
  induction hvisits with
  | refl => exact hstart
  | @tail c next hbefore hgoes ih => exact hround c next ⟨henters, hbefore⟩ ih hgoes

section Loops

variable {src dst : Mem} {pathStart fuel start stop : Nat}

theorem skipSeparators_step {answer : Nat ⊕ Nat} (h : skipSeparatorsBody src start = ret answer) :
    src (start + 1) = some pathSeparator ∧ answer = .inl (start + 1) ∨ answer = .inr start := by
  obtain ⟨one, hone, hanswer⟩ := eq_ret_of_bind h
  rw [Mem.load_eq_ret] at hone
  by_cases hs : one = pathSeparator
  · rw [if_pos (beq_iff_eq.mpr hs)] at hanswer
    cases hanswer
    exact Or.inl ⟨hs ▸ hone, rfl⟩
  · rw [if_neg (by simpa using hs)] at hanswer
    cases hanswer
    exact Or.inr rfl

theorem dropName_step {answer : Nat ⊕ Nat} (h : dropNameBody dst pathStart start = ret answer) :
    (∃ below, start = below + 1 ∧ dst below ≠ some pathSeparator ∧ answer = .inl below) ∨
      answer = .inr start := by
  obtain ⟨before, hbefore, hanswer⟩ := eq_ret_of_bind h
  obtain ⟨below, rfl, hbyte⟩ := Mem.loadBefore_eq_ret.mp hbefore
  by_cases hgo : before ≠ pathSeparator ∧ pathStart < below + 1
  · rw [if_pos (by simpa using hgo)] at hanswer
    cases hanswer
    refine Or.inl ⟨below, rfl, ?_, rfl⟩
    rw [hbyte]
    exact fun hs => hgo.1 (Option.some.inj hs)
  · rw [if_neg (by simpa using hgo)] at hanswer
    cases hanswer
    exact Or.inr rfl

theorem skipSeparators_visits (h : Visits (fun _ => skipSeparatorsBody src) start stop) :
    start ≤ stop ∧ ∀ x, start < x → x ≤ stop → src x = some pathSeparator := by
  induction h with
  | refl => exact ⟨le_rfl, fun x hlo hhi => absurd hhi (Nat.not_le_of_lt hlo)⟩
  | @tail s next _ hgoes ih =>
    obtain ⟨_, hgoes⟩ := hgoes
    cases skipSeparators_step hgoes with
    | inl hskip =>
      cases hskip.2
      constructor
      · exact ih.1.trans (Nat.le_succ s)
      · intro x hlo hhi
        cases Nat.le_succ_iff.mp hhi with
        | inl hle => exact ih.2 x hlo hle
        | inr heq => exact heq ▸ hskip.1
    | inr hstop => cases hstop

private theorem skipSeparators_run (h : loop (skipSeparatorsBody src) fuel start = ret stop) :
    start ≤ stop ∧ ∀ x, start < x → x ≤ stop → src x = some pathSeparator := by
  obtain ⟨s, hvisits, hexit⟩ := loop_exit (fun _ => skipSeparatorsBody src) fuel h
  cases skipSeparators_step hexit with
  | inl hskip => cases hskip.2
  | inr hstop =>
    cases hstop
    exact skipSeparators_visits hvisits

theorem dropName_visits (h : Visits (fun _ => dropNameBody dst pathStart) start stop) :
    stop ≤ start ∧ ∀ x, stop ≤ x → x < start → dst x ≠ some pathSeparator := by
  induction h with
  | refl => exact ⟨le_rfl, fun x hlo hhi => absurd hlo (Nat.not_le_of_lt hhi)⟩
  | @tail w next _ hgoes ih =>
    obtain ⟨_, hgoes⟩ := hgoes
    cases dropName_step hgoes with
    | inl hgo =>
      obtain ⟨below, rfl, hbelow, hnext⟩ := hgo
      cases hnext
      constructor
      · exact (Nat.le_succ next).trans ih.1
      · intro x hlo hhi
        cases Nat.eq_or_lt_of_le hlo with
        | inl heq => exact heq ▸ hbelow
        | inr hlt => exact ih.2 x hlt hhi
    | inr hstop => cases hstop

theorem dropName_run (h : loop (dropNameBody dst pathStart) fuel start = ret stop) :
    stop ≤ start ∧ ∀ x, stop ≤ x → x < start → dst x ≠ some pathSeparator := by
  obtain ⟨w, hvisits, hexit⟩ := loop_exit (fun _ => dropNameBody dst pathStart) fuel h
  cases dropName_step hexit with
  | inl hgo =>
    obtain ⟨_, -, -, hnext⟩ := hgo
    cases hnext
  | inr hstop =>
    cases hstop
    exact dropName_visits hvisits

end Loops

private theorem normalizeSwitch_settled (args : NormalizeArgs) (start : Nat) (c : Cursor)
    (byte : UInt8) :
    Settled fun fuel => normalizeSwitch args fuel start c byte := by
  unfold normalizeSwitch
  split
  · have hskip := Settled.loop (fun s => settled_const (skipSeparatorsBody args.src s)) c.scanPos
    exact hskip.bind fun scanPos => settled_const _
  split
  · apply (settled_const _).bind
    intro relative
    split
    · exact settled_const _
    apply (settled_const _).bind
    intro parent
    split
    · split
      · exact settled_const _
      · have hdrop := Settled.loop (fun s => settled_const (dropNameBody c.dst
          (platformFilepathEndOfPrefix args.inputPath) s)) (c.writePos - 1)
        exact hdrop.bind fun writePos => settled_const _
    · exact settled_const _
  · exact settled_const _

theorem normalizeBody_settled (args : NormalizeArgs) (start : Nat) (c : Cursor) :
    Settled fun fuel => normalizeBody args fuel start c := by
  unfold normalizeBody
  apply (settled_const _).bind
  intro byte
  split
  · exact settled_const _
  · apply (normalizeSwitch_settled args start c byte).bind
    intro exit
    cases exit with
    | writeChar scanPos => exact settled_const _
    | continueLoop c => exact settled_const _
    | invalidPath => exact settled_const _

theorem normalize_settled (args : NormalizeArgs) (dst : Mem) :
    Settled (libdFilesystemFilepathNormalize args dst) := by
  unfold libdFilesystemFilepathNormalize
  split
  · exact settled_const _
  apply (settled_const _).bind
  intro first
  split
  · exact settled_const _
  · have hprefix := Settled.loop (fun c => settled_const (copyPrefixBody args c))
      (startCursor args dst)
    exact hprefix.bind fun c => Settled.loop (normalizeBody_settled args c.writePos) c

section Exits

variable {args : NormalizeArgs} {c : Cursor}

theorem platformWriteCharTo_eq {dst src : Mem} {dest start : Nat} {b : UInt8}
    (hbyte : src start = some b) :
    platformWriteCharTo dst dest src start =
      dst.copy dest src start (libdUtf8CharLen b).toNat >>= fun dst =>
        ret (libdUtf8CharLen b, dst) := by
  simp only [platformWriteCharTo, libdUtf8WriteChar, Mem.load_eq_ret.mpr hbyte, ret_bind]

theorem normalizeBody_write {fuel start scanPos : Nat} {b : UInt8}
    (hbyte : args.src c.scanPos = some b) (hb : b ≠ nullTerminator)
    (hswitch : normalizeSwitch args fuel start c b = ret (.writeChar scanPos)) :
    normalizeBody args fuel start c = normalizeWriteChar args c scanPos := by
  simp only [normalizeBody, Mem.load_eq_ret.mpr hbyte, ret_bind, beq_iff_eq, hb, if_false, hswitch]

theorem normalizeBody_continue {fuel start : Nat} {b : UInt8} {next : Cursor}
    (hbyte : args.src c.scanPos = some b) (hb : b ≠ nullTerminator)
    (hswitch : normalizeSwitch args fuel start c b = ret (.continueLoop next)) :
    normalizeBody args fuel start c = ret (.inl next) := by
  simp only [normalizeBody, Mem.load_eq_ret.mpr hbyte, ret_bind, beq_iff_eq, hb, if_false, hswitch]

theorem normalizeBody_invalid {fuel start : Nat} {b : UInt8}
    (hbyte : args.src c.scanPos = some b) (hb : b ≠ nullTerminator)
    (hswitch : normalizeSwitch args fuel start c b = ret .invalidPath) :
    normalizeBody args fuel start c = ret (.inr { result := .invalidPath, dst := c.dst }) := by
  simp only [normalizeBody, Mem.load_eq_ret.mpr hbyte, ret_bind, beq_iff_eq, hb, if_false, hswitch]

theorem ne_nullTerminator_of_charLen {b : UInt8} (hlen : (libdUtf8CharLen b).toNat ≠ 1) :
    b ≠ nullTerminator := by
  rintro rfl
  exact hlen (by decide)

theorem normalizeSwitch_of_charLen {b : UInt8} (hlen : (libdUtf8CharLen b).toNat ≠ 1)
    (fuel start : Nat) : normalizeSwitch args fuel start c b = ret (.writeChar c.scanPos) := by
  have hsep : b ≠ pathSeparator := by
    rintro rfl
    exact hlen (by decide)
  have hdot : b ≠ dot := by
    rintro rfl
    exact hlen (by decide)
  simp [normalizeSwitch, hsep, hdot]

end Exits

/-- The round finds a parent reference and drops the last component for it. -/
structure ParentScan (args : NormalizeArgs) (c : Cursor) : Prop where
  byte : args.src c.scanPos = some dot
  relative : foundRelativeRef args.src args.inputPath c.scanPos = ret false
  parent : foundParentRef args.src args.inputPath c.scanPos = ret true
  notFirst : c.writePos ≠ args.outPath
  notSecond : c.writePos - 1 ≠ args.outPath

/-- Everything that the `switch` can do. -/
inductive SwitchCase (args : NormalizeArgs) (c : Cursor) : SwitchExit → Prop where
  | writeChar {scanPos : Nat} (hle : c.scanPos ≤ scanPos)
      (hskip : ∀ x, c.scanPos < x → x ≤ scanPos → args.src x = some pathSeparator) :
      SwitchCase args c (.writeChar scanPos)
  | relative (hbyte : args.src c.scanPos = some dot)
      (href : foundRelativeRef args.src args.inputPath c.scanPos = ret true) :
      SwitchCase args c (.continueLoop { c with scanPos := c.scanPos + 2 })
  | parent {writePos fuel : Nat} (hscan : ParentScan args c)
      (hloop : loop (dropNameBody c.dst (platformFilepathEndOfPrefix args.inputPath)) fuel
        (c.writePos - 1) = ret writePos) :
      SwitchCase args c (.continueLoop { c with writePos := writePos, scanPos := c.scanPos + 3 })
  | invalid : SwitchCase args c .invalidPath

theorem normalizeSwitch_cases {args : NormalizeArgs} {c : Cursor} {b : UInt8} {fuel : Nat}
    {exit : SwitchExit} (hbyte : args.src c.scanPos = some b)
    (h : normalizeSwitch args fuel args.outPath c b = ret exit) : SwitchCase args c exit := by
  have hstay : SwitchCase args c (.writeChar c.scanPos) :=
    .writeChar le_rfl fun x hlo hhi => absurd hhi (Nat.not_le_of_lt hlo)
  rw [normalizeSwitch] at h
  by_cases hs : b = pathSeparator
  · rw [if_pos (beq_iff_eq.mpr hs)] at h
    obtain ⟨scanPos, hloop, hexit⟩ := eq_ret_of_bind h
    cases hexit
    obtain ⟨hle, hskip⟩ := skipSeparators_run hloop
    exact .writeChar hle hskip
  rw [if_neg (by simpa using hs)] at h
  by_cases hd : b = dot
  · rw [if_pos (beq_iff_eq.mpr hd)] at h
    rw [hd] at hbyte
    obtain ⟨relative, hrelative, h⟩ := eq_ret_of_bind h
    cases relative with
    | true =>
      cases h
      exact .relative hbyte hrelative
    | false =>
      rw [if_neg Bool.false_ne_true] at h
      obtain ⟨parent, hparent, h⟩ := eq_ret_of_bind h
      cases parent with
      | true =>
        rw [if_pos rfl] at h
        by_cases hfirst : c.writePos = args.outPath ∨ c.writePos - 1 = args.outPath
        · rw [if_pos (by simpa using hfirst)] at h
          cases h
          exact .invalid
        · rw [if_neg (by simpa using hfirst)] at h
          obtain ⟨writePos, hloop, hexit⟩ := eq_ret_of_bind h
          cases hexit
          rw [not_or] at hfirst
          exact .parent ⟨hbyte, hrelative, hparent, hfirst.1, hfirst.2⟩ hloop
      | false =>
        cases h
        exact hstay
  · rw [if_neg (by simpa using hd)] at h
    cases h
    exact hstay

theorem Round.exit {args : NormalizeArgs} {c next : Cursor} (h : Round args c next) :
    ∃ b fuel exit, args.src c.scanPos = some b ∧ b ≠ nullTerminator ∧
      normalizeSwitch args fuel args.outPath c b = ret exit ∧
      ((∃ scanPos, exit = .writeChar scanPos ∧
          normalizeWriteChar args c scanPos = ret (.inl next)) ∨
        exit = .continueLoop next) := by
  obtain ⟨fuel, h⟩ := h
  obtain ⟨b, hload, h⟩ := eq_ret_of_bind h
  have hbyte := Mem.load_eq_ret.mp hload
  by_cases hb : b = nullTerminator
  · rw [if_pos (beq_iff_eq.mpr hb)] at h
    obtain ⟨dst, -, h⟩ := eq_ret_of_bind h
    cases h
  rw [if_neg (by simpa using hb)] at h
  obtain ⟨exit, hswitch, h⟩ := eq_ret_of_bind h
  refine ⟨b, fuel, exit, hbyte, hb, hswitch, ?_⟩
  cases exit with
  | writeChar scanPos => exact Or.inl ⟨scanPos, rfl, h⟩
  | continueLoop next =>
    cases h
    exact Or.inr rfl
  | invalidPath => cases h

/-- Everything that a round can do that goes on. -/
inductive RoundCase (args : NormalizeArgs) (c : Cursor) : Cursor → Prop where
  | write {b : UInt8} {scanPos : Nat} {next : Cursor} (hbyte : args.src c.scanPos = some b)
      (hb : b ≠ nullTerminator) (hle : c.scanPos ≤ scanPos)
      (hskip : ∀ x, c.scanPos < x → x ≤ scanPos → args.src x = some pathSeparator)
      (hwrite : normalizeWriteChar args c scanPos = ret (.inl next)) : RoundCase args c next
  | relative (hbyte : args.src c.scanPos = some dot)
      (href : foundRelativeRef args.src args.inputPath c.scanPos = ret true) :
      RoundCase args c { c with scanPos := c.scanPos + 2 }
  | parent {writePos fuel : Nat} (hscan : ParentScan args c)
      (hloop : loop (dropNameBody c.dst (platformFilepathEndOfPrefix args.inputPath)) fuel
        (c.writePos - 1) = ret writePos) :
      RoundCase args c { c with writePos := writePos, scanPos := c.scanPos + 3 }

theorem Round.cases {args : NormalizeArgs} {c next : Cursor} (h : Round args c next) :
    RoundCase args c next := by
  obtain ⟨b, fuel, exit, hbyte, hb, hswitch, hexit⟩ := h.exit
  cases hexit with
  | inl hwrite =>
    obtain ⟨scanPos, rfl, hwrite⟩ := hwrite
    cases normalizeSwitch_cases hbyte hswitch with
    | writeChar hle hskip => exact .write hbyte hb hle hskip hwrite
  | inr hcontinue =>
    rw [hcontinue] at hswitch
    cases normalizeSwitch_cases hbyte hswitch with
    | relative hdot href => exact .relative hdot href
    | parent hscan hloop => exact .parent hscan hloop

theorem writeChar_run {args : NormalizeArgs} {c next : Cursor} {scanPos : Nat}
    (h : normalizeWriteChar args c scanPos = ret (.inl next)) :
    ∃ b, args.src scanPos = some b ∧
      c.dst.copy c.writePos args.src scanPos (libdUtf8CharLen b).toNat = ret next.dst ∧
      next.writePos = c.writePos + (libdUtf8CharLen b).toNat ∧
      next.scanPos = scanPos + (libdUtf8CharLen b).toNat ∧
      ptrDiff next.writePos args.outPath < args.outLen := by
  obtain ⟨copied, hchar, h⟩ := eq_ret_of_bind h
  obtain ⟨b, hload, hchar⟩ := eq_ret_of_bind hchar
  obtain ⟨dst, hcopy, hpair⟩ := eq_ret_of_bind hchar
  cases hpair
  simp only at h
  split_ifs at h with hfull
  · cases h
  · cases h
    exact ⟨b, Mem.load_eq_ret.mp hload, hcopy, rfl, rfl, Nat.lt_of_not_le hfull⟩

theorem Reached.output_le {args : NormalizeArgs} {dst : Mem} {c : Cursor} (h : Reached args dst c) :
    c.writePos + args.inputPath ≤ args.outPath + c.scanPos := by
  apply h.invariant (P := fun c => c.writePos + args.inputPath ≤ args.outPath + c.scanPos)
  · exact le_rfl
  · intro c next _ hle hround
    cases hround.cases with
    | @write b scanPos next hbyte hb hskipped hskip hwrite =>
      obtain ⟨lead, -, -, hwritePos, hscanPos, -⟩ := writeChar_run hwrite
      omega
    | relative => exact hle.trans (by simp)
    | @parent writePos _ hscan hloop =>
      have hdown := (dropName_run hloop).1
      show writePos + args.inputPath ≤ args.outPath + (c.scanPos + 3)
      omega

private theorem copyPrefix_done (args : NormalizeArgs) (dst : Mem) (fuel : Nat) :
    loop (copyPrefixBody args) (fuel + 1) (startCursor args dst) = ret (startCursor args dst) := by
  apply loop_done
  simp [copyPrefixBody, startCursor, platformFilepathEndOfPrefix]

theorem Enters.normalize_eq {args : NormalizeArgs} (h : Enters args) (dst : Mem) {fuel : Nat}
    (hfuel : 0 < fuel) :
    libdFilesystemFilepathNormalize args dst fuel =
      loop (normalizeBody args fuel args.outPath) fuel (startCursor args dst) := by
  obtain ⟨hout, hlen, hin, b, hbyte, hb⟩ := h
  obtain ⟨fuel, rfl⟩ := Nat.exists_eq_succ_of_ne_zero hfuel.ne'
  have hload := Mem.load_eq_ret.mpr hbyte
  unfold libdFilesystemFilepathNormalize
  rw [if_neg (by simp; omega), hload, ret_bind, if_neg (by simpa using hb)]
  change (loop (copyPrefixBody args) (fuel + 1) (startCursor args dst) >>= _) = _
  rw [copyPrefix_done, ret_bind]
  rfl

theorem Enters.ne_fault_iff {args : NormalizeArgs} (h : Enters args) (dst : Mem) :
    (∀ fuel, libdFilesystemFilepathNormalize args dst fuel ≠ fault) ↔
      ∀ c, Reached args dst c → ∀ fuel, normalizeBody args fuel args.outPath c ≠ fault := by
  have hloop := loop_ne_fault_iff (fun fuel => normalizeBody args fuel args.outPath)
    (normalizeBody_settled args args.outPath) (startCursor args dst)
  constructor
  · intro hcall c hc
    apply hloop.mp _ c hc.visits
    intro fuel
    cases fuel with
    | zero => simp [loop]
    | succ fuel =>
      rw [← h.normalize_eq dst (Nat.succ_pos fuel)]
      exact hcall (fuel + 1)
  · intro hbody fuel hfault
    have hne : libdFilesystemFilepathNormalize args dst fuel ≠ outOfFuel := by simp [hfault]
    have hmore := normalize_settled args dst fuel (fuel + 1) (Nat.le_succ fuel) hne
    rw [hfault, h.normalize_eq dst (Nat.succ_pos fuel)] at hmore
    exact hloop.mpr (fun c hc => hbody c ⟨h, hc⟩) (fuel + 1) hmore

theorem normalize_of_not_enters {args : NormalizeArgs} (h : ¬Enters args) (dst : Mem) (fuel : Nat) :
    libdFilesystemFilepathNormalize args dst fuel =
      if args.outPath == 0 || args.outLen == 0 || args.inputPath == 0 then
        ret { result := .invalidParameter, dst := dst }
      else
        args.src.load args.inputPath >>= fun _ =>
          ret { result := .invalidParameter, dst := dst } := by
  unfold libdFilesystemFilepathNormalize
  split
  · rfl
  next hargs =>
    apply bind_congr_of_ret rfl
    intro b hload
    simp only [Bool.or_eq_true, beq_iff_eq, not_or, ← ne_eq, ← Nat.pos_iff_ne_zero] at hargs
    have hnul : b = nullTerminator := by
      by_contra hb
      exact h ⟨hargs.1.1, hargs.1.2, hargs.2, b, Mem.load_eq_ret.mp hload, hb⟩
    simp [hnul]

end Libdane
