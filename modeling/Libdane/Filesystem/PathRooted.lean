import Libdane.Filesystem.PathLowEnd
import Libdane.Filesystem.PathPeak

/-!
# A relative path below the root

The call on a relative path is compared with the call on the same path below the root, with one byte
less in front of both buffers. The rounds of the two agree unless the backward scan of a parent
reference comes to the separator of the root.
-/

namespace Libdane

open ByteMachine ByteMachine.Exec

/-- The function is called on a path that does not begin with a separator, with the output above the
input. No page holds the first two addresses, so the input begins behind them. -/
structure RelativeLayout (args : NormalizeArgs) (q : List UInt8) : Prop where
  src : args.src = Mem.ofBytes args.inputPath (inputText q)
  noNul : nullTerminator ∉ q
  nonempty : q ≠ []
  relative : q.head? ≠ some pathSeparator
  inputPath : 1 < args.inputPath
  side : args.inputPath < args.outPath
  outEnd : args.outPath + args.outLen ≤ 2 ^ 64

/-- The call on the path with a separator in front of it, with both buffers one byte longer at their
low end. -/
def NormalizeArgs.rooted (args : NormalizeArgs) (q : List UInt8) : NormalizeArgs :=
  { src := Mem.ofBytes (args.inputPath - 1) (inputText (pathSeparator :: q)),
    outPath := args.outPath - 1, outLen := args.outLen + 1, inputPath := args.inputPath - 1 }

/-- The output memory with a separator in front of the output. -/
def rootedMem (outPath : Nat) (m : Mem) : Mem :=
  Function.update m (outPath - 1) (some pathSeparator)

def Cursor.rooted (outPath : Nat) (c : Cursor) : Cursor :=
  { c with dst := rootedMem outPath c.dst }

def NormalizeReturn.rooted (outPath : Nat) (r : NormalizeReturn) : NormalizeReturn :=
  { r with dst := rootedMem outPath r.dst }

def SwitchExit.rooted (outPath : Nat) : SwitchExit → SwitchExit
  | .writeChar scanPos => .writeChar scanPos
  | .continueLoop c => .continueLoop (c.rooted outPath)
  | .invalidPath => .invalidPath

theorem rootedMem_of_le {outPath x : Nat} (m : Mem) (hpos : 0 < outPath) (hx : outPath ≤ x) :
    rootedMem outPath m x = m x := by
  rw [rootedMem, Function.update_of_ne (by omega)]

section Rooted

variable {args : NormalizeArgs} {q : List UInt8} {c : Cursor} {scanPos : Nat}

theorem RelativeLayout.rooted (hl : RelativeLayout args q) :
    Layout (args.rooted q) (pathSeparator :: q) .above := by
  have hin := hl.inputPath
  have hside := hl.side
  have hend := hl.outEnd
  refine ⟨rfl, ?_, rfl, ?_, ?_, ?_, ?_⟩
  · simp [hl.noNul, pathSeparator_ne_nullTerminator.symm]
  · show 0 < args.inputPath - 1
    omega
  · show 0 < args.outPath - 1
    omega
  · show args.outPath - 1 + (args.outLen + 1) ≤ 2 ^ 64
    omega
  · show args.inputPath - 1 < args.outPath - 1
    omega

private theorem RelativeLayout.src_rooted (hl : RelativeLayout args q) {x : Nat}
    (hx : args.inputPath ≤ x) :
    (args.rooted q).src x = args.src x := by
  have hin := hl.inputPath
  show Mem.ofBytes (args.inputPath - 1) (pathSeparator :: inputText q) x = args.src x
  rw [hl.src, Mem.ofBytes, Mem.ofBytes, if_pos (by omega), if_pos hx]
  obtain ⟨k, rfl⟩ := Nat.exists_eq_add_of_le hx
  have hfirst : args.inputPath + k - (args.inputPath - 1) = k + 1 := by omega
  rw [hfirst, List.getElem?_cons_succ, Nat.add_sub_cancel_left]

private theorem RelativeLayout.load_rooted (hl : RelativeLayout args q) {x : Nat}
    (hx : args.inputPath ≤ x) : (args.rooted q).src.load x = args.src.load x := by
  rw [Mem.load, Mem.load, hl.src_rooted hx]

private theorem RelativeLayout.behind_rooted (hl : RelativeLayout args q)
    (hle : args.inputPath ≤ scanPos) :
    behindSatisfied (args.rooted q).src (args.rooted q).inputPath scanPos =
      behindSatisfied args.src args.inputPath scanPos := by
  have hin := hl.inputPath
  have hnot : (scanPos == (args.rooted q).inputPath) = false := by
    rw [beq_eq_false_iff_ne]
    show scanPos ≠ args.inputPath - 1
    omega
  rw [behindSatisfied, behindSatisfied, hnot]
  simp only [Bool.false_eq_true, if_false]
  obtain ⟨previous, rfl⟩ := Nat.exists_eq_succ_of_ne_zero (by omega : scanPos ≠ 0)
  by_cases hstart : previous + 1 = args.inputPath
  · have hfirst : (args.rooted q).src previous = some pathSeparator := by
      have hholds := Mem.holds_ofBytes (args.inputPath - 1) (inputText (pathSeparator :: q))
      have hprevious : previous = args.inputPath - 1 := by omega
      rw [hprevious]
      exact (Mem.holds_cons.mp hholds).1
    have hload : (args.rooted q).src.loadBefore (previous + 1) = ret pathSeparator :=
      Mem.load_eq_ret.mpr hfirst
    rw [hstart] at hload
    simp [hload, hstart]
  · have hload : (args.rooted q).src.loadBefore (previous + 1) =
        args.src.loadBefore (previous + 1) := by
      exact hl.load_rooted (by omega)
    simp [hload, hstart]

private theorem RelativeLayout.relativeRef_rooted (hl : RelativeLayout args q)
    (hle : args.inputPath ≤ scanPos) :
    foundRelativeRef (args.rooted q).src (args.rooted q).inputPath scanPos =
      foundRelativeRef args.src args.inputPath scanPos := by
  rw [foundRelativeRef, foundRelativeRef, hl.behind_rooted hle, hl.load_rooted (by omega)]

private theorem RelativeLayout.parentRef_rooted (hl : RelativeLayout args q)
    (hle : args.inputPath ≤ scanPos) :
    foundParentRef (args.rooted q).src (args.rooted q).inputPath scanPos =
      foundParentRef args.src args.inputPath scanPos := by
  rw [foundParentRef, foundParentRef, hl.behind_rooted hle, hl.load_rooted (by omega),
    hl.load_rooted (by omega)]

private theorem RelativeLayout.skipSeparators_rooted (hl : RelativeLayout args q)
    (hle : args.inputPath ≤ scanPos) (fuel : Nat) :
    loop (skipSeparatorsBody (args.rooted q).src) fuel scanPos =
      loop (skipSeparatorsBody args.src) fuel scanPos := by
  induction fuel generalizing scanPos with
  | zero => rfl
  | succ fuel ih =>
    have hload := hl.load_rooted (show args.inputPath ≤ scanPos + 1 by omega)
    cases hone : args.src.load (scanPos + 1) with
    | ret one =>
      rw [hone] at hload
      by_cases hsep : one = pathSeparator
      · have hbody : skipSeparatorsBody args.src scanPos = ret (.inl (scanPos + 1)) := by
          simp [skipSeparatorsBody, hone, hsep]
        have hbody' : skipSeparatorsBody (args.rooted q).src scanPos = ret (.inl (scanPos + 1)) := by
          simp [skipSeparatorsBody, hload, hsep]
        rw [loop_next fuel hbody, loop_next fuel hbody']
        exact ih (by omega)
      · have hbody : skipSeparatorsBody args.src scanPos = ret (.inr scanPos) := by
          simp [skipSeparatorsBody, hone, hsep]
        have hbody' : skipSeparatorsBody (args.rooted q).src scanPos = ret (.inr scanPos) := by
          simp [skipSeparatorsBody, hload, hsep]
        rw [loop_done fuel hbody, loop_done fuel hbody']
    | fault =>
      rw [hone] at hload
      have hbody : skipSeparatorsBody args.src scanPos = fault := by
        simp [skipSeparatorsBody, hone]
      have hbody' : skipSeparatorsBody (args.rooted q).src scanPos = fault := by
        simp [skipSeparatorsBody, hload]
      rw [loop_fault fuel hbody, loop_fault fuel hbody']
    | outOfFuel => exact absurd hone (args.src.load_ne_outOfFuel _)

private theorem RelativeLayout.writeChar_rooted (hl : RelativeLayout args q)
    (hbuffer : IsBuffer c.dst args.outPath args.outLen) (hlo : args.outPath ≤ c.writePos)
    (hhi : c.writePos ≤ args.outPath + args.outLen) (hle : args.inputPath ≤ scanPos) :
    normalizeWriteChar (args.rooted q) (c.rooted args.outPath) scanPos =
      (normalizeWriteChar args c scanPos).map
        (Sum.map (Cursor.rooted args.outPath) (NormalizeReturn.rooted args.outPath)) := by
  have hin := hl.inputPath
  have hside := hl.side
  have hend := hl.outEnd
  have hsrc := hl.src_rooted hle
  cases hbyte : args.src scanPos with
  | none =>
    rw [hbyte] at hsrc
    simp [normalizeWriteChar, platformWriteCharTo, libdUtf8WriteChar, Mem.load, hbyte, hsrc]
  | some b =>
    rw [hbyte] at hsrc
    have hcopy : (rootedMem args.outPath c.dst).copy c.writePos (args.rooted q).src scanPos
        (libdUtf8CharLen b).toNat =
          (c.dst.copy c.writePos args.src scanPos (libdUtf8CharLen b).toNat).map
            (rootedMem args.outPath) := by
      rw [Mem.copy_congr _ _ fun x hx _ => hl.src_rooted (hle.trans hx)]
      exact Mem.copy_update pathSeparator (by omega)
    have hwrite : (c.rooted args.outPath).writePos = c.writePos := rfl
    have hdst : (c.rooted args.outPath).dst = rootedMem args.outPath c.dst := rfl
    rw [normalizeWriteChar, normalizeWriteChar, platformWriteCharTo_eq hbyte,
      platformWriteCharTo_eq hsrc, hwrite, hdst, hcopy]
    cases hrun : c.dst.copy c.writePos args.src scanPos (libdUtf8CharLen b).toNat with
    | fault => rfl
    | outOfFuel => rfl
    | ret after =>
      -- the character fits into the buffer, so neither difference wraps around
      have hroom : c.writePos + (libdUtf8CharLen b).toNat ≤ args.outPath + args.outLen := by
        obtain ⟨bytes, hlen, -, hholds, -, hsome⟩ := Mem.copy_run hrun
        by_cases hzero : (libdUtf8CharLen b).toNat = 0
        · omega
        · have hlt : (libdUtf8CharLen b).toNat - 1 < bytes.length := by omega
          have hlast := hholds _ _ (List.getElem?_eq_getElem hlt)
          have hmapped := hsome (c.writePos + ((libdUtf8CharLen b).toNat - 1))
          rw [hlast, hbuffer] at hmapped
          have hin : args.outPath ≤ c.writePos + ((libdUtf8CharLen b).toNat - 1) ∧
              c.writePos + ((libdUtf8CharLen b).toNat - 1) < args.outPath + args.outLen := by
            simpa using hmapped.symm
          omega
      obtain ⟨n, hn⟩ := Nat.exists_eq_add_of_le
        (show args.outPath ≤ c.writePos + (libdUtf8CharLen b).toNat by omega)
      have hn' : c.writePos + (libdUtf8CharLen b).toNat = args.outPath - 1 + (n + 1) := by omega
      have hdiff : ptrDiff (c.writePos + (libdUtf8CharLen b).toNat) args.outPath = n := by
        rw [hn, ptrDiff_eq (by omega)]
      have hdiff' : ptrDiff (c.writePos + (libdUtf8CharLen b).toNat) (args.outPath - 1) = n + 1 := by
        rw [hn', ptrDiff_eq (by omega)]
      have hfull : (args.rooted q).outLen ≤ ptrDiff (c.writePos + (libdUtf8CharLen b).toNat)
          (args.rooted q).outPath ↔ args.outLen ≤ ptrDiff (c.writePos + (libdUtf8CharLen b).toNat)
          args.outPath := by
        show args.outLen + 1 ≤ ptrDiff _ (args.outPath - 1) ↔ _
        rw [hdiff, hdiff']
        exact Nat.add_le_add_iff_right
      rw [map_ret, ret_bind, ret_bind, ret_bind, ret_bind]
      dsimp only
      by_cases hlast : args.outLen ≤ ptrDiff (c.writePos + (libdUtf8CharLen b).toNat) args.outPath
      · rw [if_pos hlast, if_pos (hfull.mpr hlast)]
        rfl
      · rw [if_neg hlast, if_neg (hfull.not.mpr hlast)]
        rfl

private theorem dropName_rooted {dst : Mem} {outPath inputPath writePos x : Nat}
    (hpos : 0 < outPath) (hside : inputPath < outPath) (hlo : outPath ≤ x) (hx : x < writePos)
    (hsep : dst x = some pathSeparator) (fuel : Nat) :
    loop (dropNameBody (rootedMem outPath dst) (inputPath - 1)) fuel writePos =
      loop (dropNameBody dst inputPath) fuel writePos := by
  induction fuel generalizing writePos with
  | zero => rfl
  | succ fuel ih =>
    obtain ⟨previous, rfl⟩ := Nat.exists_eq_succ_of_ne_zero (by omega : writePos ≠ 0)
    have hload : (rootedMem outPath dst).loadBefore (previous + 1) = dst.loadBefore (previous + 1) := by
      show Mem.load _ _ = Mem.load _ _
      rw [Mem.load, Mem.load, rootedMem_of_le dst hpos (by omega)]
    have hbody : dropNameBody (rootedMem outPath dst) (inputPath - 1) (previous + 1) =
        dropNameBody dst inputPath (previous + 1) := by
      have hbound : inputPath - 1 < previous + 1 := by omega
      have hbound' : inputPath < previous + 1 := by omega
      rw [dropNameBody, dropNameBody, hload]
      simp only [hbound, hbound', decide_true]
    cases hbefore : dst previous with
    | none =>
      have hfault : dropNameBody dst inputPath (previous + 1) = fault := by
        simp [dropNameBody, Mem.loadBefore, Mem.load, hbefore]
      rw [loop_fault fuel hfault, loop_fault fuel (hbody.trans hfault)]
    | some b =>
      have hread : dst.loadBefore (previous + 1) = ret b := Mem.load_eq_ret.mpr hbefore
      by_cases hb : b = pathSeparator
      · have hstop : dropNameBody dst inputPath (previous + 1) = ret (.inr (previous + 1)) := by
          simp [dropNameBody, hread, hb]
        rw [loop_done fuel hstop, loop_done fuel (hbody.trans hstop)]
      · have hgo : dropNameBody dst inputPath (previous + 1) = ret (.inl previous) := by
          have hbound : inputPath < previous + 1 := by omega
          simp [dropNameBody, hread, hb, hbound]
        have hne : previous ≠ x := by
          rintro rfl
          rw [hsep] at hbefore
          cases hbefore
          exact hb rfl
        rw [loop_next fuel hgo, loop_next fuel (hbody.trans hgo)]
        exact ih (by omega)

/-- The cursor is at a parent reference. -/
structure AtParentRef (args : NormalizeArgs) (c : Cursor) : Prop where
  byte : args.src c.scanPos = some dot
  relative : foundRelativeRef args.src args.inputPath c.scanPos = ret false
  parent : foundParentRef args.src args.inputPath c.scanPos = ret true

/-- At a parent reference nothing has been written, or a separator lies in front of the last byte. -/
def DropsWithin (args : NormalizeArgs) (c : Cursor) : Prop :=
  AtParentRef args c → c.writePos = args.outPath ∨ SeparatorInFront args c

private theorem RelativeLayout.switch_rooted (hl : RelativeLayout args q)
    (hle : args.inputPath ≤ c.scanPos) (hdrop : DropsWithin args c) (fuel : Nat) {byte : UInt8}
    (hbyte : args.src c.scanPos = some byte) :
    normalizeSwitch (args.rooted q) fuel (args.outPath - 1) (c.rooted args.outPath) byte =
      (normalizeSwitch args fuel args.outPath c byte).map (SwitchExit.rooted args.outPath) := by
  have hside := hl.side
  have hscan : (c.rooted args.outPath).scanPos = c.scanPos := rfl
  have hwrite : (c.rooted args.outPath).writePos = c.writePos := rfl
  rw [normalizeSwitch, normalizeSwitch, hscan, hwrite]
  by_cases hsep : (byte == pathSeparator) = true
  · rw [if_pos hsep, if_pos hsep, hl.skipSeparators_rooted hle]
    cases loop (skipSeparatorsBody args.src) fuel c.scanPos with
    | ret r => rfl
    | fault => rfl
    | outOfFuel => rfl
  rw [if_neg hsep, if_neg hsep]
  by_cases hdot : (byte == dot) = true
  · rw [if_pos hdot, if_pos hdot, hl.relativeRef_rooted hle, hl.parentRef_rooted hle]
    cases hrelative : foundRelativeRef args.src args.inputPath c.scanPos with
    | fault => rfl
    | outOfFuel => rfl
    | ret relative =>
      rw [ret_bind, ret_bind]
      cases relative with
      | true => rfl
      | false =>
        cases hparent : foundParentRef args.src args.inputPath c.scanPos with
        | fault => rfl
        | outOfFuel => rfl
        | ret parent =>
          cases parent with
          | false => rfl
          | true =>
            simp only [Bool.false_eq_true, if_false, ret_bind, if_true]
            have hbyte' : args.src c.scanPos = some dot := by rw [hbyte, beq_iff_eq.mp hdot]
            cases hdrop ⟨hbyte', hrelative, hparent⟩ with
            | inl hnone =>
              have hfirst : c.writePos - 1 = args.outPath - 1 := by omega
              simp [hnone, SwitchExit.rooted]
            | inr hfront =>
              obtain ⟨x, hlo, hhi, hx⟩ := hfront
              have hnot : ¬(c.writePos == args.outPath || c.writePos - 1 == args.outPath) = true := by
                simp
                omega
              have hnot' : ¬(c.writePos == args.outPath - 1 ||
                  c.writePos - 1 == args.outPath - 1) = true := by
                simp
                omega
              have hloop : loop (dropNameBody (c.rooted args.outPath).dst
                    (platformFilepathEndOfPrefix (args.rooted q).inputPath)) fuel (c.writePos - 1) =
                  loop (dropNameBody c.dst (platformFilepathEndOfPrefix args.inputPath)) fuel
                    (c.writePos - 1) :=
                dropName_rooted (by omega) hside hlo (by omega) hx fuel
              rw [if_neg hnot, if_neg hnot', hloop]
              cases loop (dropNameBody c.dst (platformFilepathEndOfPrefix args.inputPath)) fuel
                (c.writePos - 1) with
              | ret r => rfl
              | fault => rfl
              | outOfFuel => rfl
  · rw [if_neg hdot, if_neg hdot]
    rfl

/-- A round does the same below the root, unless it drops a component with nothing in front. -/
theorem RelativeLayout.body_rooted (hl : RelativeLayout args q)
    (hbuffer : IsBuffer c.dst args.outPath args.outLen) (hlo : args.outPath ≤ c.writePos)
    (hhi : c.writePos ≤ args.outPath + args.outLen) (hle : args.inputPath ≤ c.scanPos)
    (hdrop : DropsWithin args c) (fuel : Nat) :
    normalizeBody (args.rooted q) fuel (args.outPath - 1) (c.rooted args.outPath) =
      (normalizeBody args fuel args.outPath c).map
        (Sum.map (Cursor.rooted args.outPath) (NormalizeReturn.rooted args.outPath)) := by
  have hside := hl.side
  have hscan : (c.rooted args.outPath).scanPos = c.scanPos := rfl
  rw [normalizeBody, normalizeBody, hscan, hl.load_rooted hle]
  cases hbyte : args.src.load c.scanPos with
  | fault => rfl
  | outOfFuel => rfl
  | ret byte =>
    rw [ret_bind, ret_bind]
    by_cases hnul : (byte == nullTerminator) = true
    · rw [if_pos hnul, if_pos hnul]
      have hdst : (c.rooted args.outPath).dst = rootedMem args.outPath c.dst := rfl
      have hsame : rootedMem args.outPath c.dst c.writePos = c.dst c.writePos :=
        rootedMem_of_le c.dst (by omega) hlo
      have hwrite : (c.rooted args.outPath).writePos = c.writePos := rfl
      rw [hdst, hwrite]
      cases hold : c.dst c.writePos with
      | none =>
        rw [hold] at hsame
        rw [Mem.store_eq_fault hold, Mem.store_eq_fault hsame]
        rfl
      | some old =>
        rw [hold] at hsame
        have hne : args.outPath - 1 ≠ c.writePos := by omega
        rw [Mem.store_eq_ret (by rw [hsame]; rfl), Mem.store_eq_ret (by rw [hold]; rfl), rootedMem,
          Function.update_comm hne]
        rfl
    · rw [if_neg hnul, if_neg hnul, hl.switch_rooted hle hdrop fuel (Mem.load_eq_ret.mp hbyte)]
      cases hswitch : normalizeSwitch args fuel args.outPath c byte with
      | fault => rfl
      | outOfFuel => rfl
      | ret exit =>
        cases exit with
        | writeChar scanPos =>
          have hge : args.inputPath ≤ scanPos := by
            cases normalizeSwitch_cases (Mem.load_eq_ret.mp hbyte) hswitch with
            | writeChar hscanPos _ => exact hle.trans hscanPos
          exact hl.writeChar_rooted hbuffer hlo hhi hge
        | continueLoop next => rfl
        | invalidPath => rfl

theorem Tracks.atParentRef (hl : RelativeLayout args q) {behind : Bool} {rest output : List UInt8}
    (h : Tracks (args.rooted q) (pathSeparator :: q) behind rest output (c.rooted args.outPath))
    (hle : args.inputPath ≤ c.scanPos) :
    AtParentRef args c ↔ ∃ behind' rest', readNext behind rest = .act .parent behind' rest' := by
  have hscans : Scans (args.rooted q) (pathSeparator :: q) behind rest c.scanPos := h.scans
  constructor
  · intro hat
    cases rest with
    | nil =>
      have hout := hscans.outside hl.rooted
      rw [List.length_nil, Nat.add_zero, hl.src_rooted hle, hat.byte] at hout
      cases hout
    | cons b rest =>
      have hb := (Mem.holds_cons.mp (hscans.holds hl.rooted)).1
      rw [hl.src_rooted hle, hat.byte, Option.some.injEq] at hb
      subst hb
      have hends := foundRelativeRef_spec hl.rooted hscans (by decide)
      have hdots := foundParentRef_spec hl.rooted hscans (by decide)
      rw [hl.relativeRef_rooted hle, hat.relative] at hends
      rw [hl.parentRef_rooted hle, hat.parent] at hdots
      simp only [ret.injEq] at hends hdots
      simp [readNext, dot_ne_nullTerminator, dot_ne_pathSeparator, ← hends, ← hdots]
  · rintro ⟨behind', rest', hstep⟩
    have hcase := readNext_cases behind rest
    rw [hstep] at hcase
    cases hcase with
    | parent rest hbehind hends hdots =>
      have hb := (Mem.holds_cons.mp (hscans.holds hl.rooted)).1
      rw [hl.src_rooted hle] at hb
      have hrelative := foundRelativeRef_spec hl.rooted hscans (by decide)
      have hparent := foundParentRef_spec hl.rooted hscans (by decide)
      rw [hl.relativeRef_rooted hle, hends, Bool.and_false] at hrelative
      rw [hl.parentRef_rooted hle, hbehind, hdots] at hparent
      exact ⟨hb, hrelative, hparent⟩

theorem AtParentRef.invalid (h : AtParentRef args c) (hone : c.writePos = args.outPath + 1)
    (fuel : Nat) : normalizeBody args fuel args.outPath c =
      ret (.inr { result := .invalidPath, dst := c.dst }) := by
  simp [normalizeBody, normalizeSwitch, Mem.load_eq_ret.mpr h.byte, h.relative, h.parent, hone,
    dot_ne_nullTerminator, dot_ne_pathSeparator]

theorem AtParentRef.leaves (h : AtParentRef args c) (hside : args.inputPath < args.outPath)
    (hbelow : ∀ x, x < args.outPath → c.dst x = none) {n : Nat}
    (hwrite : c.writePos = args.outPath + (n + 1)) (hlong : 0 < n)
    (hnone : ∀ x, args.outPath ≤ x → x < args.outPath + n → c.dst x ≠ some pathSeparator)
    {fuel : Nat} (hfuel : n < fuel) : normalizeBody args fuel args.outPath c = fault := by
  have hscan : loop (dropNameBody c.dst args.inputPath) fuel (args.outPath + n) = fault := by
    have hleaves := dropName_leaves hbelow hside hnone
    have hne : loop (dropNameBody c.dst args.inputPath) (n + 1) (args.outPath + n) ≠ outOfFuel := by
      simp [hleaves]
    exact (Settled.loop (fun w => settled_const (dropNameBody c.dst args.inputPath w)) _ _ _ hfuel
      hne).trans hleaves
  have hfirst : c.writePos ≠ args.outPath := by omega
  have hsecond : n ≠ 0 := hlong.ne'
  have hpos : c.writePos - 1 = args.outPath + n := by omega
  simp only [normalizeBody, normalizeSwitch, Mem.load_eq_ret.mpr h.byte, h.relative, h.parent,
    ret_bind, hpos, platformFilepathEndOfPrefix, hscan]
  simp [dot_ne_nullTerminator, dot_ne_pathSeparator, hfirst, hsecond]

end Rooted

end Libdane
