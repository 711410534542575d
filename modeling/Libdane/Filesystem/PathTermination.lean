import Libdane.Filesystem.PathResolution

/-!
# Termination

A round that goes on moves the scan position by the length of what it has read, so the main loop
ends because addresses do. Only a byte that is no first byte of a character has no length.
-/

namespace Libdane

open ByteMachine ByteMachine.Exec

/-- The input is a NUL-terminated string. The memory behind its terminator is arbitrary, but an
address has 64 bits. -/
structure Terminated (args : NormalizeArgs) (p : List UInt8) : Prop where
  text : args.src.Holds args.inputPath (p ++ [nullTerminator])
  noNul : nullTerminator ∉ p
  addresses : ∀ x, 2 ^ 64 ≤ x → args.src x = none

/-- A byte without length is read and the output is not full. -/
def StandsStill (args : NormalizeArgs) (c : Cursor) : Prop :=
  ∃ b, args.src c.scanPos = some b ∧ (libdUtf8CharLen b).toNat = 0 ∧
    ptrDiff c.writePos args.outPath < args.outLen

/-- Some amount of fuel is enough for the call, and every round that goes on advances the scan
position. -/
structure Terminates (args : NormalizeArgs) (dst : Mem) : Prop where
  ends : ∃ fuel, libdFilesystemFilepathNormalize args dst fuel ≠ outOfFuel
  advances : ∀ c next, Reached args dst c → Round args c next → c.scanPos < next.scanPos

section Rounds

variable {args : NormalizeArgs} {p : List UInt8} {dst : Mem} {c next : Cursor}

private theorem StandsStill.body (h : StandsStill args c) (fuel : Nat) :
    normalizeBody args fuel args.outPath c = ret (.inl c) := by
  obtain ⟨b, hbyte, hzero, hroom⟩ := h
  have hlen : (libdUtf8CharLen b).toNat ≠ 1 := by omega
  rw [normalizeBody_write hbyte (ne_nullTerminator_of_charLen hlen)
    (normalizeSwitch_of_charLen hlen _ _), normalizeWriteChar, platformWriteCharTo_eq hbyte]
  simp only [hzero, Mem.copy, ret_bind, Nat.add_zero]
  rw [if_neg (by omega)]

private theorem Reached.never_ends (hc : Reached args dst c) (h : StandsStill args c) (fuel : Nat) :
    loop (normalizeBody args fuel args.outPath) fuel (startCursor args dst) = outOfFuel := by
  have hbody := normalizeBody_settled args args.outPath
  obtain ⟨n, enough, hrun⟩ := hc.visits.run hbody
  by_contra hne
  have hsame := Settled.loop hbody (startCursor args dst) fuel (fuel + enough + n) (by omega) hne
  apply hne
  apply hsame.symm.trans
  show loop (normalizeBody args (fuel + enough + n) args.outPath) (fuel + enough + n) _ = _
  rw [hrun _ (by omega), loop_stuck (h.body _)]

private theorem Round.advances (h : Round args c next) (hmoves : ¬StandsStill args c) :
    c.scanPos < next.scanPos := by
  cases h.cases with
  | @write b scanPos next hbyte hb hle hskip hwrite =>
    obtain ⟨lead, hlead, -, hwritePos, hscanPos, hroom⟩ := writeChar_run hwrite
    cases Nat.lt_or_ge c.scanPos scanPos with
    | inl hlt => omega
    | inr hge =>
      have hsame : scanPos = c.scanPos := by omega
      by_contra hstay
      have hzero : (libdUtf8CharLen lead).toNat = 0 := by omega
      rw [hwritePos, hzero, Nat.add_zero] at hroom
      exact hmoves ⟨lead, hsame ▸ hlead, hzero, hroom⟩
  | relative => exact Nat.lt_add_of_pos_right (by decide)
  | parent => exact Nat.lt_add_of_pos_right (by decide)

private theorem Terminated.lt_two_pow (hl : Terminated args p) {b : UInt8} {x : Nat}
    (hbyte : args.src x = some b) : x < 2 ^ 64 := by
  by_contra hge
  rw [hl.addresses x (Nat.le_of_not_lt hge)] at hbyte
  cases hbyte

private theorem Round.scanPos_lt (hl : Terminated args p) (h : Round args c next) :
    c.scanPos < 2 ^ 64 := by
  obtain ⟨_, _, _, hbyte, -⟩ := h.exit
  exact hl.lt_two_pow hbyte

private theorem skipSeparators_ends (hl : Terminated args p) {fuel : Nat} (hfuel : 2 ^ 64 < fuel)
    (scanPos : Nat) : loop (skipSeparatorsBody args.src) fuel scanPos ≠ outOfFuel := by
  apply @loop_ends _ _ (fun _ => skipSeparatorsBody args.src) (fun s => 2 ^ 64 - s) 0
  · intro s _
    apply bind_ne_outOfFuel (args.src.load_ne_outOfFuel _)
    simp
  · intro s next _ hgoes
    obtain ⟨_, hgoes⟩ := hgoes
    cases skipSeparators_step hgoes with
    | inl hskip =>
      have haddress := hl.lt_two_pow hskip.1
      cases hskip.2
      omega
    | inr hstop => cases hstop
  · omega

private theorem dropName_ends (dst : Mem) (pathStart : Nat) {fuel writePos : Nat}
    (hfuel : writePos < fuel) :
    loop (dropNameBody dst pathStart) fuel writePos ≠ outOfFuel := by
  apply @loop_ends _ _ (fun _ => dropNameBody dst pathStart) (fun w => w) 0
  · intro w _
    apply bind_ne_outOfFuel (dst.loadBefore_ne_outOfFuel _)
    simp
  · intro w next _ hgoes
    obtain ⟨_, hgoes⟩ := hgoes
    cases dropName_step hgoes with
    | inl hgo =>
      obtain ⟨below, rfl, -, hnext⟩ := hgo
      cases hnext
      exact Nat.lt_succ_self next
    | inr hstop => cases hstop
  · exact hfuel

private theorem behindSatisfied_ne_outOfFuel (src : Mem) (path scanPos : Nat) :
    behindSatisfied src path scanPos ≠ outOfFuel := by
  unfold behindSatisfied
  split
  · simp
  · apply bind_ne_outOfFuel (src.loadBefore_ne_outOfFuel _)
    simp

private theorem foundRelativeRef_ne_outOfFuel (src : Mem) (path scanPos : Nat) :
    foundRelativeRef src path scanPos ≠ outOfFuel := by
  apply bind_ne_outOfFuel (behindSatisfied_ne_outOfFuel src path scanPos)
  intro behind _
  apply bind_ne_outOfFuel (src.load_ne_outOfFuel _)
  simp

private theorem foundParentRef_ne_outOfFuel (src : Mem) (path scanPos : Nat) :
    foundParentRef src path scanPos ≠ outOfFuel := by
  apply bind_ne_outOfFuel (src.load_ne_outOfFuel _)
  intro one _
  split
  · simp
  apply bind_ne_outOfFuel (behindSatisfied_ne_outOfFuel src path scanPos)
  intro behind _
  apply bind_ne_outOfFuel (src.load_ne_outOfFuel _)
  simp

private theorem normalizeSwitch_ends (hl : Terminated args p) {fuel : Nat} (hfuel : 2 ^ 64 < fuel)
    (hwrite : c.writePos < fuel) (start : Nat) (byte : UInt8) :
    normalizeSwitch args fuel start c byte ≠ outOfFuel := by
  unfold normalizeSwitch
  split
  · apply bind_ne_outOfFuel (skipSeparators_ends hl hfuel c.scanPos)
    simp
  split
  · apply bind_ne_outOfFuel (foundRelativeRef_ne_outOfFuel _ _ _)
    intro relative _
    split
    · simp
    apply bind_ne_outOfFuel (foundParentRef_ne_outOfFuel _ _ _)
    intro parent _
    split
    · split
      · simp
      · apply bind_ne_outOfFuel (dropName_ends c.dst _ (by omega))
        simp
    · simp
  · simp

private theorem normalizeWriteChar_ends (args : NormalizeArgs) (c : Cursor) (scanPos : Nat) :
    normalizeWriteChar args c scanPos ≠ outOfFuel := by
  have hchar : platformWriteCharTo c.dst c.writePos args.src scanPos ≠ outOfFuel := by
    apply bind_ne_outOfFuel (args.src.load_ne_outOfFuel scanPos)
    intro lead _
    apply bind_ne_outOfFuel (c.dst.copy_ne_outOfFuel _ _ _ _)
    simp
  apply bind_ne_outOfFuel hchar
  intro written _
  simp only
  split <;> simp

private theorem normalizeBody_ends (hl : Terminated args p) {fuel : Nat} (hfuel : 2 ^ 64 < fuel)
    (hwrite : c.writePos < fuel) (start : Nat) : normalizeBody args fuel start c ≠ outOfFuel := by
  apply bind_ne_outOfFuel (args.src.load_ne_outOfFuel c.scanPos)
  intro byte _
  split
  · apply bind_ne_outOfFuel (c.dst.store_ne_outOfFuel _ _)
    simp
  · apply bind_ne_outOfFuel (normalizeSwitch_ends hl hfuel hwrite start byte)
    intro exit _
    cases exit with
    | writeChar scanPos => exact normalizeWriteChar_ends args c scanPos
    | continueLoop c => simp
    | invalidPath => simp

end Rounds

/-- The call terminates exactly when no round stands still. -/
theorem normalize_terminates_iff (p : List UInt8) (args : NormalizeArgs) (dst : Mem)
    (hl : Terminated args p) :
    Terminates args dst ↔ ∀ c, Reached args dst c → ¬StandsStill args c := by
  constructor
  · intro h c hc hstill
    exact Nat.lt_irrefl _ (h.advances c c hc ⟨0, hstill.body 0⟩)
  · intro h
    have hadvances : ∀ c next, Reached args dst c → Round args c next →
        c.scanPos < next.scanPos := fun c next hc hround => hround.advances (h c hc)
    refine ⟨?_, hadvances⟩
    by_cases henters : Enters args
    · -- the write position stays below this amount of fuel while the scan position is an address
      refine ⟨args.outPath + 2 ^ 64 + 2 ^ 64 + 1, ?_⟩
      rw [henters.normalize_eq dst (by omega)]
      apply loop_ends (fun fuel => normalizeBody args fuel args.outPath) fun c => 2 ^ 64 - c.scanPos
      · intro c hc
        cases Nat.lt_or_ge c.scanPos (2 ^ 64) with
        | inl hlt =>
          have hle := Reached.output_le ⟨henters, hc⟩
          exact normalizeBody_ends hl (by omega) (by omega) _
        | inr hge =>
          have hload : args.src.load c.scanPos = fault := by
            rw [Mem.load, hl.addresses _ hge]
          rw [normalizeBody, hload]
          simp
      · intro c next hc hround
        have hlt := hadvances c next ⟨henters, hc⟩ hround
        have haddress := Round.scanPos_lt hl hround
        show 2 ^ 64 - next.scanPos < 2 ^ 64 - c.scanPos
        omega
      · show 2 ^ 64 - args.inputPath < _
        omega
    · refine ⟨0, ?_⟩
      rw [normalize_of_not_enters henters]
      split
      · simp
      · apply bind_ne_outOfFuel (args.src.load_ne_outOfFuel _)
        simp

/-- A call on a string with other bytes behind its terminator. -/
def callBefore (p behind : List UInt8) (inputPath outPath outLen : Nat) : NormalizeArgs :=
  { src := Mem.ofBytes inputPath (p ++ nullTerminator :: behind), outPath := outPath,
    outLen := outLen, inputPath := inputPath }

theorem terminated_callBefore {p behind : List UInt8} (hnul : nullTerminator ∉ p) {inputPath : Nat}
    (hend : inputPath + p.length + behind.length + 1 ≤ 2 ^ 64) (outPath outLen : Nat) :
    Terminated (callBefore p behind inputPath outPath outLen) p := by
  have hall := Mem.holds_ofBytes inputPath (p ++ nullTerminator :: behind)
  rw [← List.singleton_append, ← List.append_assoc, Mem.holds_append, List.append_assoc,
    List.singleton_append] at hall
  refine ⟨hall.1, hnul, ?_⟩
  intro x hx
  show Mem.ofBytes inputPath (p ++ nullTerminator :: behind) x = none
  rw [Mem.ofBytes, if_pos (by omega), List.getElem?_eq_none]
  rw [List.length_append, List.length_cons]
  omega

theorem normalize_terminates_iff_parent :
    Terminates (callOn parentPath 16 64 16) (zeroBuffer 64 16) := by
  have hl : Terminated (callOn parentPath 16 64 16) parentPath :=
    terminated_callBefore (by decide) (by decide) 64 16
  apply (normalize_terminates_iff parentPath _ (zeroBuffer 64 16) hl).mpr
  intro c _ hstill
  obtain ⟨b, hbyte, hzero, -⟩ := hstill
  -- every byte of the path has a length
  have hall : (inputText parentPath).all fun b => (libdUtf8CharLen b).toNat != 0 := by decide
  obtain ⟨k, -, -, hk⟩ := Mem.ofBytes_eq_some hbyte
  have hlen := List.all_eq_true.mp hall b (List.mem_of_getElem? hk)
  rw [hzero] at hlen
  cases hlen

/-- `"/"` and a continuation byte. -/
def strayBytePath : List UInt8 := [47, 128]

/-- The stray byte has no length, so it is copied without progress for ever. -/
theorem normalize_terminates_fails :
    Terminated (callOn strayBytePath 16 64 16) strayBytePath ∧ IsBuffer (zeroBuffer 64 16) 64 16 ∧
      (∀ fuel, libdFilesystemFilepathNormalize (callOn strayBytePath 16 64 16) (zeroBuffer 64 16)
        fuel = outOfFuel) ∧
      ¬Terminates (callOn strayBytePath 16 64 16) (zeroBuffer 64 16) := by
  have hl : Terminated (callOn strayBytePath 16 64 16) strayBytePath :=
    terminated_callBefore (by decide) (by decide) 64 16
  have henters : Enters (callOn strayBytePath 16 64 16) :=
    ⟨by decide, by decide, by decide, 47, rfl, by decide⟩
  have hreached : Reached (callOn strayBytePath 16 64 16) (zeroBuffer 64 16)
      { dst := Function.update (zeroBuffer 64 16) 64 (some 47), writePos := 65, scanPos := 17 } :=
    (Reached.start henters _).next ⟨1, rfl⟩
  have hstill : StandsStill (callOn strayBytePath 16 64 16)
      { dst := Function.update (zeroBuffer 64 16) 64 (some 47), writePos := 65, scanPos := 17 } :=
    ⟨128, rfl, by decide, by decide⟩
  have hnever : ∀ fuel, libdFilesystemFilepathNormalize (callOn strayBytePath 16 64 16)
      (zeroBuffer 64 16) fuel = outOfFuel := by
    intro fuel
    cases fuel with
    | zero => rfl
    | succ fuel =>
      rw [henters.normalize_eq _ (Nat.succ_pos fuel)]
      exact hreached.never_ends hstill _
  refine ⟨hl, isBuffer_zeroBuffer 64 16, hnever, ?_⟩
  intro h
  obtain ⟨fuel, hfuel⟩ := h.ends
  exact hfuel (hnever fuel)

end Libdane
