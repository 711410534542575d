import Libdane.Filesystem.PathDotFree

/-!
# The high end of the output

The capacity is tested behind every copied character. A single byte always fits, since the test
leaves room for one, but a longer character can begin in the buffer and end behind it.
-/

namespace Libdane

open ByteMachine ByteMachine.Exec

/-- A character of several bytes is met when fewer bytes are left in the buffer. -/
def OverrunsBuffer (args : NormalizeArgs) (c : Cursor) : Prop :=
  ∃ lead, args.src c.scanPos = some lead ∧ 1 < (libdUtf8CharLen lead).toNat ∧
    args.outPath + args.outLen < c.writePos + (libdUtf8CharLen lead).toNat

section Capacity

variable {args : NormalizeArgs} {p : List UInt8} {side : Side} {dst : Mem} {c : Cursor}
  {behind behind' : Bool} {rest rest' output bytes : List UInt8}

/-- On text every state of the main loop is tracked by the reading. -/
private theorem Reached.tracks (hl : Layout args p side)
    (hbuffer : IsBuffer dst args.outPath args.outLen) (htext : IsText p) (h : Reached args dst c) :
    ∃ behind rest output, IsRest IsText rest ∧ Tracks args p behind rest output c := by
  apply h.invariant (P := fun c => ∃ behind rest output, IsRest IsText rest ∧
    Tracks args p behind rest output c)
  · exact ⟨true, inputText p, [], Or.inr ⟨p, rfl, hl.noNul, htext⟩,
      Tracks.start hl hbuffer h.enters.outLen⟩
  · intro c next _ ih hround
    obtain ⟨behind, rest, output, hrest, htracks⟩ := ih
    obtain ⟨enough, hgoes⟩ := Goes.converges (normalizeBody_settled args args.outPath) hround
    have hnext : normalizeBody args (max enough (enoughFuel args p)) args.outPath c =
        ret (.inl next) := hgoes _ (le_max_left _ _)
    have hfuel : enoughFuel args p ≤ max enough (enoughFuel args p) := le_max_right _ _
    have hround := htracks.round hl
    generalize hstep : readNext behind rest = step at hround
    cases hround with
    | stop hholds hbody =>
      rw [hbody _ hfuel] at hnext
      cases hnext
    | stuck => exact absurd hstep hrest.not_stuck
    | copy hroom hafter hbody =>
      rw [hbody _ hfuel] at hnext
      cases hnext
      exact ⟨_, _, _, hrest.text_step hstep, hafter⟩
    | full hroom hbody =>
      cases hbody _ hfuel with
      | inl hfault =>
        rw [hfault] at hnext
        cases hnext
      | inr herr =>
        obtain ⟨_, herr⟩ := herr
        rw [herr] at hnext
        cases hnext
    | skip hafter hbody =>
      rw [hbody _ hfuel] at hnext
      cases hnext
      exact ⟨_, _, _, hrest.text_step hstep, hafter⟩
    | parent hlen hafter hbody =>
      rw [hbody _ hfuel] at hnext
      cases hnext
      exact ⟨_, _, _, hrest.text_step hstep, hafter⟩
    | invalid hlen hbody =>
      rw [hbody _ hfuel] at hnext
      cases hnext

private theorem OverrunsBuffer.fault (hbuffer : IsBuffer c.dst args.outPath args.outLen)
    (h : OverrunsBuffer args c) (fuel : Nat) : normalizeBody args fuel args.outPath c = fault := by
  obtain ⟨lead, hbyte, hlong, hover⟩ := h
  have hlen : (libdUtf8CharLen lead).toNat ≠ 1 := by omega
  rw [normalizeBody_write hbyte (ne_nullTerminator_of_charLen hlen)
    (normalizeSwitch_of_charLen hlen _ _)]
  exact writeChar_overrun hbuffer hbyte (by omega) hover

theorem Tracks.full_ends (hl : Layout args p side) (h : Tracks args p behind rest output c)
    (hstep : readNext behind rest = .act (.copy bytes) behind' rest')
    (hroom : args.outLen ≤ output.length + bytes.length) (hfits : ¬OverrunsBuffer args c)
    {fuel : Nat} (hfuel : enoughFuel args p ≤ fuel) :
    normalizeBody args fuel args.outPath c ≠ fault := by
  have hleft := h.written.room
  have hwrite := h.written.write
  have hcase := readNext_cases behind rest
  rw [hstep] at hcase
  cases hcase with
  | separator rest =>
    have hsrc := h.scans.holds hl
    rw [replicate_separators, List.append_assoc, Mem.holds_append, Mem.holds_append] at hsrc
    rw [List.length_singleton] at hroom
    obtain ⟨after, herr⟩ := h.written.writeChar_last hl hsrc.2.1 (by decide) (by simp; omega)
    rw [h.body_separator hl hfuel, herr]
    simp
  | character b more rest hb hs hlen hdot =>
    have hsrc := h.scans.holds hl
    rw [← List.cons_append, Mem.holds_append] at hsrc
    have hfit : output.length + (b :: more).length ≤ args.outLen := by
      cases more with
      | nil => exact hleft
      | cons second more =>
        by_contra hover
        apply hfits
        refine ⟨b, (Mem.holds_cons.mp hsrc.1).1, ?_, by omega⟩
        rw [hlen, List.length_cons, List.length_cons]
        omega
    obtain ⟨after, herr⟩ := h.written.writeChar_last hl hsrc.1 hlen (by omega)
    rw [h.body_character hl hb hs hdot, herr]
    simp

private theorem Tracks.ne_fault (hl : Layout args p side) (hrest : IsRest IsText rest)
    (h : Tracks args p behind rest output c) (hfits : ¬OverrunsBuffer args c) {fuel : Nat}
    (hfuel : enoughFuel args p ≤ fuel) : normalizeBody args fuel args.outPath c ≠ fault := by
  have hround := h.round hl
  generalize hstep : readNext behind rest = step at hround
  cases hround with
  | stop hholds hbody => simp [hbody fuel hfuel]
  | stuck => exact absurd hstep hrest.not_stuck
  | copy hroom hafter hbody => simp [hbody fuel hfuel]
  | full hroom hbody => exact h.full_ends hl hstep hroom hfits hfuel
  | skip hafter hbody => simp [hbody fuel hfuel]
  | parent hlen hafter hbody => simp [hbody fuel hfuel]
  | invalid hlen hbody => simp [hbody fuel hfuel]

end Capacity

/-- In a memory that holds exactly the buffer, no run of the call faults exactly when no character
is met for which the buffer has too little room. -/
theorem normalize_stays_in_buffer_iff (p : List UInt8) (args : NormalizeArgs) (side : Side)
    (dst : Mem) (hl : Layout args p side) (hbuffer : IsBuffer dst args.outPath args.outLen)
    (hutf8 : IsWellFormedUtf8 p) (hlen : 0 < args.outLen) :
    (∀ fuel, libdFilesystemFilepathNormalize args dst fuel ≠ fault) ↔
      ∀ c, Reached args dst c → ¬OverrunsBuffer args c := by
  rw [(hl.enters hlen).ne_fault_iff]
  constructor
  · intro h c hc hover
    obtain ⟨behind, rest, output, -, htracks⟩ := hc.tracks hl hbuffer hutf8.isText
    exact h c hc 0 (hover.fault htracks.written.buffer 0)
  · intro h c hc fuel hfault
    obtain ⟨behind, rest, output, hrest, htracks⟩ := hc.tracks hl hbuffer hutf8.isText
    have hne : normalizeBody args fuel args.outPath c ≠ outOfFuel := by simp [hfault]
    have hmore := normalizeBody_settled args args.outPath c fuel (fuel + enoughFuel args p)
      (Nat.le_add_right _ _) hne
    exact htracks.ne_fault hl hrest (h c hc) (Nat.le_add_left _ _) (hmore.trans hfault)

/-- `"/é"`. -/
def accentPath : List UInt8 := [47, 195, 169]

/-- In a buffer of three bytes the character fits. -/
theorem normalize_stays_in_buffer_iff_accent :
    IsBuffer (zeroBuffer 64 3) 64 3 ∧
      ∀ fuel, libdFilesystemFilepathNormalize (callOn accentPath 16 64 3) (zeroBuffer 64 3) fuel ≠
        fault := by
  have hl : Layout (callOn accentPath 16 64 3) accentPath .above :=
    ⟨rfl, by decide, rfl, by decide, by decide, by decide, (by decide : 16 < 64)⟩
  have hbuffer := isBuffer_zeroBuffer 64 3
  apply And.intro hbuffer
  apply (normalize_stays_in_buffer_iff accentPath (callOn accentPath 16 64 3) .above
    (zeroBuffer 64 3) hl hbuffer ⟨['/', 'é'], by decide⟩ (by decide)).mpr
  intro c hc hover
  obtain ⟨lead, hbyte, hlong, hover⟩ := hover
  have hleads : ∀ k < 5,
      1 < (libdUtf8CharLen ((inputText accentPath).getD k nullTerminator)).toNat →
      k = 1 ∧ (libdUtf8CharLen ((inputText accentPath).getD k nullTerminator)).toNat = 2 := by
    decide
  obtain ⟨k, hk, hpos, hget⟩ := Mem.ofBytes_eq_some hbyte
  have hlead := hleads k hk
  rw [List.getD_eq_getElem?_getD, hget, Option.getD_some] at hlead
  replace hlead := hlead hlong
  have hle := hc.output_le
  rw [hlead.2] at hover
  change c.writePos + 16 ≤ 64 + c.scanPos at hle
  change 64 + 3 < _ at hover
  omega

/-- In a buffer of two bytes the last byte of the character is written behind the buffer. -/
theorem normalize_stays_in_buffer_fails :
    Layout (callOn accentPath 16 64 2) accentPath .above ∧ IsBuffer (zeroBuffer 64 2) 64 2 ∧
      IsWellFormedUtf8 accentPath ∧
      (∃ r, Converges
        (libdFilesystemFilepathNormalize (callOn accentPath 16 64 2) (zeroBuffer 64 16)) r ∧
        r.result = .err ∧ zeroBuffer 64 16 66 = some 0 ∧ r.dst 66 = some 169) ∧
      ¬∀ fuel, libdFilesystemFilepathNormalize (callOn accentPath 16 64 2) (zeroBuffer 64 2) fuel ≠
        fault := by
  have hl : Layout (callOn accentPath 16 64 2) accentPath .above :=
    ⟨rfl, by decide, rfl, by decide, by decide, by decide, (by decide : 16 < 64)⟩
  have hsettled := normalize_settled (callOn accentPath 16 64 2) (zeroBuffer 64 16)
  refine ⟨hl, isBuffer_zeroBuffer 64 2, ⟨['/', 'é'], by decide⟩,
    ⟨_, @Settled.converges _ _ hsettled 5 _ rfl, rfl, rfl, rfl⟩, ?_⟩
  intro h
  exact h 5 rfl

end Libdane
