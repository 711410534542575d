import Libdane.Filesystem.PathTermination

/-!
# The end of the input

A round reads nothing behind the terminator as long as no reference stands directly in front of it
and no character announces bytes beyond it. What lies behind the terminator then makes no
difference.
-/

namespace Libdane

open ByteMachine ByteMachine.Exec

/-- A memory that differs from the input's only behind the terminator of the path. -/
def SameUpToEnd (args : NormalizeArgs) (p : List UInt8) (src : Mem) : Prop :=
  ∀ x, x ≤ args.inputPath + p.length → src x = args.src x

/-- The positions to which a round moves the scan position, whether or not the call goes on
there. -/
inductive MovesTo (args : NormalizeArgs) (c : Cursor) : Nat → Prop where
  | skip {b : UInt8} {fuel scanPos : Nat} (hbyte : args.src c.scanPos = some b)
      (hb : b ≠ nullTerminator)
      (hswitch : normalizeSwitch args fuel args.outPath c b = ret (.writeChar scanPos)) :
      MovesTo args c scanPos
  | copy {b lead : UInt8} {fuel scanPos : Nat} (hbyte : args.src c.scanPos = some b)
      (hb : b ≠ nullTerminator)
      (hswitch : normalizeSwitch args fuel args.outPath c b = ret (.writeChar scanPos))
      (hlead : args.src scanPos = some lead) :
      MovesTo args c (scanPos + (libdUtf8CharLen lead).toNat)
  | reference {b : UInt8} {fuel : Nat} {next : Cursor} (hbyte : args.src c.scanPos = some b)
      (hswitch : normalizeSwitch args fuel args.outPath c b = ret (.continueLoop next)) :
      MovesTo args c next.scanPos

/-- The scan position passes a terminator: behind a single dot, behind two for which a component is
dropped, or because it is among the bytes that a character announces. -/
inductive PassesTerminator (args : NormalizeArgs) (c : Cursor) : Prop where
  | relative (hbyte : args.src c.scanPos = some dot)
      (href : foundRelativeRef args.src args.inputPath c.scanPos = ret true)
      (hend : args.src (c.scanPos + 1) = some nullTerminator)
  | parent {fuel writePos : Nat} (hscan : ParentScan args c)
      (hloop : loop (dropNameBody c.dst (platformFilepathEndOfPrefix args.inputPath)) fuel
        (c.writePos - 1) = ret writePos)
      (hend : args.src (c.scanPos + 2) = some nullTerminator)
  | character {lead : UInt8} {k : Nat} (hbyte : args.src c.scanPos = some lead) (hpos : 0 < k)
      (hk : k < (libdUtf8CharLen lead).toNat)
      (hend : args.src (c.scanPos + k) = some nullTerminator)

/-- No round moves or reads behind the terminator. Neither a round nor the call changes when the
memory there does, even when there is none. -/
structure StaysInInput (args : NormalizeArgs) (p : List UInt8) (dst : Mem) : Prop where
  scan : ∀ c, Reached args dst c → c.scanPos ≤ args.inputPath + p.length
  moves : ∀ c, Reached args dst c → ∀ pos, MovesTo args c pos → pos ≤ args.inputPath + p.length
  reads : ∀ src, SameUpToEnd args p src → ∀ c, Reached args dst c → ∀ fuel,
    normalizeBody { args with src := src } fuel args.outPath c =
      normalizeBody args fuel args.outPath c
  call : ∀ src, SameUpToEnd args p src → ∀ fuel,
    libdFilesystemFilepathNormalize { args with src := src } dst fuel =
      libdFilesystemFilepathNormalize args dst fuel

section Scan

variable {args : NormalizeArgs} {p : List UInt8} {dst src : Mem} {c next : Cursor} {x : Nat}

private theorem Terminated.terminator (hl : Terminated args p) :
    args.src (args.inputPath + p.length) = some nullTerminator :=
  (Mem.holds_cons.mp (Mem.holds_append.mp hl.text).2).1

private theorem Terminated.ne_nul (hl : Terminated args p) (hlo : args.inputPath ≤ x)
    (hhi : x < args.inputPath + p.length) : args.src x ≠ some nullTerminator := by
  intro hnul
  have hlt : x - args.inputPath < p.length := by omega
  have hheld := (Mem.holds_append.mp hl.text).1 _ _ (List.getElem?_eq_getElem hlt)
  rw [Nat.add_sub_cancel' hlo, hnul, Option.some.injEq] at hheld
  exact hl.noNul (hheld ▸ List.getElem_mem hlt)

private theorem Terminated.lt_end (hl : Terminated args p) {b : UInt8} (hb : b ≠ nullTerminator)
    (hbyte : args.src x = some b) (hle : x ≤ args.inputPath + p.length) :
    x < args.inputPath + p.length := by
  apply Nat.lt_of_le_of_ne hle
  rintro rfl
  rw [hl.terminator, Option.some.injEq] at hbyte
  exact hb hbyte.symm

private theorem foundRelativeRef_ahead {path scanPos : Nat}
    (h : foundRelativeRef src path scanPos = ret true) :
    src (scanPos + 1) = some pathSeparator ∨ src (scanPos + 1) = some nullTerminator := by
  obtain ⟨behind, -, h⟩ := eq_ret_of_bind h
  obtain ⟨one, hone, h⟩ := eq_ret_of_bind h
  rw [Mem.load_eq_ret] at hone
  simp only [ret.injEq, Bool.and_eq_true, Bool.or_eq_true, beq_iff_eq] at h
  cases h.2 with
  | inl hs => exact Or.inl (hs ▸ hone)
  | inr hn => exact Or.inr (hn ▸ hone)

private theorem foundParentRef_ahead {path scanPos : Nat}
    (h : foundParentRef src path scanPos = ret true) :
    src (scanPos + 1) = some dot ∧
      (src (scanPos + 2) = some pathSeparator ∨ src (scanPos + 2) = some nullTerminator) := by
  obtain ⟨one, hone, h⟩ := eq_ret_of_bind h
  rw [Mem.load_eq_ret] at hone
  by_cases hn : one = nullTerminator
  · rw [if_pos (beq_iff_eq.mpr hn)] at h
    cases h
  rw [if_neg (by simpa using hn)] at h
  obtain ⟨behind, -, h⟩ := eq_ret_of_bind h
  obtain ⟨two, htwo, h⟩ := eq_ret_of_bind h
  rw [Mem.load_eq_ret] at htwo
  simp only [ret.injEq, Bool.and_eq_true, Bool.or_eq_true, beq_iff_eq] at h
  refine ⟨h.1.2 ▸ hone, ?_⟩
  cases h.2 with
  | inl hs => exact Or.inl (hs ▸ htwo)
  | inr hn => exact Or.inr (hn ▸ htwo)

private theorem Terminated.skip_lt (hl : Terminated args p) {start stop : Nat}
    (hlo : start < args.inputPath + p.length)
    (hskip : ∀ x, start < x → x ≤ stop → args.src x = some pathSeparator) :
    stop < args.inputPath + p.length := by
  by_contra hge
  have hend := hskip (args.inputPath + p.length) hlo (by omega)
  rw [hl.terminator] at hend
  cases hend

/-- The character at a position ends in front of the terminator, or the position is at the scan
position of a round that passes it. -/
private theorem Terminated.character_le (hl : Terminated args p) (hp : ¬PassesTerminator args c)
    {scanPos : Nat} {lead : UInt8} (hlead : args.src scanPos = some lead)
    (hle : c.scanPos ≤ scanPos)
    (hskip : ∀ x, c.scanPos < x → x ≤ scanPos → args.src x = some pathSeparator)
    (hhi : scanPos < args.inputPath + p.length) :
    scanPos + (libdUtf8CharLen lead).toNat ≤ args.inputPath + p.length := by
  cases Nat.lt_or_ge c.scanPos scanPos with
  | inl hlt =>
    have hsep := hskip scanPos hlt le_rfl
    rw [hlead, Option.some.injEq] at hsep
    rw [hsep]
    exact hhi
  | inr hge =>
    have hsame : c.scanPos = scanPos := by omega
    by_contra hpast
    apply hp
    apply PassesTerminator.character (hsame ▸ hlead)
      (k := args.inputPath + p.length - scanPos) (by omega) (by omega)
    rw [hsame, Nat.add_sub_cancel' (by omega)]
    exact hl.terminator

private theorem MovesTo.le (hl : Terminated args p) (hhi : c.scanPos ≤ args.inputPath + p.length)
    (hp : ¬PassesTerminator args c) {pos : Nat} (h : MovesTo args c pos) :
    pos ≤ args.inputPath + p.length := by
  cases h with
  | skip hbyte hb hswitch =>
    cases normalizeSwitch_cases hbyte hswitch with
    | writeChar hle hskip => exact (hl.skip_lt (hl.lt_end hb hbyte hhi) hskip).le
  | copy hbyte hb hswitch hlead =>
    cases normalizeSwitch_cases hbyte hswitch with
    | writeChar hle hskip =>
      exact hl.character_le hp hlead hle hskip (hl.skip_lt (hl.lt_end hb hbyte hhi) hskip)
  | reference hbyte hswitch =>
    cases normalizeSwitch_cases hbyte hswitch with
    | relative hdot href =>
      have hlt := hl.lt_end (by decide) hdot hhi
      cases foundRelativeRef_ahead href with
      | inl hs => exact hl.lt_end (by decide) hs hlt
      | inr hn => exact absurd (.relative hdot href hn) hp
    | parent hscan hloop =>
      have hlt := hl.lt_end (by decide) hscan.byte hhi
      obtain ⟨hone, htwo⟩ := foundParentRef_ahead hscan.parent
      have hlt' := hl.lt_end (by decide) hone hlt
      cases htwo with
      | inl hs => exact hl.lt_end (by decide) hs hlt'
      | inr hn => exact absurd (.parent hscan hloop hn) hp

private theorem MovesTo.ge {pos : Nat} (h : MovesTo args c pos) : c.scanPos ≤ pos := by
  cases h with
  | skip hbyte _ hswitch =>
    cases normalizeSwitch_cases hbyte hswitch with
    | writeChar hle => exact hle
  | copy hbyte _ hswitch =>
    cases normalizeSwitch_cases hbyte hswitch with
    | writeChar hle => exact hle.trans (Nat.le_add_right _ _)
  | reference hbyte hswitch =>
    cases normalizeSwitch_cases hbyte hswitch with
    | relative => exact Nat.le_add_right _ _
    | parent => exact Nat.le_add_right _ _

private theorem Round.movesTo (h : Round args c next) : MovesTo args c next.scanPos := by
  obtain ⟨b, fuel, exit, hbyte, hb, hswitch, hexit⟩ := h.exit
  cases hexit with
  | inl hwrite =>
    obtain ⟨scanPos, rfl, hwrite⟩ := hwrite
    obtain ⟨lead, hlead, -, -, hscanPos, -⟩ := writeChar_run hwrite
    rw [hscanPos]
    exact .copy hbyte hb hswitch hlead
  | inr hcontinue =>
    rw [hcontinue] at hswitch
    exact .reference hbyte hswitch

private theorem Reached.scan_ge (h : Reached args dst c) : args.inputPath ≤ c.scanPos := by
  apply h.invariant (P := fun c => args.inputPath ≤ c.scanPos) le_rfl
  intro c next _ hle hround
  exact hle.trans hround.movesTo.ge

private theorem Reached.scan_le (hl : Terminated args p)
    (hp : ∀ c, Reached args dst c → ¬PassesTerminator args c) (h : Reached args dst c) :
    c.scanPos ≤ args.inputPath + p.length := by
  apply h.invariant (P := fun c => c.scanPos ≤ args.inputPath + p.length) (Nat.le_add_right _ _)
  intro c next hreached hle hround
  exact hround.movesTo.le hl hle (hp c hreached)

private theorem PassesTerminator.moves (hl : Terminated args p) (hlo : args.inputPath ≤ c.scanPos)
    (h : PassesTerminator args c) :
    ∃ pos, MovesTo args c pos ∧ args.inputPath + p.length < pos := by
  have hend : ∀ k, args.src (c.scanPos + k) = some nullTerminator →
      args.inputPath + p.length ≤ c.scanPos + k := by
    intro k hnul
    by_contra hlt
    exact hl.ne_nul (by omega) (by omega) hnul
  cases h with
  | relative hbyte href hnul =>
    have hswitch : normalizeSwitch args 0 args.outPath c dot =
        ret (.continueLoop { c with scanPos := c.scanPos + 2 }) := by
      simp [normalizeSwitch, href]
    refine ⟨_, .reference hbyte hswitch, ?_⟩
    have hle := hend 1 hnul
    show _ < c.scanPos + 2
    omega
  | @parent fuel writePos hscan hloop hnul =>
    have hswitch : normalizeSwitch args fuel args.outPath c dot =
        ret (.continueLoop { c with writePos := writePos, scanPos := c.scanPos + 3 }) := by
      simp [normalizeSwitch, hscan.relative, hscan.parent, hscan.notFirst, hscan.notSecond, hloop]
    refine ⟨_, .reference hscan.byte hswitch, ?_⟩
    have hle := hend 2 hnul
    show _ < c.scanPos + 3
    omega
  | @character lead k hbyte hpos hk hnul =>
    have hlen : (libdUtf8CharLen lead).toNat ≠ 1 := by omega
    have hswitch := @normalizeSwitch_of_charLen args c lead hlen 0 args.outPath
    refine ⟨_, .copy hbyte (ne_nullTerminator_of_charLen hlen) hswitch hbyte, ?_⟩
    have hle := hend k hnul
    omega

end Scan

section Reads

variable {args : NormalizeArgs} {p : List UInt8} {dst src : Mem} {c : Cursor} {x : Nat}

private theorem SameUpToEnd.load (h : SameUpToEnd args p src) (hx : x ≤ args.inputPath + p.length) :
    src.load x = args.src.load x := by
  rw [Mem.load, Mem.load, h x hx]

private theorem behindSatisfied_congr (h : SameUpToEnd args p src)
    (hx : x ≤ args.inputPath + p.length) :
    behindSatisfied src args.inputPath x = behindSatisfied args.src args.inputPath x := by
  unfold behindSatisfied
  split
  · rfl
  · cases x with
    | zero => rfl
    | succ below =>
      apply bind_congr_of_ret
      · exact h.load (by omega)
      · exact fun _ _ => rfl

private theorem foundRelativeRef_congr (h : SameUpToEnd args p src)
    (hx : x < args.inputPath + p.length) :
    foundRelativeRef src args.inputPath x = foundRelativeRef args.src args.inputPath x := by
  apply bind_congr_of_ret (behindSatisfied_congr h (by omega))
  intro behind _
  exact bind_congr_of_ret (h.load hx) fun _ _ => rfl

private theorem foundParentRef_congr (hl : Terminated args p) (h : SameUpToEnd args p src)
    (hx : x < args.inputPath + p.length) :
    foundParentRef src args.inputPath x = foundParentRef args.src args.inputPath x := by
  apply bind_congr_of_ret (h.load hx)
  intro one hone
  by_cases hn : one = nullTerminator
  · simp [hn]
  have hlt := hl.lt_end hn (Mem.load_eq_ret.mp hone) hx
  simp only [beq_iff_eq, if_neg hn]
  apply bind_congr_of_ret (behindSatisfied_congr h (by omega))
  intro behind _
  exact bind_congr_of_ret (h.load hlt) fun _ _ => rfl

private theorem skipSeparators_congr (hl : Terminated args p) (h : SameUpToEnd args p src)
    (hx : x < args.inputPath + p.length) (fuel : Nat) :
    loop (skipSeparatorsBody src) fuel x = loop (skipSeparatorsBody args.src) fuel x := by
  apply loop_congr (fun _ => skipSeparatorsBody args.src) (fun _ => skipSeparatorsBody src) _ 0
  intro s hs _
  have hlt := hl.skip_lt hx (skipSeparators_visits hs).2
  exact bind_congr_of_ret (h.load hlt) fun _ _ => rfl

private theorem normalizeSwitch_congr (hl : Terminated args p) (h : SameUpToEnd args p src)
    (hc : c.scanPos < args.inputPath + p.length) (fuel start : Nat) (byte : UInt8) :
    normalizeSwitch { args with src := src } fuel start c byte =
      normalizeSwitch args fuel start c byte := by
  unfold normalizeSwitch
  simp only
  rw [skipSeparators_congr hl h hc, foundRelativeRef_congr h hc, foundParentRef_congr hl h hc]

private theorem normalizeWriteChar_congr (h : SameUpToEnd args p src) {scanPos : Nat} {lead : UInt8}
    (hlead : args.src scanPos = some lead) (hhi : scanPos < args.inputPath + p.length)
    (hend : scanPos + (libdUtf8CharLen lead).toNat ≤ args.inputPath + p.length) :
    normalizeWriteChar { args with src := src } c scanPos = normalizeWriteChar args c scanPos := by
  have hsame : src scanPos = some lead := (h scanPos (by omega)).trans hlead
  have hchar : platformWriteCharTo c.dst c.writePos src scanPos =
      platformWriteCharTo c.dst c.writePos args.src scanPos := by
    rw [platformWriteCharTo_eq hsame, platformWriteCharTo_eq hlead]
    rw [Mem.copy_congr c.dst c.writePos fun x _ hx => h x (by omega)]
  exact bind_congr_of_ret hchar fun _ _ => rfl

private theorem normalizeBody_congr (hl : Terminated args p) (h : SameUpToEnd args p src)
    (hhi : c.scanPos ≤ args.inputPath + p.length) (hp : ¬PassesTerminator args c) (fuel : Nat) :
    normalizeBody { args with src := src } fuel args.outPath c =
      normalizeBody args fuel args.outPath c := by
  apply bind_congr_of_ret (h.load hhi)
  intro byte hload
  have hbyte := Mem.load_eq_ret.mp hload
  by_cases hb : byte = nullTerminator
  · simp [hb]
  have hlt := hl.lt_end hb hbyte hhi
  simp only [beq_iff_eq, if_neg hb]
  apply bind_congr_of_ret (normalizeSwitch_congr hl h hlt fuel _ byte)
  intro exit hswitch
  cases normalizeSwitch_cases hbyte hswitch with
  | @writeChar scanPos hle hskip =>
    have hlt' := hl.skip_lt hlt hskip
    have hmapped : ∃ lead, args.src scanPos = some lead := by
      cases Nat.lt_or_ge c.scanPos scanPos with
      | inl hgt => exact ⟨_, hskip scanPos hgt le_rfl⟩
      | inr hge =>
        have hsame : scanPos = c.scanPos := by omega
        exact ⟨byte, hsame ▸ hbyte⟩
    obtain ⟨lead, hlead⟩ := hmapped
    exact normalizeWriteChar_congr h hlead hlt' (hl.character_le hp hlead hle hskip hlt')
  | relative => rfl
  | parent => rfl
  | invalid => rfl

end Reads

/-- A call stays in its input exactly when no round passes the terminator. -/
theorem normalize_stays_in_input_iff (p : List UInt8) (args : NormalizeArgs) (dst : Mem)
    (hl : Terminated args p) :
    StaysInInput args p dst ↔ ∀ c, Reached args dst c → ¬PassesTerminator args c := by
  constructor
  · intro h c hc hp
    obtain ⟨pos, hmoves, hpast⟩ := hp.moves hl (Reached.scan_ge hc)
    exact Nat.not_lt_of_le (h.moves c hc pos hmoves) hpast
  intro hp
  have hscan : ∀ c, Reached args dst c → c.scanPos ≤ args.inputPath + p.length :=
    fun c hc => Reached.scan_le hl hp hc
  have hreads : ∀ src, SameUpToEnd args p src → ∀ c, Reached args dst c → ∀ fuel,
      normalizeBody { args with src := src } fuel args.outPath c =
        normalizeBody args fuel args.outPath c :=
    fun src hsame c hc fuel => normalizeBody_congr hl hsame (hscan c hc) (hp c hc) fuel
  refine ⟨hscan, fun c hc pos hmoves => hmoves.le hl (hscan c hc) (hp c hc), hreads, ?_⟩
  intro src hsame fuel
  have henters_iff : Enters { args with src := src } ↔ Enters args := by
    have hfirst := hsame args.inputPath (Nat.le_add_right _ _)
    constructor
    · intro h
      obtain ⟨b, hbyte, hb⟩ := h.first
      exact ⟨h.outPath, h.outLen, h.inputPath, b, hfirst.symm.trans hbyte, hb⟩
    · intro h
      obtain ⟨b, hbyte, hb⟩ := h.first
      exact ⟨h.outPath, h.outLen, h.inputPath, b, hfirst.trans hbyte, hb⟩
  have hload := hsame.load (Nat.le_add_right args.inputPath _)
  by_cases henters : Enters args
  · cases fuel with
    | zero =>
      unfold libdFilesystemFilepathNormalize
      simp only [hload]
      rfl
    | succ fuel =>
      rw [henters.normalize_eq dst (Nat.succ_pos fuel),
        (henters_iff.mpr henters).normalize_eq dst (Nat.succ_pos fuel)]
      exact loop_congr (fun fuel => normalizeBody args fuel args.outPath)
        (fun fuel => normalizeBody { args with src := src } fuel args.outPath)
        (fun c hc => hreads src hsame c ⟨henters, hc⟩) _ _
  · rw [normalize_of_not_enters henters, normalize_of_not_enters (henters_iff.not.mpr henters)]
    simp only [hload]

/-- `"/./a"`. -/
def innerDotPath : List UInt8 := [47, 46, 47, 97]

theorem normalize_stays_in_input_iff_inner :
    StaysInInput (callBefore innerDotPath [98] 16 64 16) innerDotPath (zeroBuffer 64 16) := by
  have hl : Terminated (callBefore innerDotPath [98] 16 64 16) innerDotPath :=
    terminated_callBefore (by decide) (by decide) 64 16
  apply (normalize_stays_in_input_iff innerDotPath _ (zeroBuffer 64 16) hl).mpr
  intro c _ hp
  -- every byte is a character of its own, and the one behind the dot is a separator
  have hsingle : (innerDotPath ++ nullTerminator :: [98]).all fun b =>
      (libdUtf8CharLen b).toNat == 1 := by
    decide
  have hdots : ∀ k < 6, (innerDotPath ++ nullTerminator :: [98])[k]? = some dot → k = 1 := by
    decide
  have hahead : (callBefore innerDotPath [98] 16 64 16).src c.scanPos = some dot →
      (callBefore innerDotPath [98] 16 64 16).src (c.scanPos + 1) = some pathSeparator := by
    intro hbyte
    obtain ⟨k, hlt, hpos, hk⟩ := Mem.ofBytes_eq_some hbyte
    rw [hpos, hdots k hlt hk]
    rfl
  cases hp with
  | relative hbyte href hend =>
    rw [hahead hbyte] at hend
    cases hend
  | parent hscan hloop hend =>
    have hone := (foundParentRef_ahead hscan.parent).1
    rw [hahead hscan.byte] at hone
    cases hone
  | character hbyte hpos hk hend =>
    obtain ⟨n, -, -, hn⟩ := Mem.ofBytes_eq_some hbyte
    have hone := beq_iff_eq.mp (List.all_eq_true.mp hsingle _ (List.mem_of_getElem? hn))
    omega

/-- `"/."`. -/
def finalDotPath : List UInt8 := [47, 46]

/-- Behind the dot the call skips the terminator and copies the `"a"` that lies behind it. Where
nothing lies there, it faults. -/
theorem normalize_stays_in_input_fails :
    Terminated (callBefore finalDotPath [97, 0] 16 64 16) finalDotPath ∧
      IsBuffer (zeroBuffer 64 16) 64 16 ∧
      (∃ r, Converges (libdFilesystemFilepathNormalize (callBefore finalDotPath [97, 0] 16 64 16)
          (zeroBuffer 64 16)) r ∧ r.result = .ok ∧ StringAt r.dst 64 [47, 97]) ∧
      (∃ fuel, libdFilesystemFilepathNormalize (callBefore finalDotPath [] 16 64 16)
        (zeroBuffer 64 16) fuel = fault) ∧
      ¬StaysInInput (callBefore finalDotPath [97, 0] 16 64 16) finalDotPath (zeroBuffer 64 16) := by
  have hl : Terminated (callBefore finalDotPath [97, 0] 16 64 16) finalDotPath :=
    terminated_callBefore (by decide) (by decide) 64 16
  have henters : Enters (callBefore finalDotPath [97, 0] 16 64 16) :=
    ⟨by decide, by decide, by decide, 47, rfl, by decide⟩
  have hreached : Reached (callBefore finalDotPath [97, 0] 16 64 16) (zeroBuffer 64 16)
      { dst := Function.update (zeroBuffer 64 16) 64 (some 47), writePos := 65, scanPos := 19 } :=
    ((Reached.start henters _).next ⟨1, rfl⟩).next ⟨1, rfl⟩
  have hsettled := normalize_settled (callBefore finalDotPath [97, 0] 16 64 16) (zeroBuffer 64 16)
  refine ⟨hl, isBuffer_zeroBuffer 64 16, ⟨_, @Settled.converges _ _ hsettled 5 _ rfl, rfl, ?_,
    by decide⟩, ⟨5, rfl⟩, ?_⟩
  · simp only [List.cons_append, List.nil_append, Mem.holds_cons, Mem.holds_nil]
    exact ⟨rfl, rfl, rfl, trivial⟩
  · intro h
    exact absurd (h.scan _ hreached) (by decide)

end Libdane
