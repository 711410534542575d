import Libdane.Filesystem.PathResolution

/-!
# The low end of the output

The backward scan that drops a component stops at a separator or at a position of the input. With
the output above the input only a separator keeps it inside of the output, and a relative path need
not have written one.
-/

namespace Libdane

open ByteMachine ByteMachine.Exec

/-- The part of the output in front of the write position. -/
def writtenPart (args : NormalizeArgs) (c : Cursor) : Mem := fun x =>
  if args.outPath ≤ x ∧ x < c.writePos then c.dst x else none

/-- The write position stays in the output, every byte in front of it has been copied there by some
round, and the backward scan inspects only such bytes. -/
structure StaysInOutput (args : NormalizeArgs) (dst : Mem) : Prop where
  writePos : ∀ c, Reached args dst c → args.outPath ≤ c.writePos
  wrote : ∀ c, Reached args dst c → ∀ x, args.outPath ≤ x → x < c.writePos →
    ∃ before scanPos after, Reached args dst before ∧
      normalizeWriteChar args before scanPos = ret (.inl after) ∧
      before.writePos ≤ x ∧ x < after.writePos
  scan : ∀ c, Reached args dst c → ParentScan args c → ∀ fuel,
    loop (dropNameBody (writtenPart args c) (platformFilepathEndOfPrefix args.inputPath)) fuel
      (c.writePos - 1) ≠ fault

/-- A separator lies in the output in front of its last byte. -/
def SeparatorInFront (args : NormalizeArgs) (c : Cursor) : Prop :=
  ∃ x, args.outPath ≤ x ∧ x + 1 < c.writePos ∧ c.dst x = some pathSeparator

section LowEnd

variable {args : NormalizeArgs} {dst m : Mem} {c next : Cursor}

private theorem writeChar_dst {scanPos : Nat}
    (h : normalizeWriteChar args c scanPos = ret (.inl next)) :
    (∀ x, x < c.writePos → next.dst x = c.dst x) ∧
      ∀ x, c.writePos ≤ x → x < next.writePos → (next.dst x).isSome := by
  obtain ⟨lead, -, hcopy, hwritePos, -, -⟩ := writeChar_run h
  obtain ⟨bytes, hlen, -, hholds, hframe, -⟩ := Mem.copy_run hcopy
  refine ⟨fun x hx => hframe x (Or.inl hx), ?_⟩
  intro x hlo hhi
  have hlt : x - c.writePos < bytes.length := by omega
  have hheld := hholds _ _ (List.getElem?_eq_getElem hlt)
  rw [Nat.add_sub_cancel' hlo] at hheld
  simp [hheld]

private theorem Reached.wrote (h : Reached args dst c) {x : Nat} (hlo : args.outPath ≤ x)
    (hhi : x < c.writePos) :
    ∃ before scanPos after, Reached args dst before ∧
      normalizeWriteChar args before scanPos = ret (.inl after) ∧
      before.writePos ≤ x ∧ x < after.writePos := by
  revert hhi
  apply h.invariant (P := fun c => x < c.writePos →
    ∃ before scanPos after, Reached args dst before ∧
    normalizeWriteChar args before scanPos = ret (.inl after) ∧
    before.writePos ≤ x ∧ x < after.writePos)
  · intro hlt
    exact absurd hlo (Nat.not_le_of_lt hlt)
  · intro c next hreached ih hround hlt
    cases Nat.lt_or_ge x c.writePos with
    | inl hbelow => exact ih hbelow
    | inr hnew =>
      cases hround.cases with
      | write _ _ _ _ hwrite => exact ⟨c, _, next, hreached, hwrite, hnew, hlt⟩
      | relative => exact absurd hlt (Nat.not_lt_of_le hnew)
      | @parent writePos _ hscan hloop =>
        have hle := (dropName_run hloop).1
        change x < writePos at hlt
        omega

private theorem Reached.mapped (h : Reached args dst c) : ∀ x, args.outPath ≤ x → x < c.writePos →
    (c.dst x).isSome := by
  apply h.invariant (P := fun c => ∀ x, args.outPath ≤ x → x < c.writePos → (c.dst x).isSome)
  · intro x hlo hhi
    exact absurd hlo (Nat.not_le_of_lt hhi)
  · intro c next _ ih hround
    cases hround.cases with
    | write _ _ _ _ hwrite =>
      obtain ⟨hbelow, hnew⟩ := writeChar_dst hwrite
      intro x hlo hhi
      cases Nat.lt_or_ge x c.writePos with
      | inl hlt =>
        rw [hbelow x hlt]
        exact ih x hlo hlt
      | inr hge => exact hnew x hge hhi
    | relative => exact ih
    | @parent writePos _ hscan hloop =>
      have hle := (dropName_run hloop).1
      intro x hlo hhi
      change x < writePos at hhi
      exact ih x hlo (by omega)

theorem dropName_leaves {start pathStart : Nat} (hbelow : ∀ x, x < start → m x = none)
    (hside : pathStart < start) {n : Nat}
    (hnone : ∀ x, start ≤ x → x < start + n → m x ≠ some pathSeparator) :
    loop (dropNameBody m pathStart) (n + 1) (start + n) = fault := by
  induction n with
  | zero =>
    apply loop_fault
    cases start with
    | zero => rfl
    | succ below =>
      have hbyte := hbelow below (Nat.lt_succ_self below)
      simp [dropNameBody, Mem.loadBefore, Mem.load, hbyte]
  | succ n ih =>
    have hhere := hnone (start + n) (Nat.le_add_right _ _) (by omega)
    cases hbyte : m (start + n) with
    | none =>
      apply loop_fault
      simp [dropNameBody, ← Nat.add_assoc, Mem.loadBefore, Mem.load, hbyte]
    | some b =>
      have hb : b ≠ pathSeparator := fun he => hhere (he ▸ hbyte)
      have hload : m.loadBefore (start + (n + 1)) = ret b := Mem.load_eq_ret.mpr hbyte
      have hgo : b ≠ pathSeparator ∧ pathStart < start + (n + 1) := ⟨hb, by omega⟩
      have hbody : dropNameBody m pathStart (start + (n + 1)) = ret (.inl (start + n)) := by
        simp only [dropNameBody, hload, ret_bind, bne_iff_ne, Bool.and_eq_true, decide_eq_true_eq]
        rw [if_pos hgo]
        rfl
      rw [loop_next _ hbody]
      exact ih fun x hlo hhi => hnone x hlo (by omega)

private theorem dropName_stops {pathStart start x : Nat} (hx : x < start)
    (hsep : m x = some pathSeparator) (hmapped : ∀ y, x ≤ y → y < start → (m y).isSome)
    (fuel : Nat) : loop (dropNameBody m pathStart) fuel start ≠ fault := by
  apply loop_ne_fault (fun _ => dropNameBody m pathStart) _ 0
  intro w hw _
  obtain ⟨hle, hnone⟩ := dropName_visits hw
  have hlt : x < w := by
    by_contra hge
    exact hnone x (Nat.le_of_not_lt hge) hx hsep
  obtain ⟨below, rfl⟩ := Nat.exists_eq_succ_of_ne_zero (by omega : w ≠ 0)
  obtain ⟨b, hb⟩ := Option.isSome_iff_exists.mp (hmapped below (by omega) (by omega))
  have hload : m.loadBefore (below + 1) = ret b := Mem.load_eq_ret.mpr hb
  simp [dropNameBody, hload]

private theorem SeparatorInFront.lt_stop (h : SeparatorInFront args c)
    {pathStart fuel writePos : Nat}
    (hloop : loop (dropNameBody c.dst pathStart) fuel (c.writePos - 1) = ret writePos) :
    ∃ x, args.outPath ≤ x ∧ x < writePos ∧ c.dst x = some pathSeparator := by
  obtain ⟨x, hlo, hhi, hsep⟩ := h
  refine ⟨x, hlo, ?_, hsep⟩
  by_contra hge
  exact (dropName_run hloop).2 x (by omega) (by omega) hsep

private theorem Reached.writePos_ge (hsep : ∀ c, Reached args dst c → ParentScan args c →
    SeparatorInFront args c) (h : Reached args dst c) : args.outPath ≤ c.writePos := by
  apply h.invariant (P := fun c => args.outPath ≤ c.writePos) le_rfl
  intro c next hreached hle hround
  cases hround.cases with
  | write _ _ _ _ hwrite =>
    obtain ⟨lead, -, -, hwritePos, -, -⟩ := writeChar_run hwrite
    omega
  | relative => exact hle
  | parent hscan hloop =>
    obtain ⟨x, hlo, hhi, -⟩ := (hsep c hreached hscan).lt_stop hloop
    exact hlo.trans hhi.le

end LowEnd

/-- With the output above the input a call stays in its output exactly when a separator lies in
front of the last byte of the output whenever a component is dropped. -/
theorem normalize_stays_in_output_iff (args : NormalizeArgs) (dst : Mem)
    (hside : args.inputPath < args.outPath) :
    StaysInOutput args dst ↔
      ∀ c, Reached args dst c → ParentScan args c → SeparatorInFront args c := by
  constructor
  · intro h c hc hscan
    by_contra hnone
    have hge := h.writePos c hc
    have hfirst := hscan.notFirst
    have hsecond := hscan.notSecond
    have hbelow : ∀ x, x < args.outPath → writtenPart args c x = none := by
      intro x hx
      exact if_neg fun hin => absurd hin.1 (Nat.not_le_of_lt hx)
    have hfree : ∀ x, args.outPath ≤ x → x < args.outPath + (c.writePos - 1 - args.outPath) →
        writtenPart args c x ≠ some pathSeparator := by
      intro x hlo hhi hsep
      apply hnone
      refine ⟨x, hlo, by omega, ?_⟩
      rw [writtenPart, if_pos ⟨hlo, by omega⟩] at hsep
      exact hsep
    have hleaves := dropName_leaves hbelow hside hfree
    rw [Nat.add_sub_cancel' (by omega)] at hleaves
    exact h.scan c hc hscan _ hleaves
  · intro h
    refine ⟨fun c hc => hc.writePos_ge h, fun c hc x hlo hhi => hc.wrote hlo hhi, ?_⟩
    intro c hc hscan fuel
    obtain ⟨x, hlo, hhi, hsep⟩ := h c hc hscan
    have hinside : ∀ y, x ≤ y → y < c.writePos - 1 → writtenPart args c y = c.dst y :=
      fun y hy hlt => if_pos ⟨hlo.trans hy, by omega⟩
    apply dropName_stops (x := x) (by omega)
    · rw [hinside x le_rfl (by omega), hsep]
    · intro y hy hlt
      rw [hinside y hy hlt]
      exact hc.mapped y (hlo.trans hy) (by omega)

section Absolute

variable {args : NormalizeArgs} {dst : Mem} {c next : Cursor}

/-- The output has begun with a separator. -/
def OpensWithSeparator (args : NormalizeArgs) (c : Cursor) : Prop :=
  args.outPath < c.writePos ∧ c.dst args.outPath = some pathSeparator

private theorem Round.opens (hstarts : args.src args.inputPath = some pathSeparator)
    (h : Round args (startCursor args dst) next) : OpensWithSeparator args next := by
  cases h.cases with
  | @write b scanPos _ hbyte _ hle hskip hwrite =>
    have hread : args.src scanPos = some pathSeparator := by
      cases Nat.lt_or_ge args.inputPath scanPos with
      | inl hlt => exact hskip scanPos hlt le_rfl
      | inr hge =>
        have hsame : scanPos = args.inputPath := Nat.le_antisymm hge hle
        rw [hsame, hstarts]
    obtain ⟨lead, hlead, hcopy, hwritePos, -, -⟩ := writeChar_run hwrite
    rw [hread, Option.some.injEq] at hlead
    rw [← hlead] at hcopy hwritePos
    obtain ⟨bytes, hlen, hholds, hafter, -, -⟩ := Mem.copy_run hcopy
    have hlt : 0 < bytes.length := by
      rw [hlen]
      decide
    have hb := List.getElem?_eq_getElem hlt
    have hcopied : next.dst args.outPath = args.src scanPos :=
      (hafter 0 _ hb).trans (hholds 0 _ hb).symm
    constructor
    · rw [hwritePos]
      exact Nat.lt_add_of_pos_right (by decide)
    · exact hcopied.trans hread
  | relative hbyte =>
    change args.src args.inputPath = _ at hbyte
    rw [hstarts] at hbyte
    exact absurd hbyte (by decide)
  | parent hscan => exact absurd rfl hscan.notFirst

private theorem OpensWithSeparator.round (h : OpensWithSeparator args c)
    (hround : Round args c next) :
    OpensWithSeparator args next := by
  cases hround.cases with
  | write _ _ _ _ hwrite =>
    obtain ⟨lead, -, -, hwritePos, -, -⟩ := writeChar_run hwrite
    constructor
    · rw [hwritePos]
      exact Nat.lt_add_right _ h.1
    · rw [(writeChar_dst hwrite).1 _ h.1]
      exact h.2
  | relative => exact h
  | @parent writePos _ hscan hloop =>
    have hlt := h.1
    have hne := hscan.notSecond
    refine ⟨?_, h.2⟩
    show args.outPath < writePos
    by_contra hge
    exact (dropName_run hloop).2 args.outPath (by omega) (by omega) h.2

private theorem separatorInFront_of_absolute
    (hstarts : args.src args.inputPath = some pathSeparator)
    (h : Reached args dst c) (hscan : ParentScan args c) : SeparatorInFront args c := by
  have hopens : c = startCursor args dst ∨ OpensWithSeparator args c := by
    apply h.invariant (P := fun c => c = startCursor args dst ∨ OpensWithSeparator args c)
    · exact Or.inl rfl
    · intro c next _ ih hround
      right
      cases ih with
      | inl hstart =>
        rw [hstart] at hround
        exact hround.opens hstarts
      | inr hopens => exact hopens.round hround
  cases hopens with
  | inl hstart =>
    rw [hstart] at hscan
    exact absurd rfl hscan.notFirst
  | inr hopens =>
    have hlt := hopens.1
    have hne := hscan.notSecond
    exact ⟨args.outPath, le_rfl, by omega, hopens.2⟩

end Absolute

theorem normalize_stays_in_output_iff_parent :
    StaysInOutput (callOn parentPath 16 64 16) (zeroBuffer 64 16) :=
  (normalize_stays_in_output_iff (callOn parentPath 16 64 16) (zeroBuffer 64 16) (by decide)).mpr
    fun _ hc hscan => separatorInFront_of_absolute rfl hc hscan

/-- `"a/.."`. -/
def cancelledPath : List UInt8 := [97, 47, 46, 46]

/-- The parent reference drops the only component of a relative path, and the backward scan reads
the byte below the output. -/
theorem normalize_stays_in_output_fails :
    IsWellFormedUtf8 cancelledPath ∧ IsBuffer (zeroBuffer 64 16) 64 16 ∧
      (∃ fuel, libdFilesystemFilepathNormalize (callOn cancelledPath 16 64 16) (zeroBuffer 64 16)
        fuel = fault) ∧
      ¬StaysInOutput (callOn cancelledPath 16 64 16) (zeroBuffer 64 16) := by
  have henters : Enters (callOn cancelledPath 16 64 16) :=
    ⟨by decide, by decide, by decide, 97, rfl, by decide⟩
  have hreached : Reached (callOn cancelledPath 16 64 16) (zeroBuffer 64 16)
      { dst := Function.update (Function.update (zeroBuffer 64 16) 64 (some 97)) 65 (some 47),
        writePos := 66, scanPos := 18 } :=
    ((Reached.start henters _).next ⟨1, rfl⟩).next ⟨1, rfl⟩
  refine ⟨⟨['a', '/', '.', '.'], by decide⟩, isBuffer_zeroBuffer 64 16, ⟨5, rfl⟩, ?_⟩
  intro h
  exact h.scan _ hreached ⟨rfl, rfl, rfl, by decide, by decide⟩ 2 rfl

end Libdane
