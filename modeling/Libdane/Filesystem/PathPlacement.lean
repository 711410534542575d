import Libdane.Filesystem.PathResolution

/-!
# Where the buffers live

A parent reference removes a component when the output lies above the input and a single byte when
it lies below. The two agree where every removed component is empty, and where both sides run out of
output.
-/

namespace Libdane

open ByteMachine StackWords StackOp

/-- Two calls give the same result, and the same output if it is `libd_ok`. -/
def SameAnswer (args₁ args₂ : NormalizeArgs) (r₁ r₂ : NormalizeReturn) : Prop :=
  r₁.result = r₂.result ∧
    (r₁.result = .ok → ∃ out, StringAt r₁.dst args₁.outPath out ∧ StringAt r₂.dst args₂.outPath out)

theorem sameAnswer_iff {args₁ args₂ : NormalizeArgs} {r₁ r₂ : NormalizeReturn}
    {o₁ o₂ : Option (List UInt8)} (h₁ : AnswersString args₁ r₁ o₁) (h₂ : AnswersString args₂ r₂ o₂) :
    SameAnswer args₁ args₂ r₁ r₂ ↔ o₁ = o₂ := by
  cases o₁ with
  | none =>
    have hinvalid : r₁.result = .invalidPath := h₁
    cases o₂ with
    | none =>
      have hinvalid' : r₂.result = .invalidPath := h₂
      simp [SameAnswer, hinvalid, hinvalid']
    | some out₂ => simp [SameAnswer, hinvalid, h₂.1]
  | some out₁ =>
    obtain ⟨hok, hstring⟩ := h₁
    cases o₂ with
    | none =>
      have hinvalid : r₂.result = .invalidPath := h₂
      simp [SameAnswer, hok, hinvalid]
    | some out₂ =>
      obtain ⟨hok', hstring'⟩ := h₂
      rw [SameAnswer, hok, hok', Option.some.injEq]
      constructor
      · intro h
        rcases h with ⟨-, hsame⟩
        obtain ⟨out, hout, hout'⟩ := hsame rfl
        rw [← StringAt.unique hout hstring, ← StringAt.unique hout' hstring']
      · rintro rfl
        exact ⟨rfl, fun _ => ⟨out₁, hstring, hstring'⟩⟩

/-- The bytes of a component in the output, its separator included. -/
def componentSize (c : List UInt8) : Nat := c.length + 1

private theorem sum_componentSize_le_iff (components : List (List UInt8)) :
    (components.map componentSize).sum ≤ components.length ↔ ∀ c ∈ components, c = [] := by
  induction components with
  | nil => simp
  | cons c components ih =>
    have hle : components.length ≤ (components.map componentSize).sum := by
      have hsum := List.length_le_sum_of_one_le (components.map componentSize)
      rw [List.length_map] at hsum
      apply hsum
      intro n hn
      rcases List.mem_map.mp hn with ⟨d, -, rfl⟩
      exact Nat.succ_pos d.length
    rw [List.map_cons, List.sum_cons, List.length_cons, List.forall_mem_cons, ← ih, componentSize,
      ← List.length_eq_zero_iff]
    omega

/-- If the pops of a word remove more bytes than there are pops, one of them removes a component
that is not empty. -/
private theorem cancels_of_pops_lt {ops : List (StackOp (List UInt8))} {final : List (List UInt8)}
    (hrun : run ops [] = some final)
    (h : (final.map componentSize).sum + pops ops < pushed componentSize ops) :
    Cancels (fun c => c ≠ []) ops := by
  have hweight := weight_conserved componentSize hrun
  have hremoved := length_removed hrun
  rw [cancels_iff_removed _ hrun]
  by_contra hnone
  have hempty : ∀ c ∈ removed ops [], c = [] := by
    intro c hc
    by_contra hne
    exact hnone ⟨c, hc, hne⟩
  have hsum := (sum_componentSize_le_iff _).mpr hempty
  simp only [List.map_nil, List.sum_nil, Nat.zero_add] at hweight
  omega

/-- The two sides agree exactly when every removed component is empty, or when some parent reference
comes behind at least as many others as there are bytes in front of it. -/
private theorem applyOps_agree_iff {ops : List (StackOp (List UInt8))}
    (hfree : ∀ c, push c ∈ ops → pathSeparator ∉ c) :
    applyOps .above ops (render []) = applyOps .below ops (render []) ↔
      ¬Cancels (fun c => c ≠ []) ops ∨ Overpops componentSize ops 0 := by
  have habove := applyOps_above hfree (fun c hc => absurd hc List.not_mem_nil)
  have hbelow := applyOps_below_length ops (List.cons_ne_nil pathSeparator [])
  rw [← render_nil] at hbelow
  change _ = descend componentSize ops 0 at hbelow
  rw [habove]
  cases hlower : applyOps .below ops (render []) with
  | none =>
    -- below the input the output is used up, and so it is above
    rw [hlower, Option.map_none, eq_comm, descend_eq_none_iff] at hbelow
    have hover : Overpops (fun _ => 1) ops 0 := hbelow.of_le fun c => Nat.le_add_left 1 c.length
    rw [run_eq_none_iff_overpops.mpr hover]
    exact iff_of_true rfl (Or.inr hbelow)
  | some lower =>
    rw [hlower, Option.map_some] at hbelow
    have hvalid : ¬Overpops componentSize ops 0 := by
      rw [← descend_eq_none_iff, ← hbelow]
      exact Option.some_ne_none _
    have hlength := descend_add_pops componentSize hbelow.symm
    rw [or_iff_left hvalid]
    cases hrun : run ops [] with
    | none =>
      rcases run_eq_none_iff.mp hrun with ⟨before, after, rfl, hbefore⟩
      have hlt : pops before < pushed componentSize before := by
        by_contra hle
        exact hvalid ⟨before, after, rfl, by omega⟩
      have hcancels := cancels_of_pops_lt hbefore (by simpa using hlt)
      exact iff_of_false (Option.some_ne_none _).symm fun hnot => hnot (hcancels.append _)
    | some stack =>
      rw [Option.map_some, Option.some.injEq]
      constructor
      · rintro rfl
        rw [cancels_iff_removed _ hrun]
        intro h
        rcases h with ⟨c, hc, hne⟩
        have hweight := weight_conserved componentSize hrun
        have hremoved := length_removed hrun
        rw [length_render] at hlength
        change (stack.map componentSize).sum + 1 - 1 + _ = _ at hlength
        rw [List.map_nil, List.sum_nil] at hweight
        exact hne ((sum_componentSize_le_iff _).mp (by omega) c hc)
      · intro hnot
        rw [cancels_iff_removed _ hrun] at hnot
        have hsame : applyOps .below ops (render []) = some (render stack) := by
          apply applyOps_below hrun
          intro c hc
          by_contra hne
          exact hnot ⟨c, hc, hne⟩
        rw [hlower, Option.some.injEq] at hsame
        exact hsame.symm

/-- Two calls on a path give the same answer exactly when the buffers lie on the same side of their
inputs, or when the removed components do not tell the sides apart. -/
theorem normalize_same_iff (p : List UInt8) (args₁ args₂ : NormalizeArgs) (side₁ side₂ : Side)
    (dst₁ dst₂ : Mem) (hl₁ : Layout args₁ p side₁) (hl₂ : Layout args₂ p side₂)
    (hbuffer₁ : IsBuffer dst₁ args₁.outPath args₁.outLen)
    (hbuffer₂ : IsBuffer dst₂ args₂.outPath args₂.outLen) (hutf8 : IsWellFormedUtf8 p)
    (hlen₁ : p.length < args₁.outLen) (hlen₂ : p.length < args₂.outLen) :
    ∃ r₁ r₂, Converges (libdFilesystemFilepathNormalize args₁ dst₁) r₁ ∧
      Converges (libdFilesystemFilepathNormalize args₂ dst₂) r₂ ∧
      (SameAnswer args₁ args₂ r₁ r₂ ↔
        side₁ = side₂ ∨ ¬Cancels (fun c => c ≠ []) (pathOps p) ∨
          Overpops componentSize (pathOps p) 0) := by
  obtain ⟨r₁, hconv₁, hanswer₁⟩ := normalize_wellFormed hl₁ hbuffer₁ hutf8 hlen₁
  obtain ⟨r₂, hconv₂, hanswer₂⟩ := normalize_wellFormed hl₂ hbuffer₂ hutf8 hlen₂
  refine ⟨r₁, r₂, hconv₁, hconv₂, ?_⟩
  have hinj : Function.Injective fun output : List UInt8 => output ++ componentLast (componentsOf p) :=
    List.append_left_injective _
  have hagree := applyOps_agree_iff fun c => @pathOps_free p c
  rw [sameAnswer_iff hanswer₁ hanswer₂, (Option.map_injective hinj).eq_iff]
  cases side₁ with
  | above =>
    cases side₂ with
    | above => simp
    | below => simpa using hagree
  | below =>
    cases side₂ with
    | above => simpa [eq_comm] using hagree
    | below => simp

/-- `"/a/.//../b"`. -/
def doubledPath : List UInt8 := [47, 97, 47, 46, 47, 47, 46, 46, 47, 98]

theorem normalize_same_iff_doubled :
    ∃ r₁ r₂,
      Converges (libdFilesystemFilepathNormalize (callOn doubledPath 16 64 16) (zeroBuffer 64 16)) r₁ ∧
      Converges (libdFilesystemFilepathNormalize (callOn doubledPath 64 16 16) (zeroBuffer 16 16)) r₂ ∧
      SameAnswer (callOn doubledPath 16 64 16) (callOn doubledPath 64 16 16) r₁ r₂ := by
  have habove : Layout (callOn doubledPath 16 64 16) doubledPath .above :=
    ⟨rfl, by decide, rfl, by decide, by decide, by decide, (by decide : 16 < 64)⟩
  have hbelow : Layout (callOn doubledPath 64 16 16) doubledPath .below :=
    ⟨rfl, by decide, rfl, by decide, by decide, by decide, (by decide : 16 + 16 ≤ 64)⟩
  have hutf8 : IsWellFormedUtf8 doubledPath :=
    ⟨['/', 'a', '/', '.', '/', '/', '.', '.', '/', 'b'], by decide⟩
  obtain ⟨r₁, r₂, hconv₁, hconv₂, hiff⟩ := normalize_same_iff doubledPath
    (callOn doubledPath 16 64 16) (callOn doubledPath 64 16 16) .above .below (zeroBuffer 64 16)
    (zeroBuffer 16 16) habove hbelow (isBuffer_zeroBuffer 64 16) (isBuffer_zeroBuffer 16 16) hutf8
    (by decide) (by decide)
  -- the parent reference removes the empty component behind the dot
  have hrun : run (pathOps doubledPath) [] = some [[97]] := by decide
  have hkeeps : ¬Cancels (fun c => c ≠ []) (pathOps doubledPath) := by
    rw [cancels_iff_removed _ hrun]
    decide
  exact ⟨r₁, r₂, hconv₁, hconv₂, hiff.mpr (Or.inr (Or.inl hkeeps))⟩

/-- With the output above the input the path `"/a/../b"` becomes `"/b"`, below it `"/ab"`. -/
theorem normalize_same_fails :
    Layout (callOn parentPath 16 64 16) parentPath .above ∧
      Layout (callOn parentPath 64 16 16) parentPath .below ∧
      IsBuffer (zeroBuffer 64 16) 64 16 ∧ IsBuffer (zeroBuffer 16 16) 16 16 ∧
      IsWellFormedUtf8 parentPath ∧ parentPath.length < 16 ∧
      ∃ r₁ r₂,
        Converges (libdFilesystemFilepathNormalize (callOn parentPath 16 64 16) (zeroBuffer 64 16)) r₁ ∧
        Converges (libdFilesystemFilepathNormalize (callOn parentPath 64 16 16) (zeroBuffer 16 16)) r₂ ∧
        StringAt r₁.dst 64 [47, 98] ∧ StringAt r₂.dst 16 [47, 97, 98] ∧
        ¬SameAnswer (callOn parentPath 16 64 16) (callOn parentPath 64 16 16) r₁ r₂ := by
  have habove : Layout (callOn parentPath 16 64 16) parentPath .above :=
    ⟨rfl, by decide, rfl, by decide, by decide, by decide, (by decide : 16 < 64)⟩
  have hbelow : Layout (callOn parentPath 64 16 16) parentPath .below :=
    ⟨rfl, by decide, rfl, by decide, by decide, by decide, (by decide : 16 + 16 ≤ 64)⟩
  have hutf8 : IsWellFormedUtf8 parentPath := ⟨['/', 'a', '/', '.', '.', '/', 'b'], by decide⟩
  refine ⟨habove, hbelow, isBuffer_zeroBuffer 64 16, isBuffer_zeroBuffer 16 16, hutf8, by decide, ?_⟩
  obtain ⟨r₁, hconv₁, hanswer₁⟩ :=
    normalize_wellFormed habove (isBuffer_zeroBuffer 64 16) hutf8 (by decide)
  obtain ⟨r₂, hconv₂, hanswer₂⟩ :=
    normalize_wellFormed hbelow (isBuffer_zeroBuffer 16 16) hutf8 (by decide)
  refine ⟨r₁, r₂, hconv₁, hconv₂, hanswer₁.2, hanswer₂.2, ?_⟩
  rw [sameAnswer_iff hanswer₁ hanswer₂]
  decide

end Libdane
