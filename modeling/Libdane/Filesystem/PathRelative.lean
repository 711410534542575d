import Libdane.Filesystem.PathIdempotence
import Libdane.Filesystem.PathRooted
import Libdane.Filesystem.RelativeMarks

/-!
# Relative paths

A relative path is normalised as the same path below the root, with one byte less in front of both
buffers. The two part at a parent reference that meets a single component: below the root it drops
that component, and on the relative path the backward scan leaves the output.
-/

namespace Libdane

open ByteMachine ByteMachine.Exec StackWords StackOp

/-- The answer of a call for an outcome. In a memory that holds exactly the buffer, a scan that leaves
the output is a fault. -/
def AnswersRelative (args : NormalizeArgs) (e : Exec NormalizeReturn) :
    RelativeOutcome (List UInt8) → Prop
  | .ok final => ∃ r, e = ret r ∧ Answers args r (some final)
  | .invalid => ∃ r, e = ret r ∧ Answers args r none
  | .leaves => e = fault

section Loop

variable {args : NormalizeArgs} {q : List UInt8} {c : Cursor} {behind : Bool}
  {rest output : List UInt8}

private theorem Written.of_rooted (hpos : 0 < args.outPath)
    (h : Written (args.rooted q) (pathSeparator :: output) (c.rooted args.outPath)) :
    c.writePos = args.outPath + output.length ∧ c.dst.Holds args.outPath output ∧
      output.length < args.outLen := by
  have hwrite : c.writePos = args.outPath - 1 + (pathSeparator :: output).length := h.write
  have hroom : (pathSeparator :: output).length < args.outLen + 1 := h.room
  have hholds : (rootedMem args.outPath c.dst).Holds (args.outPath - 1)
      (pathSeparator :: output) := h.holds
  rw [List.length_cons] at hwrite hroom
  refine ⟨by omega, ?_, by omega⟩
  have htail := (Mem.holds_cons.mp hholds).2
  rw [Nat.sub_add_cancel hpos] at htail
  apply Mem.holds_of_agree htail
  intro x hx _
  rw [rootedMem_of_le c.dst hpos hx]

private theorem Scans.of_rooted (hl : RelativeLayout args q)
    (h : Scans (args.rooted q) (pathSeparator :: q) behind rest c.scanPos)
    (hrest : rest.length ≤ (inputText q).length) : args.inputPath ≤ c.scanPos := by
  obtain ⟨done, hdone, hpos, -⟩ := h.split
  have hin := hl.inputPath
  have hlen := congrArg List.length hdone
  have hpos' : c.scanPos = args.inputPath - 1 + done.length := hpos
  rw [List.length_append] at hlen
  have hall : (inputText (pathSeparator :: q)).length = (inputText q).length + 1 := rfl
  omega

private theorem Tracks.body_eq (hl : RelativeLayout args q)
    (h : Tracks (args.rooted q) (pathSeparator :: q) behind rest (pathSeparator :: output)
      (c.rooted args.outPath))
    (hbuffer : IsBuffer c.dst args.outPath args.outLen)
    (hrest : rest.length ≤ (inputText q).length)
    (hdrop : ∀ behind' rest', readNext behind rest = .act .parent behind' rest' →
      output = [] ∨ pathSeparator ∈ output.dropLast) {fuel : Nat}
    {answer : Cursor ⊕ NormalizeReturn}
    (hbody : normalizeBody (args.rooted q) fuel (args.rooted q).outPath (c.rooted args.outPath) =
      ret answer) :
    ∃ answer', normalizeBody args fuel args.outPath c = ret answer' ∧
      answer'.map (Cursor.rooted args.outPath) (NormalizeReturn.rooted args.outPath) = answer := by
  have hin := hl.inputPath
  have hside := hl.side
  obtain ⟨hwrite, hholds, hroom⟩ := h.written.of_rooted (by omega)
  have hle := Scans.of_rooted hl h.scans hrest
  have hwithin : DropsWithin args c := by
    intro hat
    obtain ⟨behind', rest', hstep⟩ := (h.atParentRef hl hle).mp hat
    cases hdrop behind' rest' hstep with
    | inl hnil =>
      left
      rw [hwrite, hnil]
      rfl
    | inr hmem =>
      right
      obtain ⟨k, hk, hget⟩ := List.getElem_of_mem hmem
      rw [List.length_dropLast] at hk
      refine ⟨args.outPath + k, Nat.le_add_right _ _, by omega, hholds k _ ?_⟩
      rw [← hget, List.getElem_dropLast]
      exact List.getElem?_eq_getElem (by omega)
  have hsame := hl.body_rooted hbuffer (by omega) (by omega) hle hwithin fuel
  exact eq_ret_of_map (hsame.symm.trans hbody)

private theorem Tracks.body_continues (hl : RelativeLayout args q)
    (h : Tracks (args.rooted q) (pathSeparator :: q) behind rest (pathSeparator :: output)
      (c.rooted args.outPath))
    (hbuffer : IsBuffer c.dst args.outPath args.outLen)
    (hrest : rest.length ≤ (inputText q).length)
    (hdrop : ∀ behind' rest', readNext behind rest = .act .parent behind' rest' →
      output = [] ∨ pathSeparator ∈ output.dropLast) {fuel : Nat} {next : Cursor}
    (hbody : normalizeBody (args.rooted q) fuel (args.rooted q).outPath (c.rooted args.outPath) =
      ret (.inl next)) :
    ∃ next' : Cursor, normalizeBody args fuel args.outPath c = ret (.inl next') ∧
      next'.rooted args.outPath = next := by
  obtain ⟨answer, hanswer, hrooted⟩ := h.body_eq hl hbuffer hrest hdrop hbody
  cases answer with
  | inl next' => exact ⟨next', hanswer, Sum.inl.inj hrooted⟩
  | inr r => cases hrooted

private theorem Tracks.body_returns (hl : RelativeLayout args q)
    (h : Tracks (args.rooted q) (pathSeparator :: q) behind rest (pathSeparator :: output)
      (c.rooted args.outPath))
    (hbuffer : IsBuffer c.dst args.outPath args.outLen)
    (hrest : rest.length ≤ (inputText q).length)
    (hdrop : ∀ behind' rest', readNext behind rest = .act .parent behind' rest' →
      output = [] ∨ pathSeparator ∈ output.dropLast) {fuel : Nat} {r : NormalizeReturn}
    (hbody : normalizeBody (args.rooted q) fuel (args.rooted q).outPath (c.rooted args.outPath) =
      ret (.inr r)) :
    ∃ r' : NormalizeReturn, normalizeBody args fuel args.outPath c = ret (.inr r') ∧
      r'.rooted args.outPath = r := by
  obtain ⟨answer, hanswer, hrooted⟩ := h.body_eq hl hbuffer hrest hdrop hbody
  cases answer with
  | inl next => cases hrooted
  | inr r' => exact ⟨r', hanswer, Sum.inr.inj hrooted⟩

private theorem Answers.of_rooted (hpos : 0 < args.outPath) {r : NormalizeReturn}
    {final : List UInt8}
    (h : Answers (args.rooted q) (r.rooted args.outPath) (some (pathSeparator :: final))) :
    Answers args r (some final) := by
  obtain ⟨hok, hholds⟩ := h
  have hall : (rootedMem args.outPath r.dst).Holds (args.outPath - 1)
      (pathSeparator :: (final ++ [nullTerminator])) := hholds
  have htail := (Mem.holds_cons.mp hall).2
  rw [Nat.sub_add_cancel hpos] at htail
  refine ⟨hok, Mem.holds_of_agree htail ?_⟩
  intro x hx _
  rw [rootedMem_of_le r.dst hpos hx]

private theorem Tracks.parent_alone (hl : RelativeLayout args q)
    (h : Tracks (args.rooted q) (pathSeparator :: q) behind rest (pathSeparator :: output)
      (c.rooted args.outPath))
    (hbuffer : IsBuffer c.dst args.outPath args.outLen)
    (hrest : rest.length ≤ (inputText q).length) {behind' : Bool} {rest' : List UInt8}
    (hstep : readNext behind rest = .act .parent behind' rest') (hne : output ≠ [])
    (halone : pathSeparator ∉ output.dropLast) {fuel : Nat} (hfuel : args.outLen ≤ fuel) :
    normalizeBody args fuel args.outPath c =
      if output.length ≤ 1 then ret (.inr { result := .invalidPath, dst := c.dst }) else fault := by
  have hin := hl.inputPath
  have hside := hl.side
  have hpos := List.length_pos_iff.mpr hne
  obtain ⟨hwrite, hholds, hroom⟩ := h.written.of_rooted (by omega)
  have hat := (h.atParentRef hl (Scans.of_rooted hl h.scans hrest)).mpr ⟨behind', rest', hstep⟩
  by_cases hone : output.length ≤ 1
  · rw [if_pos hone]
    exact hat.invalid (by omega) fuel
  · rw [if_neg hone]
    apply hat.leaves hside _ (show c.writePos = args.outPath + (output.length - 1 + 1) by omega)
      (by omega) _ (by omega)
    · intro x hx
      have hout := hbuffer x
      rw [decide_eq_false (by omega)] at hout
      simpa using hout
    · intro x hlo hhi hx
      obtain ⟨k, rfl⟩ := Nat.exists_eq_add_of_le hlo
      have hk : k < output.length := by omega
      have hbyte := hholds k _ (List.getElem?_eq_getElem hk)
      rw [hx, Option.some.injEq] at hbyte
      apply halone
      have hlast : k < output.dropLast.length := by
        rw [List.length_dropLast]
        omega
      rw [hbyte, ← List.getElem_dropLast hlast]
      exact List.getElem_mem hlast

private theorem drops_of_ne {step : ReadStep} (hstep : readNext behind rest = step)
    (hne : ∀ behind' rest', step ≠ .act .parent behind' rest') (behind' : Bool) (rest' : List UInt8)
    (hparent : readNext behind rest = .act .parent behind' rest') :
    output = [] ∨ pathSeparator ∈ output.dropLast :=
  absurd (hstep.symm.trans hparent) (hne behind' rest')

/-- The loop answers for the marks of the rest, wherever it stands in front of that rest. -/
def AnswersFrom (args : NormalizeArgs) (q : List UInt8) (behind : Bool) (rest : List UInt8)
    (marks : List Mark) (fuel rounds : Nat) : Prop :=
  ∀ output (c : Cursor), Tracks (args.rooted q) (pathSeparator :: q) behind rest
      (pathSeparator :: output) (c.rooted args.outPath) →
    IsBuffer c.dst args.outPath args.outLen → output.length + copied marks < args.outLen →
      AnswersRelative args (loop (normalizeBody args fuel args.outPath) rounds c)
        (rewriteRelative marks output)

section Rounds

variable {behind' : Bool} {rest' : List UInt8} {marks : List Mark} {fuel rounds : Nat}

private theorem Tracks.answers_next (hl : RelativeLayout args q)
    (h : Tracks (args.rooted q) (pathSeparator :: q) behind rest (pathSeparator :: output)
      (c.rooted args.outPath))
    (hbuffer : IsBuffer c.dst args.outPath args.outLen)
    (hrest : rest.length ≤ (inputText q).length)
    (hbehind : AnswersFrom args q behind' rest' marks fuel rounds)
    (hdrop : ∀ behind' rest', readNext behind rest = .act .parent behind' rest' →
      output = [] ∨ pathSeparator ∈ output.dropLast) {output' : List UInt8} {next : Cursor}
    (hnext : Tracks (args.rooted q) (pathSeparator :: q) behind' rest' (pathSeparator :: output')
      next)
    (hbody : normalizeBody (args.rooted q) fuel (args.rooted q).outPath (c.rooted args.outPath) =
      ret (.inl next)) (hroom : output'.length + copied marks < args.outLen) :
    AnswersRelative args (loop (normalizeBody args fuel args.outPath) (rounds + 1) c)
      (rewriteRelative marks output') := by
  obtain ⟨next', hcontinues, rfl⟩ := h.body_continues hl hbuffer hrest hdrop hbody
  have hstays : Round args c next' := ⟨fuel, hcontinues⟩
  rw [loop_next rounds hcontinues]
  apply hbehind output' next' hnext _ hroom
  intro x
  rw [hstays.mapped x]
  exact hbuffer x

private theorem Tracks.answers_stop (hl : RelativeLayout args q)
    (h : Tracks (args.rooted q) (pathSeparator :: q) behind rest (pathSeparator :: output)
      (c.rooted args.outPath))
    (hbuffer : IsBuffer c.dst args.outPath args.outLen)
    (hrest : rest.length ≤ (inputText q).length)
    (hfuel : enoughFuel (args.rooted q) (pathSeparator :: q) ≤ fuel)
    (hstep : readNext behind rest = .stop) :
    AnswersRelative args (loop (normalizeBody args fuel args.outPath) (rounds + 1) c)
      (.ok output) := by
  have hside := hl.side
  have hround := h.round hl.rooted
  rw [hstep] at hround
  cases hround with
  | @stop dst hholds hbody =>
    obtain ⟨r, hreturn, hrooted⟩ :=
      h.body_returns hl hbuffer hrest (drops_of_ne hstep (by simp)) (hbody fuel hfuel)
    have hbelow : Answers (args.rooted q) (r.rooted args.outPath)
        (some (pathSeparator :: output)) := by
      rw [hrooted]
      exact ⟨rfl, hholds⟩
    exact ⟨r, loop_done rounds hreturn, hbelow.of_rooted (by omega)⟩

private theorem Tracks.answers_copy (hl : RelativeLayout args q)
    (h : Tracks (args.rooted q) (pathSeparator :: q) behind rest (pathSeparator :: output)
      (c.rooted args.outPath))
    (hbuffer : IsBuffer c.dst args.outPath args.outLen)
    (hrest : rest.length ≤ (inputText q).length)
    (hfuel : enoughFuel (args.rooted q) (pathSeparator :: q) ≤ fuel)
    (hbehind : AnswersFrom args q behind' rest' marks fuel rounds) {bytes : List UInt8}
    (hstep : readNext behind rest = .act (.copy bytes) behind' rest')
    (hroom : output.length + bytes.length + copied marks < args.outLen) :
    AnswersRelative args (loop (normalizeBody args fuel args.outPath) (rounds + 1) c)
      (rewriteRelative marks (output ++ bytes)) := by
  have hround := h.round hl.rooted
  rw [hstep] at hround
  cases hround with
  | @copy _ _ _ next hfits hnext hbody =>
    have hroom' : (output ++ bytes).length + copied marks < args.outLen := by
      rw [List.length_append]
      exact hroom
    exact h.answers_next hl hbuffer hrest hbehind (drops_of_ne hstep (by simp)) hnext
      (hbody fuel hfuel) hroom'
  | full hfull hbody =>
    have hfull' : args.outLen + 1 ≤ (pathSeparator :: output).length + bytes.length := hfull
    rw [List.length_cons] at hfull'
    omega

/-- A parent reference drops a component that is not the only one. -/
private theorem Tracks.answers_parent (hl : RelativeLayout args q)
    (h : Tracks (args.rooted q) (pathSeparator :: q) behind rest (pathSeparator :: output)
      (c.rooted args.outPath))
    (hbuffer : IsBuffer c.dst args.outPath args.outLen)
    (hrest : rest.length ≤ (inputText q).length)
    (hfuel : enoughFuel (args.rooted q) (pathSeparator :: q) ≤ fuel)
    (hbehind : AnswersFrom args q behind' rest' marks fuel rounds)
    (hstep : readNext behind rest = .act .parent behind' rest')
    (hroom : output.length + copied marks < args.outLen) :
    AnswersRelative args (loop (normalizeBody args fuel args.outPath) (rounds + 1) c)
      (rewriteRelative (.parent :: marks) output) := by
  have hround := h.round hl.rooted
  rw [hstep] at hround
  rw [rewriteRelative]
  cases hround with
  | parent hlen hnext hbody =>
    have hne : output ≠ [] := by
      rintro rfl
      simp at hlen
    by_cases hmem : pathSeparator ∈ output.dropLast
    · have hlong : ¬output.length ≤ 1 := by
        have hpos := List.length_pos_of_mem hmem
        rw [List.length_dropLast] at hpos
        omega
      have hle := dropParent_length .above output
      rw [dropParent_cons hmem] at hnext
      rw [if_neg hlong, if_pos hmem]
      exact h.answers_next hl hbuffer hrest hbehind (fun _ _ _ => Or.inr hmem) hnext
        (hbody fuel hfuel) (by omega)
    · have houtLen : (args.rooted q).outLen = args.outLen + 1 := rfl
      unfold enoughFuel at hfuel
      have halone := h.parent_alone hl hbuffer hrest hstep hne hmem
        (show args.outLen ≤ fuel by omega)
      rw [if_neg hmem]
      split_ifs at halone ⊢
      · exact ⟨_, loop_done rounds halone, rfl⟩
      · exact loop_fault rounds halone
  | invalid hlen hbody =>
    have hnil : output = [] := by
      rw [List.length_cons] at hlen
      exact List.length_eq_zero_iff.mp (by omega)
    obtain ⟨r, hreturn, hrooted⟩ :=
      h.body_returns hl hbuffer hrest (fun _ _ _ => Or.inl hnil) (hbody fuel hfuel)
    rw [hnil]
    exact ⟨r, loop_done rounds hreturn, congrArg NormalizeReturn.result hrooted⟩

end Rounds

private theorem Tracks.answersRelative (hl : RelativeLayout args q) {marks : List Mark}
    (hreads : Reads behind rest marks)
    (h : Tracks (args.rooted q) (pathSeparator :: q) behind rest (pathSeparator :: output)
      (c.rooted args.outPath))
    (hbuffer : IsBuffer c.dst args.outPath args.outLen)
    (hrest : rest.length ≤ (inputText q).length) (hroom : output.length + copied marks < args.outLen)
    {fuel rounds : Nat} (hfuel : enoughFuel (args.rooted q) (pathSeparator :: q) ≤ fuel)
    (hrounds : rest.length < rounds) :
    AnswersRelative args (loop (normalizeBody args fuel args.outPath) rounds c)
      (rewriteRelative marks output) := by
  induction hreads generalizing output c rounds with
  | stop hstep =>
    obtain ⟨rounds, rfl⟩ := Nat.exists_eq_succ_of_ne_zero (by omega : rounds ≠ 0)
    exact h.answers_stop hl hbuffer hrest hfuel hstep
  | @act behind behind' rest rest' a marks hstep hreads ih =>
    obtain ⟨rounds, rfl⟩ := Nat.exists_eq_succ_of_ne_zero (by omega : rounds ≠ 0)
    have hshorter := readNext_length hstep
    have hbehind : AnswersFrom args q behind' rest' marks fuel rounds := by
      intro output' next hnext hbuffer' hroom'
      exact ih hnext hbuffer' (by omega) hroom' (by omega)
    cases a with
    | copy bytes =>
      rw [Act.marks, copied_bytes] at hroom
      rw [Act.marks, rewriteRelative_bytes]
      exact h.answers_copy hl hbuffer hrest hfuel hbehind hstep (by omega)
    | skip =>
      have hround := h.round hl.rooted
      rw [hstep] at hround
      cases hround with
      | skip hnext hbody =>
        exact h.answers_next hl hbuffer hrest hbehind (drops_of_ne hstep (by simp)) hnext
          (hbody fuel hfuel) hroom
    | parent =>
      rw [Act.marks, List.singleton_append, copied_parent] at hroom
      exact h.answers_parent hl hbuffer hrest hfuel hbehind hstep hroom

private theorem RelativeLayout.enters (hl : RelativeLayout args q) (hlen : 0 < args.outLen) :
    Enters args := by
  have hin := hl.inputPath
  have hside := hl.side
  obtain ⟨b, tail, rfl⟩ := List.exists_cons_of_ne_nil hl.nonempty
  refine ⟨by omega, hlen, by omega, b, ?_, ?_⟩
  · rw [hl.src]
    exact (Mem.holds_cons.mp (Mem.holds_ofBytes args.inputPath (inputText (b :: tail)))).1
  · rintro rfl
    exact hl.noNul List.mem_cons_self

private theorem RelativeLayout.start (hl : RelativeLayout args q) {dst : Mem}
    (hbuffer : IsBuffer dst args.outPath args.outLen) (hlen : 0 < args.outLen) :
    Tracks (args.rooted q) (pathSeparator :: q) true (inputText q) [pathSeparator]
      ((startCursor args dst).rooted args.outPath) := by
  have hin := hl.inputPath
  have hside := hl.side
  constructor
  case scans =>
    refine ⟨[pathSeparator], rfl, ?_, rfl⟩
    show args.inputPath = args.inputPath - 1 + 1
    omega
  case written =>
    constructor
    case write =>
      show args.outPath = args.outPath - 1 + 1
      omega
    case holds =>
      apply Mem.holds_cons.mpr ⟨_, Mem.holds_nil⟩
      exact Function.update_self _ _ _
    case buffer =>
      intro x
      show (rootedMem args.outPath dst x).isSome =
        decide (args.outPath - 1 ≤ x ∧ x < args.outPath - 1 + (args.outLen + 1))
      by_cases hx : x = args.outPath - 1
      · rw [rootedMem, hx, Function.update_self]
        simp
      · rw [rootedMem, Function.update_of_ne hx, hbuffer x]
        congr 1
        rw [eq_iff_iff]
        omega
    case room =>
      show 1 < args.outLen + 1
      omega
  case slash => rfl

end Loop

private theorem output_noNul {stack : List (List UInt8)} {last : List UInt8}
    (hstack : ∀ c ∈ stack, nullTerminator ∉ c) (hlast : nullTerminator ∉ last) :
    nullTerminator ∉ render stack ++ last := by
  induction stack with
  | nil => simpa [render] using ⟨pathSeparator_ne_nullTerminator.symm, hlast⟩
  | cons c stack ih =>
    have hbelow := ih fun d hd => hstack d (List.mem_cons_of_mem c hd)
    have hc := hstack c List.mem_cons_self
    rw [List.mem_append, not_or] at hbelow
    simp [render_cons, hbelow.1, hc, hlast, pathSeparator_ne_nullTerminator.symm]

private theorem componentLast_noNul {p : List UInt8} (hstarts : p.head? = some pathSeparator)
    (hnul : nullTerminator ∉ p) : nullTerminator ∉ componentLast (componentsOf p) := by
  cases @componentLast_mem (componentsOf p) with
  | inl h =>
    rw [h]
    exact List.not_mem_nil
  | inr h => exact componentsOf_noNul hstarts hnul h

/-- What every run of a call with enough fuel comes to. -/
def EndsRelative (args : NormalizeArgs) (dst : Mem) : RelativeOutcome (List UInt8) → Prop
  | .ok out => ∃ r, Converges (libdFilesystemFilepathNormalize args dst) r ∧ r.result = .ok ∧
      StringAt r.dst args.outPath out
  | .invalid => ∃ r, Converges (libdFilesystemFilepathNormalize args dst) r ∧
      r.result = .invalidPath
  | .leaves => ∃ enough, ∀ fuel, enough ≤ fuel →
      libdFilesystemFilepathNormalize args dst fuel = fault

/-- A relative path is resolved like the same path below the root, without the separator of the root,
as long as no parent reference meets a single component. The first one that does makes the call read
the byte below the output, or return `libd_invalid_path` if that component is empty. -/
theorem normalize_relative (q : List UInt8) (args : NormalizeArgs) (dst : Mem)
    (hl : RelativeLayout args q) (hbuffer : IsBuffer dst args.outPath args.outLen)
    (hutf8 : IsWellFormedUtf8 q) (hlen : q.length < args.outLen) :
    EndsRelative args dst ((runRelative (pathOps (pathSeparator :: q)) []).map fun stack =>
      (render stack ++ componentLast (componentsOf (pathSeparator :: q))).tail) := by
  have htext : IsText (pathSeparator :: q) := isText_separator.append hutf8.isText
  have hnul : nullTerminator ∉ pathSeparator :: q := by
    simp [hl.noNul, pathSeparator_ne_nullTerminator.symm]
  obtain ⟨marks, -, hreads, haligned, hops, hlast, hcopied, -⟩ := exists_marks htext rfl hnul
  have hdrop : (q.dropWhile fun x => x == pathSeparator) = q := by
    cases q with
    | nil => rfl
    | cons b q =>
      have hb : b ≠ pathSeparator := fun he => hl.relative (congrArg some he)
      exact List.dropWhile_cons_of_neg (by simpa using hb)
  rw [List.tail_cons, hdrop] at hreads
  rw [List.length_cons] at hcopied
  have hstart := hl.start hbuffer (by omega)
  have hroom : ([] : List UInt8).length + copied marks < args.outLen := by
    rw [List.length_nil]
    omega
  have hrewrite := rewriteRelative_eq haligned List.not_mem_nil
    (fun c hc => absurd hc List.not_mem_nil) (rfl : [pathSeparator] = render [] ++ [])
  rw [hops, hlast] at hrewrite
  have hanswers : ∀ fuel, enoughFuel (args.rooted q) (pathSeparator :: q) ≤ fuel →
      AnswersRelative args (libdFilesystemFilepathNormalize args dst fuel)
        (rewriteRelative marks []) := by
    intro fuel hfuel
    have hrounds : (inputText q).length < fuel := by
      unfold enoughFuel at hfuel
      simp only [inputText, List.length_append, List.length_cons] at hfuel ⊢
      omega
    rw [(hl.enters (by omega)).normalize_eq dst (by omega)]
    exact hstart.answersRelative hl hreads hbuffer le_rfl hroom hfuel hrounds
  rw [hrewrite] at hanswers
  have hanswer := hanswers _ le_rfl
  cases houtcome : runRelative (pathOps (pathSeparator :: q)) [] with
  | ok stack =>
    rw [houtcome] at hanswer
    obtain ⟨r, hr, hok, hholds⟩ := hanswer
    have hrun := run_of_runRelative houtcome
    have hout : nullTerminator ∉ render stack ++ componentLast (componentsOf (pathSeparator :: q)) :=
      output_noNul (fun c hc => componentsOf_noNul rfl hnul
        (push_mem_componentOps (push_of_mem_run hrun hc)).1) (componentLast_noNul rfl hnul)
    exact ⟨r, (normalize_settled args dst).converges hr, hok, hholds,
      fun hmem => hout (List.mem_of_mem_tail hmem)⟩
  | invalid =>
    rw [houtcome] at hanswer
    obtain ⟨r, hr, hinvalid⟩ := hanswer
    exact ⟨r, (normalize_settled args dst).converges hr, hinvalid⟩
  | leaves =>
    rw [houtcome] at hanswers
    exact ⟨_, hanswers⟩

/-- `"a/b/.."` becomes `"a/"`, and on `"a/.."` the call reads the byte below the output. -/
theorem normalize_relative_cancelled :
    (∃ r, Converges (libdFilesystemFilepathNormalize
        (callOn [97, 47, 98, 47, 46, 46] 16 64 16) (zeroBuffer 64 16)) r ∧
      r.result = .ok ∧ StringAt r.dst 64 [97, 47]) ∧
      ∃ enough, ∀ fuel, enough ≤ fuel →
        libdFilesystemFilepathNormalize (callOn cancelledPath 16 64 16) (zeroBuffer 64 16) fuel =
          fault := by
  have hbuffer := isBuffer_zeroBuffer 64 16
  constructor
  · have hl : RelativeLayout (callOn [97, 47, 98, 47, 46, 46] 16 64 16) [97, 47, 98, 47, 46, 46] :=
      ⟨rfl, by decide, by decide, by decide, by decide, (by decide : 16 < 64), by decide⟩
    exact normalize_relative [97, 47, 98, 47, 46, 46] (callOn [97, 47, 98, 47, 46, 46] 16 64 16)
      (zeroBuffer 64 16) hl hbuffer ⟨['a', '/', 'b', '/', '.', '.'], by decide⟩ (by decide)
  · have hl : RelativeLayout (callOn cancelledPath 16 64 16) cancelledPath :=
      ⟨rfl, by decide, by decide, by decide, by decide, (by decide : 16 < 64), by decide⟩
    exact normalize_relative cancelledPath (callOn cancelledPath 16 64 16) (zeroBuffer 64 16) hl
      hbuffer ⟨['a', '/', '.', '.'], by decide⟩ (by decide)

end Libdane
