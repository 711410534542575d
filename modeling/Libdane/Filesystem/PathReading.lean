import Libdane.Filesystem.Filepath
import Mathlib.Data.List.DropRight

/-!
# Reading a path

What the normalisation does next depends only on the rest of the input and on whether a separator
lies behind. Each round copies some bytes, skips a reference or removes the end of the output, and
the rounds together turn the input into a list of marks that rewrites the output.
-/

namespace Libdane

/-- The input with the second NUL byte behind it. -/
def inputText (p : List UInt8) : List UInt8 := p ++ [nullTerminator, nullTerminator]

inductive Act where
  | copy (bytes : List UInt8)
  | skip
  | parent
  deriving DecidableEq

/-- One effect on the output: a byte at its end, or a parent reference. -/
inductive Mark where
  | byte (b : UInt8)
  | parent
  deriving DecidableEq

def Act.marks : Act → List Mark
  | .copy bytes => bytes.map Mark.byte
  | .skip => []
  | .parent => [Mark.parent]

inductive ReadStep where
  | stop
  | stuck
  | act (a : Act) (behind : Bool) (rest : List UInt8)
  deriving DecidableEq

/-- A separator or the end of the string comes next. -/
def endsHere : List UInt8 → Bool
  | [] => false
  | b :: _ => b == pathSeparator || b == nullTerminator

def dotsHere (rest : List UInt8) : Bool := rest.head? == some dot && endsHere rest.tail

/-- The next round of the main loop. A character without length, or one that the text does not
hold completely, gets it stuck. -/
def readNext (behind : Bool) : List UInt8 → ReadStep
  | [] => .stuck
  | b :: rest =>
    if b == nullTerminator then .stop
    else if b == pathSeparator then
      .act (.copy [b]) true (rest.dropWhile fun x => x == pathSeparator)
    else if b == dot && (behind && endsHere rest) then
      .act .skip (rest.head? == some pathSeparator) rest.tail
    else if b == dot && (behind && dotsHere rest) then
      .act .parent (rest.tail.head? == some pathSeparator) rest.tail.tail
    else
      let n := (libdUtf8CharLen b).toNat
      if n == 0 || rest.length + 1 < n then .stuck
      else .act (.copy ((b :: rest).take n)) (((b :: rest).take n).getLast? == some pathSeparator)
        ((b :: rest).drop n)

def readAux : Nat → Bool → List UInt8 → Option (List Mark)
  | 0, _, _ => none
  | fuel + 1, behind, rest =>
    match readNext behind rest with
    | .stop => some []
    | .stuck => none
    | .act a behind rest => (readAux fuel behind rest).map fun marks => a.marks ++ marks

/-- All marks of a text, or `none` if reading it gets stuck. -/
def readMarks (behind : Bool) (rest : List UInt8) : Option (List Mark) :=
  readAux (rest.length + 1) behind rest

/-- Everything a round can do. -/
inductive ReadCase (behind : Bool) : List UInt8 → ReadStep → Prop where
  | empty : ReadCase behind [] .stuck
  | stop (rest : List UInt8) : ReadCase behind (nullTerminator :: rest) .stop
  | separator (rest : List UInt8) :
      ReadCase behind (pathSeparator :: rest)
        (.act (.copy [pathSeparator]) true (rest.dropWhile fun x => x == pathSeparator))
  | relative (rest : List UInt8) (hbehind : behind = true) (hends : endsHere rest = true) :
      ReadCase behind (dot :: rest) (.act .skip (rest.head? == some pathSeparator) rest.tail)
  | parent (rest : List UInt8) (hbehind : behind = true) (hends : endsHere rest = false)
      (hdots : dotsHere rest = true) :
      ReadCase behind (dot :: rest)
        (.act .parent (rest.tail.head? == some pathSeparator) rest.tail.tail)
  | stuck (b : UInt8) (rest : List UInt8) (hb : b ≠ nullTerminator) (hs : b ≠ pathSeparator)
      (hd : b ≠ dot)
      (hlen : (libdUtf8CharLen b).toNat = 0 ∨ rest.length + 1 < (libdUtf8CharLen b).toNat) :
      ReadCase behind (b :: rest) .stuck
  | character (b : UInt8) (more rest : List UInt8) (hb : b ≠ nullTerminator)
      (hs : b ≠ pathSeparator) (hlen : (libdUtf8CharLen b).toNat = (b :: more).length)
      (hdot : b = dot → behind = true →
        endsHere (more ++ rest) = false ∧ dotsHere (more ++ rest) = false) :
      ReadCase behind (b :: (more ++ rest))
        (.act (.copy (b :: more)) ((b :: more).getLast? == some pathSeparator) rest)

theorem libdUtf8CharLen_dot : (libdUtf8CharLen dot).toNat = 1 := by decide

theorem readNext_cases (behind : Bool) (rest : List UInt8) :
    ReadCase behind rest (readNext behind rest) := by
  cases rest with
  | nil => exact .empty
  | cons b rest =>
    simp only [readNext]
    by_cases hb : b = nullTerminator
    · subst hb
      exact .stop rest
    by_cases hs : b = pathSeparator
    · subst hs
      exact .separator rest
    simp only [beq_iff_eq, hb, hs, if_false]
    split
    · rename_i h
      simp only [Bool.and_eq_true, beq_iff_eq] at h
      rcases h with ⟨rfl, hbehind, hends⟩
      exact .relative rest hbehind hends
    rename_i hrelative
    split
    · rename_i h
      simp only [Bool.and_eq_true, beq_iff_eq] at h hrelative
      rcases h with ⟨rfl, hbehind, hdots⟩
      exact .parent rest hbehind (by simpa [hbehind] using hrelative) hdots
    rename_i hparent
    simp only [Bool.and_eq_true, beq_iff_eq] at hrelative hparent
    split
    · rename_i h
      simp only [Bool.or_eq_true, beq_iff_eq, decide_eq_true_eq] at h
      apply ReadCase.stuck b rest hb hs ?_ h
      rintro rfl
      rw [libdUtf8CharLen_dot] at h
      omega
    · rename_i h
      simp only [Bool.or_eq_true, beq_iff_eq, decide_eq_true_eq, not_or, not_lt] at h
      obtain ⟨n, hn⟩ := Nat.exists_eq_succ_of_ne_zero h.1
      rw [hn, List.take_succ_cons, List.drop_succ_cons]
      have hlen : (libdUtf8CharLen b).toNat = (b :: rest.take n).length := by
        rw [List.length_cons, List.length_take, hn]
        omega
      have hcase := @ReadCase.character behind b (rest.take n) (rest.drop n) hb hs hlen
      rw [List.take_append_drop] at hcase
      apply hcase
      intro hdot hbehind
      exact ⟨Bool.eq_false_iff.mpr fun h => hrelative ⟨hdot, hbehind, h⟩,
        Bool.eq_false_iff.mpr fun h => hparent ⟨hdot, hbehind, h⟩⟩

theorem readNext_length {behind behind' : Bool} {rest rest' : List UInt8} {a : Act}
    (h : readNext behind rest = .act a behind' rest') : rest'.length < rest.length := by
  have hcase := readNext_cases behind rest
  rw [h] at hcase
  cases hcase with
  | separator rest =>
    have hdrop := (List.dropWhile_suffix fun x => x == pathSeparator : _ <:+ rest).length_le
    exact Nat.lt_succ_of_le hdrop
  | relative rest => simp
  | parent rest =>
    simp only [List.length_cons, List.length_tail]
    omega
  | character b more rest => simp

private theorem readAux_eq {fuel : Nat} {behind : Bool} {rest : List UInt8}
    (h : rest.length < fuel) :
    readAux fuel behind rest = readMarks behind rest := by
  induction hn : rest.length using Nat.strong_induction_on generalizing fuel behind rest with
  | _ n ih =>
    cases fuel with
    | zero => omega
    | succ fuel =>
      rw [readMarks, readAux, readAux]
      cases hstep : readNext behind rest with
      | stop => rfl
      | stuck => rfl
      | act a behind' rest' =>
        have hlt := readNext_length hstep
        have hleft := @ih rest'.length (by omega) fuel behind' rest' (by omega) rfl
        have hright := @ih rest'.length (by omega) rest.length behind' rest' (by omega) rfl
        simp only [hleft, hright]

theorem readMarks_stop {behind : Bool} {rest : List UInt8} (h : readNext behind rest = .stop) :
    readMarks behind rest = some [] := by
  rw [readMarks, readAux, h]

theorem readMarks_stuck {behind : Bool} {rest : List UInt8} (h : readNext behind rest = .stuck) :
    readMarks behind rest = none := by
  rw [readMarks, readAux, h]

theorem readMarks_act {behind behind' : Bool} {rest rest' : List UInt8} {a : Act}
    (h : readNext behind rest = .act a behind' rest') :
    readMarks behind rest = (readMarks behind' rest').map fun marks => a.marks ++ marks := by
  rw [readMarks, readAux, h]
  simp only [readAux_eq (readNext_length h)]

/-- The rounds of a text that is read to its end, with their marks. -/
inductive Reads : Bool → List UInt8 → List Mark → Prop where
  | stop {behind : Bool} {rest : List UInt8} (hstep : readNext behind rest = .stop) :
      Reads behind rest []
  | act {behind behind' : Bool} {rest rest' : List UInt8} {a : Act} {marks : List Mark}
      (hstep : readNext behind rest = .act a behind' rest') (h : Reads behind' rest' marks) :
      Reads behind rest (a.marks ++ marks)

theorem reads_of_readMarks {behind : Bool} {rest : List UInt8} {marks : List Mark}
    (h : readMarks behind rest = some marks) : Reads behind rest marks := by
  induction hn : rest.length using Nat.strong_induction_on generalizing behind rest marks with
  | _ n ih =>
    cases hstep : readNext behind rest with
    | stop =>
      rw [readMarks_stop hstep, Option.some.injEq] at h
      exact h ▸ .stop hstep
    | stuck =>
      rw [readMarks_stuck hstep] at h
      cases h
    | act a behind' rest' =>
      rw [readMarks_act hstep] at h
      rcases Option.map_eq_some_iff.mp h with ⟨marks', hmarks', rfl⟩
      exact .act hstep (ih _ (hn ▸ readNext_length hstep) hmarks' rfl)

/-- The output buffer lies at a higher or at a lower address than the input. -/
inductive Side where
  | above
  | below
  deriving DecidableEq

/-- The output after a parent reference. The scan for the separator is bounded by a position of the
input, and stops at once when the output lies below it. -/
def dropParent : Side → List UInt8 → List UInt8
  | .above, output => output.dropLast.rdropWhile fun b => b != pathSeparator
  | .below, output => output.dropLast

theorem dropParent_isPrefix (side : Side) (output : List UInt8) :
    dropParent side output <+: output.dropLast := by
  cases side with
  | above => exact List.rdropWhile_prefix _ _
  | below => exact List.prefix_refl _

theorem dropParent_length (side : Side) (output : List UInt8) :
    (dropParent side output).length ≤ output.length := by
  have h := (dropParent_isPrefix side output).length_le
  rw [List.length_dropLast] at h
  omega

theorem dropParent_head (side : Side) {output : List UInt8}
    (hslash : output.head? = some pathSeparator) (hlen : 2 ≤ output.length) :
    (dropParent side output).head? = some pathSeparator := by
  cases output with
  | nil => simp at hslash
  | cons b output =>
    simp only [List.head?_cons, Option.some.injEq] at hslash
    subst hslash
    cases output with
    | nil => simp at hlen
    | cons x output =>
      have hprefix := dropParent_isPrefix side (pathSeparator :: x :: output)
      have hne : dropParent side (pathSeparator :: x :: output) ≠ [] := by
        cases side with
        | above =>
          intro hnil
          have hall := List.rdropWhile_eq_nil_iff.mp hnil pathSeparator (by simp)
          simp at hall
        | below => simp [dropParent]
      obtain ⟨y, rest, heq⟩ := List.exists_cons_of_ne_nil hne
      rw [heq, List.dropLast_cons_cons, List.cons_prefix_cons] at hprefix
      rw [heq, hprefix.1]
      rfl

/-- The output after some marks, or `none` for an invalid path. -/
def rewriteOutput (side : Side) : List Mark → List UInt8 → Option (List UInt8)
  | [], output => some output
  | .byte b :: marks, output => rewriteOutput side marks (output ++ [b])
  | .parent :: marks, output =>
    if output.length ≤ 1 then none else rewriteOutput side marks (dropParent side output)

theorem rewriteOutput_bytes (side : Side) (bytes : List UInt8) (marks : List Mark)
    (output : List UInt8) :
    rewriteOutput side (bytes.map Mark.byte ++ marks) output =
      rewriteOutput side marks (output ++ bytes) := by
  induction bytes generalizing output with
  | nil => simp
  | cons b bytes ih => simp [rewriteOutput, ih]

/-- How many bytes some marks copy. -/
def copied (marks : List Mark) : Nat := marks.countP fun mark => mark != .parent

theorem copied_bytes (bytes : List UInt8) (marks : List Mark) :
    copied (bytes.map Mark.byte ++ marks) = bytes.length + copied marks := by
  rw [copied, List.countP_append, List.countP_map]
  congr 1
  exact List.countP_eq_length.mpr fun b _ => rfl

theorem copied_parent (marks : List Mark) : copied (.parent :: marks) = copied marks := by
  simp [copied]

end Libdane
