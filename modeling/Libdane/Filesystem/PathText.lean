import Libdane.Filesystem.PathComponents

/-!
# Well-formed paths

In well-formed text the chunks of the reading are characters, so the reading sees the components
between the separators. It differs from the components in one point: a separator directly behind
a skipped reference counts as the end of an empty component.
-/

namespace Libdane

open StackWords StackOp

def dotName : List UInt8 := [dot]
def dotDotName : List UInt8 := [dot, dot]

/-- The components between the separators of a path, behind the separator that begins it. -/
def componentsOf (p : List UInt8) : List (List UInt8) := (p.splitOn pathSeparator).tail

/-- The operations of some components. `skipped` says that the text before them was a reference, so
that an empty component is pushed instead of being collapsed. -/
def componentOps : Bool → List (List UInt8) → List (StackOp (List UInt8))
  | _, [] => []
  | _, [c] => if c = dotDotName then [pop] else []
  | skipped, c :: next :: rest =>
    if c = [] then
      if skipped then push [] :: componentOps false (next :: rest)
      else componentOps false (next :: rest)
    else if c = dotName then componentOps true (next :: rest)
    else if c = dotDotName then pop :: componentOps true (next :: rest)
    else push c :: componentOps false (next :: rest)

/-- The component behind the last separator, unless it is a reference. -/
def componentLast : List (List UInt8) → List UInt8
  | [] => []
  | [c] => if c = dotName ∨ c = dotDotName then [] else c
  | _ :: next :: rest => componentLast (next :: rest)

/-- The operations that the function performs on the components of a well-formed path. -/
def pathOps (p : List UInt8) : List (StackOp (List UInt8)) := componentOps false (componentsOf p)

private theorem readNext_character {chunk rest : List UInt8} {behind : Bool}
    (hchunk : IsCharacter chunk) (hnul : nullTerminator ∉ chunk) (hs : pathSeparator ∉ chunk)
    (hdot : chunk = dotName → behind = true → endsHere rest = false ∧ dotsHere rest = false) :
    readNext behind (chunk ++ rest) = .act (.copy chunk) false rest := by
  obtain ⟨b, more, rfl, hlen⟩ : ∃ b more, chunk = b :: more ∧
      (libdUtf8CharLen b).toNat = (b :: more).length := by
    cases hchunk with
    | @ascii b hb => exact ⟨b, [], rfl, by rw [libdUtf8CharLen_toNat, if_pos hb]; rfl⟩
    | @multibyte lead more hlen _ => exact ⟨lead, more, rfl, hlen⟩
  have hb : b ≠ nullTerminator := fun he => hnul (by simp [he])
  have hsep : b ≠ pathSeparator := fun he => hs (by simp [he])
  have hdot' : b = dot → behind = true →
      endsHere (more ++ rest) = false ∧ dotsHere (more ++ rest) = false := by
    rintro rfl hbehind
    rw [libdUtf8CharLen_dot] at hlen
    obtain rfl : more = [] := List.length_eq_zero_iff.mp (by simpa using hlen.symm)
    exact hdot rfl hbehind
  have hlast : ((b :: more).getLast? == some pathSeparator) = false := by
    rw [beq_eq_false_iff_ne]
    intro he
    exact hs (List.mem_of_getLast? he)
  have hrelative : (b == dot && (behind && endsHere (more ++ rest))) = false := by
    by_cases hd : b = dot
    · cases behind with
      | false => simp
      | true => simp [(hdot' hd rfl).1]
    · simp [hd]
  have hparent : (b == dot && (behind && dotsHere (more ++ rest))) = false := by
    by_cases hd : b = dot
    · cases behind with
      | false => simp
      | true => simp [(hdot' hd rfl).2]
    · simp [hd]
  have hshort : ((b :: more).length == 0 || decide ((more ++ rest).length + 1 < (b :: more).length)) =
      false := by
    simp
  simp only [List.cons_append, readNext, beq_iff_eq, hb, hsep, if_false, hrelative, hparent, hlen,
    hshort, Bool.false_eq_true]
  simp only [List.length_cons, List.take_succ_cons, List.take_left', List.drop_succ_cons,
    List.drop_left', hlast]

private theorem readMarks_inside {w : List UInt8} (htext : IsText w) (hnul : nullTerminator ∉ w)
    (hs : pathSeparator ∉ w) (rest : List UInt8) :
    readMarks false (w ++ rest) =
      (readMarks false rest).map fun marks => w.map Mark.byte ++ marks := by
  induction htext with
  | nil => simp
  | @cons chunk w hchunk hw ih =>
    simp only [List.mem_append, not_or] at hnul hs
    have hstep : readNext false (chunk ++ (w ++ rest)) = .act (.copy chunk) false (w ++ rest) :=
      readNext_character hchunk hnul.1 hs.1 (by simp)
    rw [List.append_assoc, readMarks_act hstep, ih hnul.2 hs.2, Option.map_map]
    congr 1
    funext marks
    simp [Act.marks]

private theorem readMarks_nul (behind : Bool) (rest : List UInt8) :
    readMarks behind (nullTerminator :: rest) = some [] := by
  apply readMarks_stop
  simp [readNext]

theorem readMarks_separator (behind : Bool) (rest : List UInt8) :
    readMarks behind (pathSeparator :: rest) =
      (readMarks true (rest.dropWhile fun x => x == pathSeparator)).map fun marks =>
        .byte pathSeparator :: marks := by
  have hstep : readNext behind (pathSeparator :: rest) =
      .act (.copy [pathSeparator]) true (rest.dropWhile fun x => x == pathSeparator) := by
    simp [readNext]
  rw [readMarks_act hstep]
  rfl

private theorem endsHere_name {w rest : List UInt8} (hnul : nullTerminator ∉ w)
    (hs : pathSeparator ∉ w) (hne : w ≠ []) : endsHere (w ++ rest) = false := by
  cases w with
  | nil => exact absurd rfl hne
  | cons b w =>
    simp only [List.mem_cons, not_or] at hnul hs
    simp [endsHere, Ne.symm hnul.1, Ne.symm hs.1]

private theorem readMarks_relative {rest : List UInt8} (hends : endsHere rest = true) :
    readMarks true (dot :: rest) = readMarks (rest.head? == some pathSeparator) rest.tail := by
  have hstep : readNext true (dot :: rest) =
      .act .skip (rest.head? == some pathSeparator) rest.tail := by
    simp [readNext, hends]
  rw [readMarks_act hstep]
  simp [Act.marks]

private theorem readMarks_parent {rest : List UInt8} (hends : endsHere rest = true) :
    readMarks true (dot :: dot :: rest) =
      (readMarks (rest.head? == some pathSeparator) rest.tail).map fun marks =>
        .parent :: marks := by
  have hstep : readNext true (dot :: dot :: rest) =
      .act .parent (rest.head? == some pathSeparator) rest.tail := by
    have hfirst : endsHere (dot :: rest) = false := by simp [endsHere]
    have hdots : dotsHere (dot :: rest) = true := by simp [dotsHere, hends]
    simp [readNext, hfirst, hdots]
  rw [readMarks_act hstep]
  rfl

private theorem readMarks_name {c rest : List UInt8} (htext : IsText c) (hnul : nullTerminator ∉ c)
    (hs : pathSeparator ∉ c) (hne : c ≠ []) (hdot : c ≠ dotName) (hdots : c ≠ dotDotName) :
    readMarks true (c ++ rest) =
      (readMarks false rest).map fun marks => c.map Mark.byte ++ marks := by
  cases htext with
  | nil => exact absurd rfl hne
  | @cons chunk w hchunk hw =>
    simp only [List.mem_append, not_or] at hnul hs
    have hstep : readNext true (chunk ++ (w ++ rest)) = .act (.copy chunk) false (w ++ rest) := by
      apply readNext_character hchunk hnul.1 hs.1
      rintro rfl -
      have hw0 : w ≠ [] := fun he => hdot (by rw [he]; rfl)
      refine ⟨endsHere_name hnul.2 hs.2 hw0, ?_⟩
      cases w with
      | nil => exact absurd rfl hw0
      | cons b w =>
        by_cases hb : b = dot
        · subst hb
          have hw1 : w ≠ [] := fun he => hdots (by rw [he]; rfl)
          simp only [List.mem_cons, not_or] at hnul hs
          simp [dotsHere, endsHere_name hnul.2.2 hs.2.2 hw1]
        · simp [dotsHere, hb]
    rw [List.append_assoc, readMarks_act hstep, readMarks_inside hw hnul.2 hs.2, Option.map_map]
    congr 1
    funext marks
    simp [Act.marks]

/-- The text of some components. -/
def joined (components : List (List UInt8)) : List UInt8 := [pathSeparator].intercalate components

theorem joined_cons (c next : List UInt8) (rest : List (List UInt8)) :
    joined (c :: next :: rest) = c ++ pathSeparator :: joined (next :: rest) := by
  simp [joined]

theorem dropWhile_inputText (q : List UInt8) :
    ((inputText q).dropWhile fun x => x == pathSeparator) =
      inputText (q.dropWhile fun x => x == pathSeparator) := by
  induction q with
  | nil => rfl
  | cons b q ih =>
    change ((b :: inputText q).dropWhile _) = _
    by_cases hb : b = pathSeparator
    · simp [hb, ih]
    · simp [hb, inputText]

/-- The text has marks with these operations and this open component at the end. They copy at most
`size` bytes, none of them a NUL byte. -/
structure ReadsTo (text : List UInt8) (ops : List (StackOp (List UInt8))) (last : List UInt8)
    (size : Nat) (marks : List Mark) : Prop where
  read : readMarks true (inputText text) = some marks
  ops_eq : markOps [] marks = ops
  last_eq : markLast [] marks = last
  copied_le : copied marks ≤ size
  noNul : Mark.byte nullTerminator ∉ marks

section Steps

variable {c text last : List UInt8} {ops : List (StackOp (List UInt8))} {size : Nat}
  {marks : List Mark}

private theorem ReadsTo.mono {more : Nat} (h : ReadsTo text ops last size marks)
    (hle : size ≤ more) :
    ReadsTo text ops last more marks :=
  ⟨h.read, h.ops_eq, h.last_eq, h.copied_le.trans hle, h.noNul⟩

private theorem byte_notMem {bytes : List UInt8} (h : nullTerminator ∉ bytes) :
    Mark.byte nullTerminator ∉ bytes.map Mark.byte := by
  simpa using h

private theorem readsTo_nil : ReadsTo [] [] [] 0 [] :=
  ⟨readMarks_nul true [nullTerminator], rfl, rfl, le_rfl, List.not_mem_nil⟩

private theorem readsTo_last_relative : ReadsTo dotName [] [] 0 [] := by
  refine ⟨?_, rfl, rfl, le_rfl, List.not_mem_nil⟩
  change readMarks true (dot :: [nullTerminator, nullTerminator]) = _
  rw [readMarks_relative rfl]
  exact readMarks_nul _ []

private theorem readsTo_last_parent : ReadsTo dotDotName [pop] [] 0 [.parent] := by
  refine ⟨?_, rfl, rfl, le_rfl, by simp⟩
  change readMarks true (dot :: dot :: [nullTerminator, nullTerminator]) = _
  rw [readMarks_parent rfl, List.tail_cons, readMarks_nul, Option.map_some]

private theorem readsTo_last_name (htext : IsText c) (hnul : nullTerminator ∉ c)
    (hs : pathSeparator ∉ c) (hne : c ≠ []) (hdot : c ≠ dotName) (hdots : c ≠ dotDotName) :
    ReadsTo c [] c c.length (c.map Mark.byte) := by
  have hops := markOps_bytes hs [] []
  have hlast := markLast_bytes hs [] []
  have hcopied := copied_bytes c []
  rw [List.append_nil] at hops hlast hcopied
  refine ⟨?_, hops, hlast, hcopied.le, byte_notMem hnul⟩
  rw [inputText, readMarks_name htext hnul hs hne hdot hdots, readMarks_nul]
  simp

theorem readMarks_close (behind : Bool)
    (h : ReadsTo (text.dropWhile fun x => x == pathSeparator) ops last size marks) :
    readMarks behind (pathSeparator :: inputText text) = some (.byte pathSeparator :: marks) := by
  rw [readMarks_separator, dropWhile_inputText, h.read, Option.map_some]

private theorem ReadsTo.empty
    (h : ReadsTo (text.dropWhile fun x => x == pathSeparator) ops last size marks) :
    ReadsTo (pathSeparator :: text) (push [] :: ops) last (size + 1)
      (.byte pathSeparator :: marks) := by
  refine ⟨readMarks_close true h, ?_, ?_, ?_, ?_⟩
  · simp [markOps, h.ops_eq]
  · simp [markLast, openAfter, h.last_eq]
  · have hcopied := copied_bytes [pathSeparator] marks
    have hle := h.copied_le
    simp only [List.map_cons, List.map_nil, List.singleton_append, List.length_singleton] at hcopied
    omega
  · simp [h.noNul, pathSeparator_ne_nullTerminator.symm]

private theorem ReadsTo.relative (h : ReadsTo text ops last size marks) :
    ReadsTo (dotName ++ pathSeparator :: text) ops last size marks := by
  refine ⟨?_, h.ops_eq, h.last_eq, h.copied_le, h.noNul⟩
  change readMarks true (dot :: pathSeparator :: inputText text) = _
  rw [readMarks_relative rfl]
  exact h.read

private theorem ReadsTo.parent (h : ReadsTo text ops last size marks) :
    ReadsTo (dotDotName ++ pathSeparator :: text) (pop :: ops) last size (.parent :: marks) := by
  refine ⟨?_, ?_, ?_, ?_, ?_⟩
  · change readMarks true (dot :: dot :: pathSeparator :: inputText text) = _
    have hread : readMarks true (inputText text) = some marks := h.read
    rw [readMarks_parent rfl]
    simp [hread]
  · rw [markOps, h.ops_eq]
  · rw [markLast, h.last_eq]
  · rw [copied_parent]
    exact h.copied_le
  · simp [h.noNul]

private theorem ReadsTo.name
    (h : ReadsTo (text.dropWhile fun x => x == pathSeparator) ops last size marks)
    (htext : IsText c) (hnul : nullTerminator ∉ c) (hs : pathSeparator ∉ c) (hne : c ≠ [])
    (hdot : c ≠ dotName) (hdots : c ≠ dotDotName) :
    ReadsTo (c ++ pathSeparator :: text) (push c :: ops) last (c.length + (size + 1))
      (c.map Mark.byte ++ .byte pathSeparator :: marks) := by
  have hclosed := h.empty
  refine ⟨?_, ?_, ?_, ?_, ?_⟩
  · have hread := @readMarks_name c (pathSeparator :: inputText text) htext hnul hs hne hdot hdots
    rw [readMarks_close false h, Option.map_some] at hread
    rw [← hread, inputText, inputText, List.append_assoc, List.cons_append]
  · rw [markOps_bytes hs]
    simp [markOps, h.ops_eq]
  · rw [markLast_bytes hs]
    simp [markLast, openAfter, h.last_eq]
  · rw [copied_bytes]
    exact Nat.add_le_add_left hclosed.copied_le _
  · rw [List.mem_append, not_or]
    exact ⟨byte_notMem hnul, hclosed.noNul⟩

private theorem dropWhile_name (hs : pathSeparator ∉ c) (hne : c ≠ []) (rest : List UInt8) :
    ((c ++ rest).dropWhile fun x => x == pathSeparator) = c ++ rest := by
  cases c with
  | nil => exact absurd rfl hne
  | cons b c =>
    simp only [List.mem_cons, not_or] at hs
    simp [Ne.symm hs.1]

end Steps

/-- Reading the text of some components performs their operations. Without a skipped reference in
front of them, the separators at the start have been collapsed. -/
theorem readsTo_joined {components : List (List UInt8)} (hne : components ≠ [])
    (htext : IsText (joined components)) (hnul : ∀ c ∈ components, nullTerminator ∉ c)
    (hs : ∀ c ∈ components, pathSeparator ∉ c) (skipped : Bool) :
    ∃ marks, ReadsTo
      (if skipped then joined components
        else (joined components).dropWhile fun x => x == pathSeparator)
      (componentOps skipped components) (componentLast components) (joined components).length
      marks := by
  induction components generalizing skipped with
  | nil => exact absurd rfl hne
  | cons c rest ih =>
    have hnulc := hnul c List.mem_cons_self
    have hsc := hs c List.mem_cons_self
    have hkeep : c ≠ [] → ∀ tail : List UInt8, (if skipped then c ++ tail
        else (c ++ tail).dropWhile fun x => x == pathSeparator) = c ++ tail := by
      intro hc tail
      rw [dropWhile_name hsc hc, ite_self]
    cases rest with
    | nil =>
      have hjoin : joined [c] = c := by simp [joined]
      rw [hjoin] at htext ⊢
      by_cases hc : c = []
      · subst hc
        refine ⟨[], ?_⟩
        rw [List.dropWhile_nil, ite_self]
        exact readsTo_nil
      have hsame := hkeep hc []
      rw [List.append_nil] at hsame
      rw [hsame]
      by_cases hdot : c = dotName
      · subst hdot
        exact ⟨[], readsTo_last_relative.mono (Nat.zero_le _)⟩
      by_cases hdots : c = dotDotName
      · subst hdots
        exact ⟨[.parent], readsTo_last_parent.mono (Nat.zero_le _)⟩
      · refine ⟨c.map Mark.byte, ?_⟩
        rw [componentOps, if_neg hdots, componentLast, if_neg (not_or.mpr ⟨hdot, hdots⟩)]
        exact readsTo_last_name htext hnulc hsc hc hdot hdots
    | cons next rest =>
      rw [joined_cons] at htext ⊢
      obtain ⟨htextc, htextr⟩ := htext.split (by decide)
      have hrest := ih (by simp) htextr (fun d hd => hnul d (List.mem_cons_of_mem c hd))
        fun d hd => hs d (List.mem_cons_of_mem c hd)
      obtain ⟨collapsed, hcollapsed⟩ := hrest false
      obtain ⟨whole, hwhole⟩ := hrest true
      simp only [Bool.false_eq_true, if_false, if_true] at hcollapsed hwhole
      rw [componentLast, List.length_append, List.length_cons]
      by_cases hc : c = []
      · subst hc
        rw [componentOps, if_pos rfl, List.nil_append, List.length_nil, Nat.zero_add]
        cases skipped with
        | false =>
          rw [if_neg Bool.false_ne_true, if_neg Bool.false_ne_true]
          simpa using ⟨collapsed, hcollapsed.mono (Nat.le_succ _)⟩
        | true => exact ⟨_, hcollapsed.empty⟩
      rw [hkeep hc, componentOps, if_neg hc]
      by_cases hdot : c = dotName
      · subst hdot
        rw [if_pos rfl]
        exact ⟨whole, hwhole.relative.mono (by omega)⟩
      rw [if_neg hdot]
      by_cases hdots : c = dotDotName
      · subst hdots
        rw [if_pos rfl]
        exact ⟨_, hwhole.parent.mono (by omega)⟩
      · rw [if_neg hdots]
        exact ⟨_, hcollapsed.name htextc hnulc hsc hc hdot hdots⟩

end Libdane
