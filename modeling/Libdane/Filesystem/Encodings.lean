import Libdane.Common
import Libdane.Framework.ByteMachine

/-!
# UTF-8 lengths

The library takes the length of a character from its first byte alone. In well-formed text that
length covers exactly one character, and the bytes of a longer character are never ASCII.
-/

namespace Libdane

open ByteMachine ByteMachine.Exec

def libdUtf8CharLen (leadingByte : UInt8) : UInt8 :=
  if leadingByte >>> 7 == 0b0 then 1
  else if leadingByte >>> 5 == 0b110 then 2
  else if leadingByte >>> 4 == 0b1110 then 3
  else if leadingByte >>> 3 == 0b11110 then 4
  else 0

/-- `libd_utf8_write_char`: the length it returns and the memory it leaves. -/
def libdUtf8WriteChar (dst : Mem) (dest : Nat) (src : Mem) (start : Nat) : Exec (UInt8 × Mem) := do
  let lead ← src.load start
  let len := libdUtf8CharLen lead
  let dst ← dst.copy dest src start len.toNat
  ret (len, dst)

/-- The two pointers may point into different memories. -/
def libdUtf8IsCharEqualTo (subjectMem : Mem) (subject : Nat) (objectMem : Mem) (object : Nat) :
    Exec Bool := do
  let lead ← subjectMem.load subject
  let len := libdUtf8CharLen lead
  if len == 0 then ret false
  else do
    let order ← subjectMem.compare subject objectMem object len.toNat
    ret (order == .eq)

private theorem char_len_table : ∀ n < 256, (libdUtf8CharLen (UInt8.ofNat n)).toNat =
    if n < 128 then 1 else if n < 192 then 0 else if n < 224 then 2 else if n < 240 then 3
      else if n < 248 then 4 else 0 := by
  decide +kernel

theorem libdUtf8CharLen_toNat (b : UInt8) : (libdUtf8CharLen b).toNat =
    if b.toNat < 128 then 1 else if b.toNat < 192 then 0 else if b.toNat < 224 then 2
      else if b.toNat < 240 then 3 else if b.toNat < 248 then 4 else 0 := by
  simpa using char_len_table b.toNat b.toNat_lt

/-- The bytes of one character: an ASCII byte, or as many high bytes as the first one announces. -/
inductive IsCharacter : List UInt8 → Prop where
  | ascii {b : UInt8} (h : b.toNat < 128) : IsCharacter [b]
  | multibyte {lead : UInt8} {more : List UInt8}
      (hlen : (libdUtf8CharLen lead).toNat = (lead :: more).length)
      (hhigh : ∀ b ∈ lead :: more, 128 ≤ b.toNat) : IsCharacter (lead :: more)

/-- A text made of whole characters. -/
inductive IsText : List UInt8 → Prop where
  | nil : IsText []
  | cons {chunk rest : List UInt8} (hchunk : IsCharacter chunk) (hrest : IsText rest) :
      IsText (chunk ++ rest)

/-- Well-formed UTF-8 is the encoding of some sequence of characters. -/
def IsWellFormedUtf8 (bytes : List UInt8) : Prop :=
  ∃ characters : List Char, bytes = characters.flatMap String.utf8EncodeChar

private theorem toNat_ofNat_byte {n : Nat} (h : n < 256) : (UInt8.ofNat n).toNat = n := by
  rw [UInt8.toNat_ofNat', Nat.mod_eq_of_lt h]

private theorem high_byte {n : Nat} (hlo : 128 ≤ n) (hhi : n < 256) :
    128 ≤ (UInt8.ofNat n).toNat := by
  rw [toNat_ofNat_byte hhi]
  exact hlo

private theorem char_len_lead {n len : Nat} (hhi : n < 256)
    (hlen : len = 2 ∧ 192 ≤ n ∧ n < 224 ∨ len = 3 ∧ 224 ≤ n ∧ n < 240 ∨
      len = 4 ∧ 240 ≤ n ∧ n < 248) : (libdUtf8CharLen (UInt8.ofNat n)).toNat = len := by
  rw [libdUtf8CharLen_toNat, toNat_ofNat_byte hhi]
  split_ifs <;> omega

theorem isCharacter_utf8EncodeChar (c : Char) : IsCharacter (String.utf8EncodeChar c) := by
  unfold String.utf8EncodeChar
  dsimp only
  generalize c.val.toNat = v
  split
  · apply IsCharacter.ascii
    rw [toNat_ofNat_byte (by omega)]
    omega
  split
  · apply IsCharacter.multibyte (char_len_lead (by omega) (by simp; omega))
    simp only [List.forall_mem_cons]
    exact ⟨high_byte (by omega) (by omega), high_byte (by omega) (by omega), by simp⟩
  split
  · apply IsCharacter.multibyte (char_len_lead (by omega) (by simp; omega))
    simp only [List.forall_mem_cons]
    exact ⟨high_byte (by omega) (by omega), high_byte (by omega) (by omega),
      high_byte (by omega) (by omega), by simp⟩
  · apply IsCharacter.multibyte (char_len_lead (by omega) (by simp; omega))
    simp only [List.forall_mem_cons]
    exact ⟨high_byte (by omega) (by omega), high_byte (by omega) (by omega),
      high_byte (by omega) (by omega), high_byte (by omega) (by omega), by simp⟩

theorem IsWellFormedUtf8.isText {bytes : List UInt8} (h : IsWellFormedUtf8 bytes) :
    IsText bytes := by
  rcases h with ⟨characters, rfl⟩
  induction characters with
  | nil => exact IsText.nil
  | cons c characters ih =>
    rw [List.flatMap_cons]
    exact IsText.cons (isCharacter_utf8EncodeChar c) ih

private theorem chunk_in_front {b : UInt8} {chunk rest first second : List UInt8} (hb : b ∉ chunk)
    (h : first ++ b :: second = chunk ++ rest) :
    ∃ tail, first = chunk ++ tail ∧ rest = tail ++ b :: second := by
  induction chunk generalizing first with
  | nil => exact ⟨first, rfl, h.symm⟩
  | cons x chunk ih =>
    simp only [List.mem_cons, not_or] at hb
    cases first with
    | nil =>
      simp only [List.nil_append, List.cons_append, List.cons.injEq] at h
      exact absurd h.1 hb.1
    | cons y first =>
      simp only [List.cons_append, List.cons.injEq] at h
      rcases ih hb.2 h.2 with ⟨tail, rfl, hrest⟩
      exact ⟨tail, by rw [h.1]; rfl, hrest⟩

theorem IsText.split {ascii : UInt8} (hascii : ascii.toNat < 128) {first second : List UInt8}
    (h : IsText (first ++ ascii :: second)) : IsText first ∧ IsText second := by
  generalize htext : first ++ ascii :: second = text at h
  induction h generalizing first with
  | nil => simp at htext
  | cons hchunk hrest ih =>
    cases hchunk with
    | @ascii b hb =>
      cases first with
      | nil =>
        simp only [List.nil_append, List.cons_append, List.cons.injEq] at htext
        rcases htext with ⟨-, rfl⟩
        exact ⟨IsText.nil, hrest⟩
      | cons x first =>
        simp only [List.nil_append, List.cons_append, List.cons.injEq] at htext
        rcases htext with ⟨rfl, htext⟩
        obtain ⟨hfirst, hsecond⟩ := ih htext
        exact ⟨IsText.cons (IsCharacter.ascii hb) hfirst, hsecond⟩
    | @multibyte lead more hlen hhigh =>
      have hout : ascii ∉ lead :: more := fun hmem => absurd (hhigh ascii hmem) (by omega)
      rcases chunk_in_front hout htext with ⟨tail, rfl, hrest'⟩
      obtain ⟨htail, hsecond⟩ := ih hrest'.symm
      exact ⟨IsText.cons (IsCharacter.multibyte hlen hhigh) htail, hsecond⟩

end Libdane
