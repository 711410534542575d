import Libdane.Filesystem.Encodings

/-!
# Comparing characters

Two characters are compared over the bytes that the first one announces. No encoding is the beginning
of another one, so this decides whether the characters are the same, but a longer first character
makes the comparison read behind the second one.
-/

namespace Libdane

open ByteMachine ByteMachine.Exec

private theorem utf8EncodeChar_eq_cons (c : Char) :
    ∃ lead more, String.utf8EncodeChar c = lead :: more ∧
      (libdUtf8CharLen lead).toNat = c.utf8Size := by
  have hlen := String.length_utf8EncodeChar c
  have hcharacter := isCharacter_utf8EncodeChar c
  cases hbytes : String.utf8EncodeChar c with
  | nil => exact absurd hbytes String.utf8EncodeChar_ne_nil
  | cons lead more =>
    rw [hbytes] at hlen hcharacter
    exists lead, more, rfl
    cases hcharacter with
    | ascii hascii =>
      rw [libdUtf8CharLen_toNat, if_pos hascii]
      exact hlen
    | multibyte hannounced hhigh => exact hannounced.trans hlen

private theorem utf8EncodeChar_prefix_iff (c d : Char) (behind : List UInt8) :
    String.utf8EncodeChar c <+: String.utf8EncodeChar d ++ behind ↔ c = d := by
  constructor
  · rintro ⟨rest, hrest⟩
    have hdecode := congrArg (fun bytes : List UInt8 => bytes.toByteArray.utf8DecodeChar? 0) hrest
    simpa [List.toByteArray_append, ByteArray.utf8DecodeChar?_utf8EncodeChar_append] using hdecode
  · rintro rfl
    exact List.prefix_append _ _

/-- The comparison of a character with the text that begins with another one decides whether they are
the same, as long as the text is not shorter than the first character. Otherwise it reads behind the
text. -/
theorem isCharEqualTo_decides (m : Mem) (subject object : Nat) (c d : Char) (behind : List UInt8)
    (hsubject : m.Holds subject (String.utf8EncodeChar c)) :
    libdUtf8IsCharEqualTo m subject
        (Mem.ofBytes object (String.utf8EncodeChar d ++ behind)) object =
      if c.utf8Size ≤ d.utf8Size + behind.length then ret (decide (c = d)) else fault := by
  obtain ⟨lead, more, hbytes, hannounced⟩ := utf8EncodeChar_eq_cons c
  have hlead : m subject = some lead := by
    rw [hbytes] at hsubject
    exact (Mem.holds_cons.mp hsubject).1
  have hpos := c.utf8Size_pos
  have hvalid : ¬libdUtf8CharLen lead = 0 := by
    intro hzero
    rw [hzero] at hannounced
    exact absurd hannounced (by simp; omega)
  have htext : (String.utf8EncodeChar d ++ behind).length = d.utf8Size + behind.length := by
    rw [List.length_append, String.length_utf8EncodeChar]
  have hholds := Mem.holds_ofBytes object (String.utf8EncodeChar d ++ behind)
  rw [libdUtf8IsCharEqualTo, Mem.load_eq_ret.mpr hlead, ret_bind]
  simp only [beq_iff_eq, if_neg hvalid, hannounced]
  split_ifs with hfits
  · -- the bytes of the text that are compared
    have hsplit := List.take_append_drop c.utf8Size (String.utf8EncodeChar d ++ behind)
    rw [← hsplit, Mem.holds_append, hsplit] at hholds
    have hlen : (String.utf8EncodeChar c).length =
        ((String.utf8EncodeChar d ++ behind).take c.utf8Size).length := by
      rw [String.length_utf8EncodeChar, List.length_take, htext]
      omega
    obtain ⟨order, hcompare, horder⟩ := Mem.compare_holds hlen hsubject hholds.1
    have hsame : order = .eq ↔ c = d := by
      rw [horder, ← utf8EncodeChar_prefix_iff c d behind, List.prefix_iff_eq_take,
        String.length_utf8EncodeChar]
    rw [String.length_utf8EncodeChar] at hcompare
    rw [hcompare, ret_bind]
    by_cases hcd : c = d
    · rw [hsame.mpr hcd, decide_eq_true hcd]
      rfl
    · rw [decide_eq_false hcd, beq_eq_false_iff_ne.mpr (hsame.not.mpr hcd)]
  · have hout : Mem.ofBytes object (String.utf8EncodeChar d ++ behind)
        (object + (d.utf8Size + behind.length)) = none := by
      rw [Mem.ofBytes, if_pos (Nat.le_add_right _ _), Nat.add_sub_cancel_left]
      exact List.getElem?_eq_none htext.le
    rw [Mem.compare_fault (Nat.lt_of_not_le hfits) hout, fault_bind]

/-- `'é'` against `"e"`, without and with a terminator behind it. -/
theorem isCharEqualTo_decides_accent :
    libdUtf8IsCharEqualTo (Mem.ofBytes 16 [195, 169]) 16 (Mem.ofBytes 64 [101]) 64 = fault ∧
      libdUtf8IsCharEqualTo (Mem.ofBytes 16 [195, 169]) 16 (Mem.ofBytes 64 [101, 0]) 64 =
        ret false := by
  have hsubject : (Mem.ofBytes 16 [195, 169]).Holds 16 (String.utf8EncodeChar 'é') :=
    Mem.holds_ofBytes 16 [195, 169]
  constructor
  · exact isCharEqualTo_decides (Mem.ofBytes 16 [195, 169]) 16 64 'é' 'e' [] hsubject
  · exact isCharEqualTo_decides (Mem.ofBytes 16 [195, 169]) 16 64 'é' 'e' [0] hsubject

end Libdane
