import Libdane.Framework.LittleEndian
import Libdane.Platform.SequentialCalls
import Libdane.Platform.SlotLinearization

/-!
# Error contexts

Every thread has an error code with a message, which it keeps in the singleton slot of the
thread-local storage. The slot has the size that its creation asked for, and a set copies that many
bytes from a variable on the stack, whatever the size of an error context is.
-/

namespace Libdane

open PartialRuns

def sizeofMsg : Nat := 512

/-- The code, of four bytes, and the message. -/
def sizeofLibdErrorContext : Nat := 4 + sizeofMsg

structure LibdErrorContext where
  code : Int32
  msg : List UInt8
  length_msg : msg.length = sizeofMsg
  deriving DecidableEq

/-- At most `size` bytes, the last one a terminator. -/
def vsnprintf (buffer : List UInt8) (size : Nat) (text : List UInt8) : List UInt8 :=
  let written := text.take (size - 1) ++ [nullTerminator]
  written ++ buffer.drop written.length

private theorem length_vsnprintf {buffer : List UInt8} {size : Nat} (text : List UInt8)
    (hsize : 0 < size)
    (hbuffer : buffer.length = size) : (vsnprintf buffer size text).length = size := by
  simp [vsnprintf, hbuffer]
  omega

namespace LibdErrorContext

/-- `new_err` of `err_set`, where the text is what the format and its arguments print. -/
def newErr (code : Int32) (text : List UInt8) : LibdErrorContext where
  code := code
  msg := vsnprintf (List.replicate sizeofMsg 0) sizeofMsg text
  length_msg := length_vsnprintf text (by decide) List.length_replicate

/-- The memory from the variable on, with the rest of the stack behind it. -/
def memory (c : LibdErrorContext) (stack : Nat → UInt8) : Nat → UInt8 :=
  LittleEndian.store
    (fun i => if i < sizeofLibdErrorContext then c.msg.getD (i - 4) 0 else stack i)
    0 4 c.code.toUInt32.toNat

/-- The error context at the start of a block, if the block is large enough for one. -/
def read (block : List UInt8) : Option LibdErrorContext :=
  if h : sizeofLibdErrorContext ≤ block.length then
    some
      { code := (UInt32.ofNat (LittleEndian.load (fun i => block.getD i 0) 0 4)).toInt32
        msg := (block.drop 4).take sizeofMsg
        length_msg := by
          rw [sizeofLibdErrorContext] at h
          rw [List.length_take, List.length_drop]
          omega }
  else none

private theorem memory_msg (c : LibdErrorContext) (stack : Nat → UInt8) {i : Nat}
    (hi : i < sizeofMsg) :
    c.memory stack (4 + i) = c.msg.getD i 0 := by
  rw [memory, LittleEndian.store_outside _ _ (by omega), if_pos]
  · rw [Nat.add_sub_cancel_left]
  · rw [sizeofLibdErrorContext]
    omega

theorem memory_stack (c : LibdErrorContext) (stack : Nat → UInt8) {i : Nat}
    (hi : sizeofLibdErrorContext ≤ i) : c.memory stack i = stack i := by
  rw [memory, LittleEndian.store_outside, if_neg (Nat.not_lt.mpr hi)]
  rw [sizeofLibdErrorContext] at hi
  omega

theorem read_memory (c : LibdErrorContext) (stack : Nat → UInt8) {size : Nat}
    (hsize : sizeofLibdErrorContext ≤ size) :
    read ((List.range size).map (c.memory stack)) = some c := by
  have hlength : sizeofLibdErrorContext ≤ ((List.range size).map (c.memory stack)).length := by
    simpa using hsize
  have hcode : LittleEndian.load
      (fun i => ((List.range size).map (c.memory stack)).getD i 0) 0 4 = c.code.toUInt32.toNat := by
    have hbound := c.code.toUInt32.toNat_lt
    have hbytes : LittleEndian.load
        (fun i => ((List.range size).map (c.memory stack)).getD i 0) 0 4 =
          LittleEndian.load (c.memory stack) 0 4 := by
      apply LittleEndian.load_congr
      intro k hk
      have hlt : k < size := by
        rw [sizeofLibdErrorContext] at hsize
        omega
      simp [List.getElem?_range hlt]
    rw [hbytes, memory, LittleEndian.load_store]
    exact Nat.mod_eq_of_lt hbound
  have hmsg : (((List.range size).map (c.memory stack)).drop 4).take sizeofMsg = c.msg := by
    rw [sizeofLibdErrorContext] at hsize
    apply List.ext_getElem
    · rw [List.length_take, List.length_drop, List.length_map, List.length_range, c.length_msg]
      omega
    · intro i hi hi'
      rw [c.length_msg] at hi'
      rw [List.getElem_take, List.getElem_drop, List.getElem_map, List.getElem_range,
        c.memory_msg stack hi', List.getElem_eq_getD 0]
  simp only [read, dif_pos hlength, hcode, hmsg, UInt32.ofNat_toNat, Int32.toInt32_toUInt32]

theorem read_small {block : List UInt8} (h : block.length < sizeofLibdErrorContext) :
    read block = none := by
  rw [read, dif_neg (Nat.not_le.mpr h)]

end LibdErrorContext

/-- The size is not passed on. -/
def platformThreadLocalStaticGet (os : TlsOs) (p : TlsProcess) (thread : Nat) (_size : Nat) :
    Except TlsAbort TlsGetReturn :=
  libdPlatformThreadLocalStaticGet os p thread

def platformThreadLocalStaticSet (os : TlsOs) (p : TlsProcess) (thread : Nat)
    (newData : Option (Nat → UInt8)) (_size : Nat) : Except TlsAbort TlsReturn :=
  libdPlatformThreadLocalStaticSet os p thread none newData

def libdErrorErrGet (os : TlsOs) (p : TlsProcess) (thread : Nat) : Except TlsAbort TlsGetReturn :=
  platformThreadLocalStaticGet os p thread sizeofLibdErrorContext

def libdErrorsErrSet (os : TlsOs) (p : TlsProcess) (thread : Nat) (code : Int32)
    (text : List UInt8) (stack : Nat → UInt8) : Except TlsAbort TlsReturn :=
  let newErr := LibdErrorContext.newErr code text
  platformThreadLocalStaticSet os p thread (some (newErr.memory stack)) sizeofLibdErrorContext

/-- What a program does with error contexts and with slots of its own. -/
inductive ErrorAction where
  | errGet (thread : Nat)
  | errSet (thread : Nat) (code : Int32) (text : List UInt8) (stack : Nat → UInt8)
  | storage (a : TlsAction)

/-- The handle that the caller passes. -/
def TlsAction.handle : TlsAction → Option Nat
  | .get _ handle | .set _ handle _ _ | .destroy handle => handle
  | .create _ _ _ | .advance _ _ | .exit _ => none

/-- A call on the singleton, which has to be there. -/
def TlsMachine.enterStatic (m : TlsMachine) (thread : Nat) (a : Option Nat → TlsAction) :
    Option TlsMachine :=
  if m.process.gStaticHandle.isNone then
    if !m.idle thread then none
    else
      some (m.answer { thread := thread, handle := none, result := .notInitialized, data := none
                       newData := none })
  else m.step (a m.process.gStaticHandle)

/-- The program leaves the handle of the singleton alone. -/
def ErrorAction.step (m : TlsMachine) : ErrorAction → Option TlsMachine
  | .errGet thread => m.enterStatic thread fun handle => .get thread handle
  | .errSet thread code text stack =>
    let newErr := LibdErrorContext.newErr code text
    m.enterStatic thread fun handle => .set thread handle none (some (newErr.memory stack))
  | .storage a =>
    if a.handle.isSome && a.handle == m.process.gStaticHandle then none else m.step a

section Uninterrupted

variable {m : TlsMachine} {t : Nat} {os : TlsOs}

theorem errGet_uninterrupted (hi : SlotInv m) (hidle : m.idle t = true) {r : TlsGetReturn}
    (hget : libdErrorErrGet os m.process t = .ok r) :
    ∃ entered next a, ErrorAction.step m (.errGet t) = some entered ∧
      Continues os t entered next ∧ next.process = r.process ∧ next.activity t = none ∧
      next.answers = m.answers ++ [a] ∧ a.thread = t ∧ a.result = r.result ∧ a.data = r.data := by
  rw [libdErrorErrGet, platformThreadLocalStaticGet, libdPlatformThreadLocalStaticGet] at hget
  rw [ErrorAction.step, TlsMachine.enterStatic]
  cases hstatic : m.process.gStaticHandle with
  | none =>
    simp [hstatic] at hget
    subst hget
    simp only [hidle, Option.isNone_none, Bool.not_true, Bool.false_eq_true, if_true, if_false]
    exact ⟨_, _, _, rfl, .refl _, rfl, m.answer_self _, rfl, rfl, rfl, rfl⟩
  | some h =>
    simp [hstatic] at hget
    obtain ⟨entered, next, hstep, hgoes, hprocess, hidle', hanswers⟩ :=
      get_uninterrupted hi hidle hget
    exact ⟨entered, next, _, hstep, hgoes, hprocess, hidle', hanswers, rfl, rfl, rfl⟩

theorem errSet_uninterrupted (hi : SlotInv m) (hidle : m.idle t = true) {code : Int32}
    {text : List UInt8} {stack : Nat → UInt8} {r : TlsReturn}
    (hset : libdErrorsErrSet os m.process t code text stack = .ok r) :
    ∃ entered next a, ErrorAction.step m (.errSet t code text stack) = some entered ∧
      Continues os t entered next ∧ next.process = r.process ∧ next.activity t = none ∧
      next.answers = m.answers ++ [a] ∧ a.thread = t ∧ a.result = r.result := by
  rw [libdErrorsErrSet, platformThreadLocalStaticSet, libdPlatformThreadLocalStaticSet] at hset
  rw [ErrorAction.step, TlsMachine.enterStatic]
  cases hstatic : m.process.gStaticHandle with
  | none =>
    simp [hstatic] at hset
    subst hset
    simp only [hidle, Option.isNone_none, Bool.not_true, Bool.false_eq_true, if_true, if_false]
    exact ⟨_, _, _, rfl, .refl _, rfl, m.answer_self _, rfl, rfl, rfl⟩
  | some h =>
    simp only [hstatic, Option.isNone_some, Bool.false_eq_true, if_false] at hset
    obtain ⟨entered, next, a, hstep, hgoes, hprocess, hidle', hanswers, hthread, -, hresult⟩ :=
      set_uninterrupted hi hidle hset
    exact ⟨entered, next, a, hstep, hgoes, hprocess, hidle', hanswers, hthread, hresult⟩

end Uninterrupted

end Libdane
