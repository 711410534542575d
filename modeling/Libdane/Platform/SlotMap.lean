import Libdane.Platform.SlotIsolation

/-!
# The slots as a map

Seen from outside, the thread-local storage is a map that gives every thread and handle a buffer with
its content. Each event changes it at one moment, and a buffer that a thread keeps changes only by
the sets of that thread.
-/

namespace Libdane

open PartialRuns

deriving instance DecidableEq for TlsBuffer

theorem TlsBuffer.assign_size (b : TlsBuffer) (setter : TlsSetter) (size : UInt64)
    (newData : Nat → UInt8) : (b.assign setter size newData).size = b.size := by
  cases setter with
  | none => rfl
  | some f => rfl

/-- The buffer of every thread and handle, by name and content, and what the calls have answered
that succeeded. -/
structure SlotMap where
  slots : Nat → Nat → Option (Nat × TlsBuffer)
  answers : List TlsAnswer

inductive SlotEvent where
  /-- The slot gets its buffer. -/
  | opened (thread handle data : Nat) (buffer : TlsBuffer)
  /-- A get returns the buffer, which has this content by then. -/
  | got (thread handle data : Nat) (buffer : TlsBuffer)
  | wrote (thread handle data : Nat) (setter : TlsSetter) (newData : Nat → UInt8)
  | exited (thread : Nat)

namespace SlotMap

def empty : SlotMap :=
  { slots := fun _ _ => none, answers := [] }

def put (s : SlotMap) (thread handle : Nat) (value : Nat × TlsBuffer) : SlotMap :=
  { s with
    slots := Function.update s.slots thread
      (Function.update (s.slots thread) handle (some value)) }

def forget (s : SlotMap) (thread : Nat) : SlotMap :=
  { s with slots := Function.update s.slots thread fun _ => none }

def log (s : SlotMap) (a : TlsAnswer) : SlotMap :=
  { s with answers := s.answers ++ [a] }

/-- What an event does to the map, or `none` where it does not fit. A copy is of as many bytes as
the buffer has. -/
def apply (s : SlotMap) : SlotEvent → Option SlotMap
  | .opened t h b buffer => if s.slots t h = none then some (s.put t h (b, buffer)) else none
  | .got t h b buffer =>
    if s.slots t h = some (b, buffer) then
      some (s.log { thread := t, handle := some h, result := .ok, data := some b, newData := none })
    else none
  | .wrote t h b setter newData =>
    match s.slots t h with
    | none => none
    | some (data, buffer) =>
      if data = b then
        some ((s.put t h (b, buffer.assign setter buffer.size newData)).log
          { thread := t, handle := some h, result := .ok, data := some b
            newData := some newData })
      else none
  | .exited t => some (s.forget t)

theorem put_slots_apply (s : SlotMap) (t h : Nat) (value : Nat × TlsBuffer) (u k : Nat) :
    (s.put t h value).slots u k = if u = t ∧ k = h then some value else s.slots u k := by
  by_cases hu : u = t
  · subst hu
    by_cases hk : k = h
    · simp [put, hk]
    · simp [put, hk]
  · simp [put, hu]

@[simp] theorem put_slots_self (s : SlotMap) (t h : Nat) (value : Nat × TlsBuffer) :
    (s.put t h value).slots t h = some value := by
  simp [put_slots_apply]

theorem forget_slots (s : SlotMap) (t : Nat) :
    (s.forget t).slots = Function.update s.slots t fun _ => none := rfl

end SlotMap

/-- The event writes to slots of the handle without a setter. -/
def SlotEvent.PlainOn (h : Nat) : SlotEvent → Prop
  | .wrote _ handle _ setter _ => handle = h → setter = none
  | .opened _ _ _ _ | .got _ _ _ _ | .exited _ => True

/-- The slot has the buffer that the calls returned, with the data of the last set. -/
structure SlotMap.Kept (s : SlotMap) (t h : Nat) : Prop where
  returned : ∀ a ∈ s.answers, a.thread = t → a.handle = some h →
    ∃ b buffer, a.data = some b ∧ s.slots t h = some (b, buffer)
  content : ∀ {b buffer newData}, s.slots t h = some (b, buffer) →
    lastWritten s.answers t h = some newData →
    buffer.content.take buffer.size.toNat = (List.range buffer.size.toNat).map newData

section Kept

variable {s s' : SlotMap} {t h : Nat}

private theorem SlotMap.Kept.log (hk : s.Kept t h) {a : TlsAnswer}
    (hslot : a.thread = t → a.handle = some h →
      ∃ b buffer, a.data = some b ∧ s.slots t h = some (b, buffer))
    (hlast : lastWritten (s.answers ++ [a]) t h = lastWritten s.answers t h) : (s.log a).Kept t h where
  returned := by
    intro a' ha' hthread hhandle
    cases List.mem_append.mp ha' with
    | inl hold => exact hk.returned a' hold hthread hhandle
    | inr hnew =>
      cases List.mem_singleton.mp hnew
      exact hslot hthread hhandle
  content := by
    intro b buffer newData hvalue hset
    rw [SlotMap.log, hlast] at hset
    exact hk.content hvalue hset

private theorem SlotMap.Kept.put_other (hk : s.Kept t h) {u k : Nat} (hother : ¬(t = u ∧ h = k))
    (value : Nat × TlsBuffer) : (s.put u k value).Kept t h := by
  have hsame : (s.put u k value).slots t h = s.slots t h := by
    rw [SlotMap.put_slots_apply, if_neg hother]
  constructor
  case returned =>
    rw [hsame]
    exact hk.returned
  case content =>
    rw [hsame]
    exact hk.content

private theorem SlotMap.Kept.opened (hk : s.Kept t h) (hempty : s.slots t h = none)
    (value : Nat × TlsBuffer) : (s.put t h value).Kept t h where
  returned := by
    intro a ha hthread hhandle
    obtain ⟨b, buffer, -, hslot⟩ := hk.returned a ha hthread hhandle
    rw [hempty] at hslot
    cases hslot
  content := by
    intro b buffer newData _ hlast
    obtain ⟨a, ha, hthread, hhandle, -⟩ := mem_of_lastWritten hlast
    obtain ⟨b', buffer', -, hslot⟩ := hk.returned a ha hthread hhandle
    rw [hempty] at hslot
    cases hslot

private theorem SlotMap.Kept.wrote (hk : s.Kept t h) {b : Nat} {buffer : TlsBuffer}
    (hslot : s.slots t h = some (b, buffer)) (newData : Nat → UInt8) :
    ((s.put t h (b, buffer.assign none buffer.size newData)).log
      { thread := t, handle := some h, result := .ok, data := some b
        newData := some newData }).Kept t h where
  returned := by
    intro a ha hthread hhandle
    refine ⟨b, _, ?_, SlotMap.put_slots_self _ _ _ _⟩
    cases List.mem_append.mp ha with
    | inl hold =>
      obtain ⟨b', buffer', hdata, hslot'⟩ := hk.returned a hold hthread hhandle
      cases hslot.symm.trans hslot'
      exact hdata
    | inr hnew =>
      cases List.mem_singleton.mp hnew
      rfl
  content := by
    intro b' buffer' newData' hvalue hlast
    change (s.put t h _).slots t h = _ at hvalue
    rw [SlotMap.put_slots_self] at hvalue
    cases hvalue
    rw [SlotMap.log, lastWritten_append, if_pos ⟨rfl, rfl, rfl⟩] at hlast
    cases hlast
    exact List.take_left' (by rw [List.length_map, List.length_range, TlsBuffer.assign_size])

private theorem SlotMap.Kept.forget (hk : s.Kept t h) {u : Nat} (hu : t ≠ u) :
    (s.forget u).Kept t h := by
  have hsame : (s.forget u).slots t h = s.slots t h := by
    rw [SlotMap.forget_slots, Function.update_of_ne hu]
  constructor
  case returned =>
    rw [hsame]
    exact hk.returned
  case content =>
    rw [hsame]
    exact hk.content

private theorem SlotMap.Kept.apply (hk : s.Kept t h) {e : SlotEvent} (hplain : e.PlainOn h)
    (hstay : e ≠ .exited t) (happly : s.apply e = some s') : s'.Kept t h := by
  cases e with
  | opened u k b buffer =>
    obtain ⟨hempty, hs'⟩ := Option.ite_none_right_eq_some.mp happly
    cases hs'
    by_cases hhere : t = u ∧ h = k
    · rw [← hhere.1, ← hhere.2] at hempty ⊢
      exact hk.opened hempty _
    · exact hk.put_other hhere _
  | got u k b buffer =>
    obtain ⟨hslot, hs'⟩ := Option.ite_none_right_eq_some.mp happly
    cases hs'
    apply hk.log _ (lastWritten_append_none rfl)
    intro hthread hhandle
    cases hthread
    cases hhandle
    exact ⟨b, buffer, rfl, hslot⟩
  | wrote u k b setter newData =>
    cases hslot : s.slots u k with
    | none => simp [SlotMap.apply, hslot] at happly
    | some value =>
      obtain ⟨data, buffer⟩ := value
      simp [SlotMap.apply, hslot] at happly
      obtain ⟨hdata, hs'⟩ := happly
      subst hdata
      rw [← hs']
      by_cases hhere : t = u ∧ h = k
      · obtain ⟨ht, hh⟩ := hhere
        subst ht
        subst hh
        cases hplain rfl
        exact hk.wrote hslot newData
      · apply (hk.put_other hhere _).log
        · intro hthread hhandle
          cases hhandle
          exact absurd ⟨hthread.symm, rfl⟩ hhere
        · apply lastWritten_append_other
          intro hsame
          exact hhere ⟨hsame.1.symm, (Option.some.inj hsame.2).symm⟩
  | exited u =>
    cases happly
    apply hk.forget
    intro hu
    exact hstay (by rw [hu])

theorem SlotMap.Kept.run (hk : s.Kept t h) {events : List SlotEvent}
    (hplain : ∀ e ∈ events, e.PlainOn h) (hstay : .exited t ∉ events)
    (hrun : PartialRuns.run SlotMap.apply s events = some s') : s'.Kept t h := by
  induction events generalizing s with
  | nil =>
    cases hrun
    exact hk
  | cons e events ih =>
    obtain ⟨mid, hmid, hrest⟩ := run_cons_eq_some.mp hrun
    rw [List.mem_cons, not_or] at hstay
    have hmid' := hk.apply (hplain e List.mem_cons_self) (Ne.symm hstay.1) hmid
    exact ih hmid' (fun e' he' => hplain e' (List.mem_cons_of_mem _ he')) hstay.2 hrest

end Kept

namespace TlsMachine

/-- The effect of the step, if it has one. A slot is filled by `pthread_setspecific`, and a call
takes effect when it returns. -/
def events (m : TlsMachine) : TlsAction → List SlotEvent
  | .advance t os =>
    match m.activity t with
    | none => []
    | some call =>
      match call.point with
      | .setspecific b =>
        match m.process.buffers b with
        | some buffer => if os.setspecific then [.opened t call.handle b buffer] else []
        | none => []
      | .obtained b =>
        match call.purpose, m.process.buffers b with
        | .get, some buffer => [.got t call.handle b buffer]
        | .set setter newData, some _ => [.wrote t call.handle b setter newData]
        | _, none => []
      | .getspecific | .malloc | .free _ => []
  | .exit t => [.exited t]
  | .create _ _ _ | .get _ _ | .set _ _ _ _ | .destroy _ => []

/-- The machine and the map agree on the slots of the handles that are there, on the buffers that
calls have obtained, and on the calls that succeeded. -/
structure Shows (m : TlsMachine) (s : SlotMap) : Prop where
  slots : ∀ {t h block}, m.process.handles h = some block → s.slots t h =
    (m.process.specific t block.key).bind fun b => (m.process.buffers b).map (b, ·)
  obtained : ∀ {t call b}, m.activity t = some call → call.point = .obtained b →
    ∃ buffer, m.process.buffers b = some buffer ∧ s.slots t call.handle = some (b, buffer)
  later : ∀ {t h}, m.process.nextHandle ≤ h → s.slots t h = none
  answers : s.answers = m.answers.filter fun a => a.result == .ok

end TlsMachine

end Libdane
