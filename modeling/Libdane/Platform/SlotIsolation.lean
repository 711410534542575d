import Libdane.Platform.AnsweredCalls
import Libdane.Platform.SlotOwnership

/-!
# Isolation of thread-local slots

In runs of get and set, however their system calls interleave and fail, every thread keeps one
buffer for each handle, and it alone reads and writes it.
-/

namespace Libdane

open PartialRuns

/-- The buffer has the size of the handle and begins with the data. -/
structure TlsBuffer.Holds (buffer : TlsBuffer) (block : ThreadLocalStorageHandle)
    (data : Option (Nat → UInt8)) : Prop where
  size : buffer.size = block.dataSize
  content : ∀ newData ∈ data, buffer.content.take block.dataSize.toNat =
    (List.range block.dataSize.toNat).map newData

/-- What the actions, a run of get and set, have answered and left behind. -/
structure Isolated (actions : List TlsAction) (m : TlsMachine) : Prop where
  answered : ∀ a ∈ m.answers, a.result = .ok → ∃ h block b, a.handle = some h ∧
    m.process.handles h = some block ∧ a.data = some b ∧
    m.process.specific a.thread block.key = some b
  same : ∀ a ∈ m.answers, ∀ a' ∈ m.answers, a.result = .ok → a'.result = .ok →
    a.thread = a'.thread → a.handle = a'.handle → a.data = a'.data
  apart : ∀ a ∈ m.answers, ∀ a' ∈ m.answers, a.result = .ok → a'.result = .ok →
    a.data = a'.data → a.thread = a'.thread ∧ a.handle = a'.handle
  content : ∀ a ∈ m.answers, a.result = .ok → ∀ h block b, a.handle = some h →
    m.process.handles h = some block → a.data = some b → ∃ buffer,
      m.process.buffers b = some buffer ∧ buffer.Holds block (lastSet actions m a.thread h)
  no_leak : ∀ b, (m.process.buffers b).isSome →
    (∃ t k, m.process.specific t k = some b) ∨ ∃ t, m.inFlight t b = true

/-- The first answer of the thread that comes after the machine. -/
def nextAnswer (m final : TlsMachine) (t : Nat) : Option TlsAnswer :=
  (final.answers.drop m.answers.length).find? fun a => a.thread == t

/-- The slots hold the same buffers with the same bytes. -/
def SameSlots (m next : TlsMachine) : Prop :=
  next.process.specific = m.process.specific ∧ ∀ t k b, m.process.specific t k = some b →
    next.process.buffers b = m.process.buffers b

/-- No step of a call that will fail changes a slot. -/
def FailuresChangeNothing (actions : List TlsAction) (final : TlsMachine) : Prop :=
  ∀ before a after, actions = before ++ a :: after → ∀ m next t answer,
    run TlsMachine.step .start before = some m → m.step a = some next → a.thread = some t →
    nextAnswer m final t = some answer → answer.result ≠ .ok → SameSlots m next

/-- What is true all along a run of get and set. -/
structure IsolationInv (m : TlsMachine) : Prop where
  inv : SlotInv m
  live : ∀ {t call}, m.activity t = some call → ∃ block, m.process.handles call.handle = some block
  plain : ∀ {t call}, m.activity t = some call → call.purpose.Plain
  answered : ∀ a ∈ m.answers, a.result = .ok → ∃ h block b, a.handle = some h ∧
    m.process.handles h = some block ∧ a.data = some b ∧
    m.process.specific a.thread block.key = some b
  buffered : ∀ {t h b block}, m.process.handles h = some block →
    m.process.specific t block.key = some b → ∃ buffer,
      m.process.buffers b = some buffer ∧ buffer.Holds block (lastWritten m.answers t h)
  flying : ∀ {t call b block}, m.activity t = some call → call.point.unregistered = some b →
    m.process.handles call.handle = some block → ∃ buffer,
      m.process.buffers b = some buffer ∧ buffer.Holds block none
  no_leak : ∀ b, (m.process.buffers b).isSome →
    (∃ t k, m.process.specific t k = some b) ∨ ∃ t, m.inFlight t b = true

section Steps

variable {m next : TlsMachine} {a : TlsAction}

private theorem TlsStep.handles_mono (hstep : TlsStep m a next) (ha : a.Plain) (hi : SlotInv m)
    {h : Nat} {block : ThreadLocalStorageHandle} (hblock : m.process.handles h = some block) :
    next.process.handles h = some block := by
  cases hstep with
  | created =>
    have hne : h ≠ m.process.nextHandle := Nat.ne_of_lt (hi.slots.handle_lt hblock)
    rw [TlsProcess.install_handles, Function.update_of_ne hne]
    exact hblock
  | destroyed => cases ha
  | _ => exact hblock

private theorem TlsStep.specific_mono (hstep : TlsStep m a next) (ha : a.Plain) (hi : SlotInv m)
    {t k b : Nat} (hvalue : m.process.specific t k = some b) :
    next.process.specific t k = some b := by
  cases hstep with
  | stored hcall hpoint hblock =>
    have hempty := hi.slot_empty hcall (by rw [hpoint]; rfl) hblock
    show (m.process.store _ _ _).specific t k = some b
    rw [TlsProcess.store_specific_apply, if_neg]
    · exact hvalue
    · intro hhere
      rw [hhere.1, hhere.2, hempty] at hvalue
      cases hvalue
  | exited => cases ha
  | _ => exact hvalue

theorem TlsStep.call_of (hstep : TlsStep m a next) {t : Nat} {call : TlsCall}
    (hcall : next.activity t = some call) :
    (∃ old, m.activity t = some old ∧ old.handle = call.handle ∧ old.purpose = call.purpose) ∨
      ((∃ block, m.process.handles call.handle = some block) ∧
        (a.Plain → call.purpose.Plain)) := by
  by_cases ht : a.thread = some t
  · cases hstep with
    | refused | created | kept | destroyed => cases ht
    | rejected ha =>
      cases ha.symm.trans ht
      exact absurd (hcall.symm.trans (m.answer_self _)) nofun
    | entered ha hplain hidle hblock =>
      cases ha.symm.trans ht
      cases hcall.symm.trans (m.resume_self _ _)
      exact Or.inr ⟨⟨_, hblock⟩, hplain⟩
    | found hold | missed hold | unstored hold =>
      cases ht
      cases hcall.symm.trans (m.resume_self _ _)
      exact Or.inl ⟨_, hold, rfl, rfl⟩
    | allocated old hold =>
      cases ht
      cases hcall.symm.trans (TlsMachine.resume_self _ _ _)
      exact Or.inl ⟨_, hold, rfl, rfl⟩
    | stored hold =>
      cases ht
      cases hcall.symm.trans (TlsMachine.resume_self _ _ _)
      exact Or.inl ⟨_, hold, rfl, rfl⟩
    | exhausted | freed | fetched | assigned =>
      cases ht
      exact absurd (hcall.symm.trans (TlsMachine.answer_self _ _)) nofun
    | exited hidle =>
      cases ht
      exact absurd (hcall.symm.trans hidle) nofun
  · rw [(hstep.other ht).1] at hcall
    exact Or.inl ⟨call, hcall, rfl, rfl⟩

private theorem IsolationInv.step_live (hi : IsolationInv m) (hstep : TlsStep m a next)
    (ha : a.Plain) {t : Nat} {call : TlsCall} (hcall : next.activity t = some call) :
    ∃ block, next.process.handles call.handle = some block := by
  cases hstep.call_of hcall with
  | inl h =>
    obtain ⟨old, hold, hhandle, -⟩ := h
    obtain ⟨block, hblock⟩ := hi.live hold
    rw [hhandle] at hblock
    exact ⟨block, hstep.handles_mono ha hi.inv hblock⟩
  | inr h =>
    obtain ⟨block, hblock⟩ := h.1
    exact ⟨block, hstep.handles_mono ha hi.inv hblock⟩

private theorem IsolationInv.step_plain (hi : IsolationInv m) (hstep : TlsStep m a next)
    (ha : a.Plain)
    {t : Nat} {call : TlsCall} (hcall : next.activity t = some call) : call.purpose.Plain := by
  cases hstep.call_of hcall with
  | inl h =>
    obtain ⟨old, hold, -, hpurpose⟩ := h
    rw [← hpurpose]
    exact hi.plain hold
  | inr h => exact h.2 ha

private theorem IsolationInv.step_answered (hi : IsolationInv m) (hstep : TlsStep m a next)
    (ha : a.Plain) (answer : TlsAnswer) (hmem : answer ∈ next.answers)
    (hok : answer.result = .ok) :
    ∃ h block b, answer.handle = some h ∧ next.process.handles h = some block ∧
      answer.data = some b ∧ next.process.specific answer.thread block.key = some b := by
  have hnow : ∃ h block b, answer.handle = some h ∧ m.process.handles h = some block ∧
      answer.data = some b ∧ m.process.specific answer.thread block.key = some b := by
    cases hstep.answers with
    | inl hsame =>
      rw [hsame] at hmem
      exact hi.answered answer hmem hok
    | inr hnew =>
      obtain ⟨last, happend, -, hlast⟩ := hnew
      rw [happend] at hmem
      cases List.mem_append.mp hmem with
      | inl hold => exact hi.answered answer hold hok
      | inr hlast' =>
        cases List.mem_singleton.mp hlast'
        obtain ⟨call, b, hcall, hpoint, hhandle, hdata⟩ := hlast hok
        obtain ⟨block, hblock⟩ := hi.live hcall
        have hreads := (hi.inv.calls hcall).reads hblock
        rw [hpoint] at hreads
        exact ⟨call.handle, block, b, hhandle, hblock, hdata, hreads⟩
  obtain ⟨h, block, b, hhandle, hblock, hdata, hvalue⟩ := hnow
  exact ⟨h, block, b, hhandle, hstep.handles_mono ha hi.inv hblock, hdata,
    hstep.specific_mono ha hi.inv hvalue⟩

private theorem IsolationInv.lastWritten_empty (hi : IsolationInv m) {t h : Nat}
    {block : ThreadLocalStorageHandle} (hblock : m.process.handles h = some block)
    (hempty : m.process.specific t block.key = none) : lastWritten m.answers t h = none := by
  cases hlast : lastWritten m.answers t h with
  | none => rfl
  | some newData =>
    obtain ⟨answer, hmem, rfl, hhandle, hok⟩ := mem_of_lastWritten hlast
    obtain ⟨h', block', b, hhandle', hblock', -, hvalue⟩ := hi.answered answer hmem hok
    cases hhandle.symm.trans hhandle'
    cases hblock.symm.trans hblock'
    rw [hempty] at hvalue
    cases hvalue

private theorem TlsBuffer.Holds.assign {buffer : TlsBuffer} {block : ThreadLocalStorageHandle}
    {data : Option (Nat → UInt8)} (hbuffer : buffer.Holds block data) (newData : Nat → UInt8) :
    (buffer.assign none block.dataSize newData).Holds block (some newData) := by
  constructor
  case size => exact hbuffer.size
  case content =>
    intro written hwritten
    cases hwritten
    exact List.take_left' (by rw [List.length_map, List.length_range])

private theorem IsolationInv.step_buffered (hi : IsolationInv m) (hstep : TlsStep m a next)
    (ha : a.Plain) {t h b : Nat} {block : ThreadLocalStorageHandle}
    (hblock : next.process.handles h = some block)
    (hvalue : next.process.specific t block.key = some b) :
    ∃ buffer, next.process.buffers b = some buffer ∧
      buffer.Holds block (lastWritten next.answers t h) := by
  cases hstep with
  | refused => exact hi.buffered hblock hvalue
  | created os destructor size =>
    cases OwnedSlots.handles_install destructor size hblock with
    | inl hnew =>
      obtain ⟨h', howner⟩ := hi.inv.slots.stored hvalue
      have hlt := hi.inv.slots.owner_key_lt howner
      exact absurd hnew.2 (Nat.ne_of_lt hlt)
    | inr hold => exact hi.buffered hold.2 hvalue
  | entered | found | missed | unstored => exact hi.buffered hblock hvalue
  | rejected | exhausted | fetched =>
    obtain ⟨buffer, hbuffer, hholds⟩ := hi.buffered hblock hvalue
    exact ⟨buffer, hbuffer, by rw [TlsMachine.answer, lastWritten_append_none rfl]; exact hholds⟩
  | allocated =>
    obtain ⟨buffer, hbuffer, hholds⟩ := hi.buffered hblock hvalue
    have hne : b ≠ m.process.nextBuffer := Nat.ne_of_lt (hi.inv.slots.buffer_lt hbuffer)
    exact ⟨buffer, (Function.update_of_ne hne _ _).trans hbuffer, hholds⟩
  | @stored t' os call block' b' hcall hpoint hblock' =>
    have hb' : call.point.unregistered = some b' := by rw [hpoint]; rfl
    change (m.process.store t' block'.key b').specific t block.key = some b at hvalue
    rw [TlsProcess.store_specific_apply] at hvalue
    split at hvalue
    next hhere =>
      cases hvalue
      have hh : h = call.handle := hi.inv.slots.key_inj hblock hblock' hhere.2
      rw [hh] at hblock
      cases hblock.symm.trans hblock'
      have hempty := hi.inv.slot_empty hcall hb' hblock
      rw [hh, hhere.1]
      show ∃ buffer : TlsBuffer, _ ∧ buffer.Holds block (lastWritten m.answers t' call.handle)
      rw [hi.lastWritten_empty hblock hempty]
      exact hi.flying hcall hb' hblock
    next => exact hi.buffered hblock hvalue
  | @freed t' os call b' hcall hpoint =>
    obtain ⟨buffer, hbuffer, hholds⟩ := hi.buffered hblock hvalue
    obtain ⟨block', hblock'⟩ := hi.live hcall
    have hne : b ≠ b' := hi.inv.unregistered_ne hcall (by rw [hpoint]; rfl) hblock' hvalue
    refine ⟨buffer, (Function.update_of_ne hne _ _).trans hbuffer, ?_⟩
    rw [TlsMachine.answer, lastWritten_append_none rfl]
    exact hholds
  | @assigned t' os call b' setter newData size hcall hpoint hpurpose hsize =>
    have hplain := hi.plain hcall
    rw [hpurpose] at hplain
    obtain ⟨block', hblock', rfl⟩ := hsize hplain
    cases hplain
    have hslot := (hi.inv.calls hcall).reads hblock'
    rw [hpoint] at hslot
    obtain ⟨buffer, hbuffer, hholds⟩ := hi.buffered hblock hvalue
    have howner := hi.inv.slots.owner_of_slot hblock hvalue
    by_cases hb : b = b'
    · -- the set wrote to this buffer
      subst hb
      have hsame := Option.some.inj
        (howner.symm.trans (hi.inv.slots.owner_of_slot hblock' hslot))
      have ht : t = t' := congrArg TlsOwner.thread hsame
      have hh : h = call.handle := congrArg TlsOwner.handle hsame
      rw [hh] at hblock
      cases hblock.symm.trans hblock'
      refine ⟨buffer.assign none block.dataSize newData, ?_, ?_⟩
      · show (m.process.assign b none block.dataSize newData).buffers b = _
        rw [TlsProcess.assign_buffers, Function.update_self, hbuffer, Option.map_some]
      · rw [TlsMachine.answer, lastWritten_append, if_pos ⟨ht.symm, by rw [hh], rfl⟩]
        exact hholds.assign newData
    · refine ⟨buffer, (Function.update_of_ne hb _ _).trans hbuffer, ?_⟩
      rw [TlsMachine.answer, lastWritten_append_other]
      · exact hholds
      · intro hhere
        have hh : call.handle = h := Option.some.inj hhere.2
        rw [hh] at hblock'
        cases hblock.symm.trans hblock'
        have ht : t' = t := hhere.1
        rw [ht] at hslot
        exact hb (Option.some.inj (hvalue.symm.trans hslot))
  | exited | kept | destroyed => cases ha

theorem TlsStep.buffers_other (hstep : TlsStep m a next) (hi : SlotInv m) {b : Nat} {o : TlsOwner}
    (howner : m.owner b = some o) (ho : a.thread ≠ some o.thread) :
    next.process.buffers b = m.process.buffers b := by
  have hne {t b' : Nat} {call : TlsCall} (hcall : m.activity t = some call)
      (hb' : call.point.data = some b') (ht : a.thread = some t) : b ≠ b' := by
    intro hb
    rw [← hb] at hb'
    obtain ⟨k, howner'⟩ := (hi.calls hcall).holds hb'
    apply ho
    rw [ht, Option.some.inj (howner.symm.trans howner')]
  cases hstep with
  | allocated => exact Function.update_of_ne (Nat.ne_of_lt (hi.slots.owner_lt howner)) _ _
  | freed hcall hpoint => exact Function.update_of_ne (hne hcall (by rw [hpoint]; rfl) rfl) _ _
  | assigned hcall hpoint => exact Function.update_of_ne (hne hcall (by rw [hpoint]; rfl) rfl) _ _
  | _ => rfl

private theorem IsolationInv.step_flying (hi : IsolationInv m) (hstep : TlsStep m a next)
    (ha : a.Plain) {t b : Nat} {call : TlsCall} {block : ThreadLocalStorageHandle}
    (hcall : next.activity t = some call) (hb : call.point.unregistered = some b)
    (hblock : next.process.handles call.handle = some block) :
    ∃ buffer, next.process.buffers b = some buffer ∧ buffer.Holds block none := by
  by_cases ht : a.thread = some t
  · cases hstep with
    | refused | created | kept | destroyed => cases ht
    | rejected ha' =>
      cases ha'.symm.trans ht
      exact absurd (hcall.symm.trans (m.answer_self _)) nofun
    | entered ha' =>
      cases ha'.symm.trans ht
      cases hcall.symm.trans (m.resume_self _ _)
      cases hb
    | found | missed =>
      cases ht
      cases hcall.symm.trans (m.resume_self _ _)
      cases hb
    | stored =>
      cases ht
      cases hcall.symm.trans (TlsMachine.resume_self _ _ _)
      cases hb
    | @allocated t os old block' bytes hold hpoint hblock' =>
      cases ht
      cases hcall.symm.trans (TlsMachine.resume_self _ _ _)
      cases hb
      cases hblock.symm.trans hblock'
      exact ⟨_, Function.update_self _ _ _, rfl, nofun⟩
    | @unstored t os old b' hold hpoint =>
      cases ht
      cases hcall.symm.trans (m.resume_self _ _)
      exact hi.flying hold (by rw [hpoint]; exact hb) hblock
    | exhausted | freed | fetched | assigned =>
      cases ht
      exact absurd (hcall.symm.trans (TlsMachine.answer_self _ _)) nofun
    | exited hidle =>
      cases ht
      exact absurd (hcall.symm.trans hidle) nofun
  · rw [(hstep.other ht).1] at hcall
    obtain ⟨k, howner⟩ := hi.inv.owner_of_unregistered hcall hb
    rw [hstep.buffers_other hi.inv howner ht]
    obtain ⟨block', hblock'⟩ := hi.live hcall
    cases hblock.symm.trans (hstep.handles_mono ha hi.inv hblock')
    exact hi.flying hcall hb hblock'

/-- A buffer that lives on is in a slot or in flight if it was. -/
private theorem IsolationInv.step_no_leak_old (hi : IsolationInv m) (hstep : TlsStep m a next)
    (ha : a.Plain) {b : Nat} (hold : (m.process.buffers b).isSome)
    (hb : (next.process.buffers b).isSome) :
    (∃ t k, next.process.specific t k = some b) ∨ ∃ t, next.inFlight t b = true := by
  cases hi.no_leak b hold with
  | inl hslot =>
    obtain ⟨t, k, hvalue⟩ := hslot
    exact Or.inl ⟨t, k, hstep.specific_mono ha hi.inv hvalue⟩
  | inr hflight =>
    obtain ⟨t, hflight⟩ := hflight
    by_cases ht : a.thread = some t
    · obtain ⟨call, hcall, hheld⟩ := call_of_inFlight hflight
      have hpoint' {point : TlsPoint} {old : TlsCall} (hold : m.activity t = some old)
          (hpoint : old.point = point) : point.unregistered = some b := by
        cases hcall.symm.trans hold
        rw [← hpoint, hheld]
      cases hstep with
      | refused | created | kept | destroyed => cases ht
      | rejected ha' hidle | entered ha' _ hidle =>
        cases ha'.symm.trans ht
        cases hcall.symm.trans hidle
      | found hold hpoint | missed hold hpoint | exhausted hold hpoint | allocated _ hold hpoint
      | fetched hold hpoint | assigned hold hpoint =>
        cases ht
        cases hpoint' hold hpoint
      | stored hold hpoint hblock =>
        cases ht
        cases hpoint' hold hpoint
        left
        exact ⟨t, _, (TlsProcess.store_specific_apply _ _ _ _ _ _).trans (if_pos ⟨rfl, rfl⟩)⟩
      | unstored hold hpoint =>
        cases ht
        cases hpoint' hold hpoint
        right
        exact ⟨t, by rw [inFlight_resume, TlsPoint.unregistered, beq_self_eq_true]⟩
      | freed hold hpoint =>
        cases ht
        cases hpoint' hold hpoint
        exact absurd (hb.symm.trans (congrArg Option.isSome (Function.update_self _ _ _))) nofun
      | exited => cases ha
    · right
      exact ⟨t, by rw [inFlight_congr (hstep.other ht).1, hflight]⟩

private theorem IsolationInv.step_no_leak (hi : IsolationInv m) (hstep : TlsStep m a next)
    (ha : a.Plain) (b : Nat) (hb : (next.process.buffers b).isSome) :
    (∃ t k, next.process.specific t k = some b) ∨ ∃ t, next.inFlight t b = true := by
  by_cases hold : (m.process.buffers b).isSome
  · exact hi.step_no_leak_old hstep ha hold hb
  · cases hstep with
    | allocated =>
      by_cases hnew : b = m.process.nextBuffer
      · right
        exact ⟨_, by rw [inFlight_resume, hnew, TlsPoint.unregistered, beq_self_eq_true]⟩
      · exact absurd ((congrArg Option.isSome (Function.update_of_ne hnew _ _)).symm.trans hb) hold
    | freed => exact absurd (m.process.live_of_dispose hb) hold
    | assigned => exact absurd (m.process.live_of_assign hb) hold
    | _ => exact absurd hb hold

private theorem IsolationInv.step (hi : IsolationInv m) (hstep : TlsStep m a next) (ha : a.Plain) :
    IsolationInv next where
  inv := hi.inv.step hstep
  live := hi.step_live hstep ha
  plain := hi.step_plain hstep ha
  answered := hi.step_answered hstep ha
  buffered := hi.step_buffered hstep ha
  flying := hi.step_flying hstep ha
  no_leak := hi.step_no_leak hstep ha

private theorem IsolationInv.start : IsolationInv TlsMachine.start where
  inv := SlotInv.start
  live := nofun
  plain := nofun
  answered := nofun
  buffered := nofun
  flying := nofun
  no_leak := nofun

private theorem IsolationInv.run {actions : List TlsAction} (hi : IsolationInv m)
    (hplain : ∀ a ∈ actions, a.Plain) (hrun : run TlsMachine.step m actions = some next) :
    IsolationInv next := by
  induction actions generalizing m with
  | nil =>
    cases hrun
    exact hi
  | cons a actions ih =>
    obtain ⟨mid, hmid, hrest⟩ := run_cons_eq_some.mp hrun
    have hmid' := hi.step (TlsMachine.steps hmid) (hplain a List.mem_cons_self)
    exact ih hmid' (fun a' ha' => hplain a' (List.mem_cons_of_mem _ ha')) hrest

private theorem IsolationInv.isolated {actions : List TlsAction} (hi : IsolationInv m)
    (hlast : ∀ t h, lastSet actions m t h = lastWritten m.answers t h) : Isolated actions m := by
  constructor
  case answered => exact hi.answered
  case no_leak => exact hi.no_leak
  case same =>
    intro a ha a' ha' hok hok' ht hh
    obtain ⟨h, block, b, hhandle, hblock, hdata, hvalue⟩ := hi.answered a ha hok
    obtain ⟨h', block', b', hhandle', hblock', hdata', hvalue'⟩ := hi.answered a' ha' hok'
    cases hhandle.symm.trans (hh.trans hhandle')
    cases hblock.symm.trans hblock'
    rw [ht] at hvalue
    rw [hdata, hdata', hvalue.symm.trans hvalue']
  case apart =>
    intro a ha a' ha' hok hok' hsame
    obtain ⟨h, block, b, hhandle, hblock, hdata, hvalue⟩ := hi.answered a ha hok
    obtain ⟨h', block', b', hhandle', hblock', hdata', hvalue'⟩ := hi.answered a' ha' hok'
    cases hdata.symm.trans (hsame.trans hdata')
    -- one buffer has one owner
    have howner := hi.inv.slots.owner_of_slot hblock hvalue
    have howner' := hi.inv.slots.owner_of_slot hblock' hvalue'
    have hone := Option.some.inj (howner.symm.trans howner')
    constructor
    · exact congrArg TlsOwner.thread hone
    · rw [hhandle, hhandle']
      exact congrArg (fun o => some o.handle) hone
  case content =>
    intro a ha hok h block b hhandle hblock hdata
    obtain ⟨h', block', b', hhandle', hblock', hdata', hvalue⟩ := hi.answered a ha hok
    cases hhandle.symm.trans hhandle'
    cases hblock.symm.trans hblock'
    cases hdata.symm.trans hdata'
    rw [hlast]
    exact hi.buffered hblock hvalue

end Steps

section Failures

variable {m next final : TlsMachine} {a : TlsAction} {t : Nat} {actions : List TlsAction}

private theorem answers_of_run (hrun : run TlsMachine.step m actions = some final) :
    ∃ later, final.answers = m.answers ++ later := by
  induction actions generalizing m with
  | nil =>
    cases hrun
    exact ⟨[], (List.append_nil _).symm⟩
  | cons a actions ih =>
    obtain ⟨mid, hmid, hrest⟩ := run_cons_eq_some.mp hrun
    obtain ⟨later, hlater⟩ := ih hrest
    cases (TlsMachine.steps hmid).answers with
    | inl hsame =>
      rw [hsame] at hlater
      exact ⟨later, hlater⟩
    | inr hnew =>
      obtain ⟨answer, happend, -⟩ := hnew
      rw [happend, List.append_assoc] at hlater
      exact ⟨answer :: later, hlater⟩

private theorem nextAnswer_same (h : next.answers = m.answers) :
    nextAnswer m final t = nextAnswer next final t := by
  rw [nextAnswer, nextAnswer, h]

private theorem nextAnswer_append {answer : TlsAnswer} (h : next.answers = m.answers ++ [answer])
    (hrun : run TlsMachine.step next actions = some final) :
    nextAnswer m final t =
      if answer.thread = t then some answer else nextAnswer next final t := by
  obtain ⟨later, hlater⟩ := answers_of_run hrun
  rw [nextAnswer, nextAnswer, hlater, h, List.drop_left, List.append_assoc, List.drop_left,
    List.singleton_append, List.find?_cons]
  by_cases ht : answer.thread = t
  · rw [if_pos ht, beq_iff_eq.mpr ht]
  · rw [if_neg ht, beq_eq_false_iff_ne.mpr ht]

/-- A call that has its buffer does not fail. -/
private theorem obtained_succeeds {call : TlsCall} {b : Nat} {answer : TlsAnswer}
    (hcall : m.activity t = some call) (hpoint : call.point = .obtained b)
    (hrun : run TlsMachine.step m actions = some final)
    (hnext : nextAnswer m final t = some answer) : answer.result = .ok := by
  induction actions generalizing m with
  | nil =>
    cases hrun
    rw [nextAnswer, List.drop_length] at hnext
    cases hnext
  | cons a actions ih =>
    obtain ⟨mid, hmid, hrest⟩ := run_cons_eq_some.mp hrun
    have hstep := TlsMachine.steps hmid
    by_cases ht : a.thread = some t
    · have hpoint' {point : TlsPoint} {old : TlsCall} (hold : m.activity t = some old)
          (hold' : old.point = point) : point = .obtained b := by
        cases hcall.symm.trans hold
        rw [← hold', hpoint]
      cases hstep with
      | refused | created | kept | destroyed => cases ht
      | rejected ha' hidle | entered ha' _ hidle =>
        cases ha'.symm.trans ht
        cases hcall.symm.trans hidle
      | exited hidle =>
        cases ht
        cases hcall.symm.trans hidle
      | found hold hold' | missed hold hold' | exhausted hold hold' | allocated _ hold hold'
      | stored hold hold' | unstored hold hold' | freed hold hold' =>
        cases ht
        cases hpoint' hold hold'
      | fetched | assigned =>
        cases ht
        cases hnext.symm.trans ((nextAnswer_append (m := m) rfl hrest).trans (if_pos rfl))
        rfl
    · rw [← (hstep.other ht).1] at hcall
      apply ih hcall hrest
      cases hstep.answers with
      | inl hsame => rw [← nextAnswer_same hsame, hnext]
      | inr hnew =>
        obtain ⟨last, happend, hlast, -⟩ := hnew
        rw [nextAnswer_append happend hrest, if_neg] at hnext
        · exact hnext
        · intro hthread
          exact ht (by rw [hlast, hthread])

private theorem IsolationInv.sameSlots (hi : IsolationInv m) (ha : a.Plain)
    (hstep : TlsStep m a next)
    (hrun : PartialRuns.run TlsMachine.step next actions = some final) (ht : a.thread = some t)
    {answer : TlsAnswer} (hnext : nextAnswer m final t = some answer)
    (hfailed : answer.result ≠ .ok) : SameSlots m next := by
  cases hstep with
  | refused | created | rejected | entered | found | missed | exhausted | unstored | fetched =>
    exact ⟨rfl, fun _ _ _ _ => rfl⟩
  | allocated =>
    refine ⟨rfl, ?_⟩
    intro u k b hvalue
    obtain ⟨h, howner⟩ := hi.inv.slots.stored hvalue
    exact Function.update_of_ne (Nat.ne_of_lt (hi.inv.slots.owner_lt howner)) _ _
  | stored =>
    -- the call goes on to succeed
    cases ht
    apply absurd _ hfailed
    apply obtained_succeeds (TlsMachine.resume_self _ _ _) rfl hrun
    rw [← hnext]
    rfl
  | freed hcall hpoint =>
    refine ⟨rfl, ?_⟩
    intro u k b hvalue
    obtain ⟨block, hblock⟩ := hi.live hcall
    have hne := hi.inv.unregistered_ne hcall (by rw [hpoint]; rfl) hblock hvalue
    exact Function.update_of_ne hne _ _
  | assigned =>
    cases ht
    cases hnext.symm.trans ((nextAnswer_append (m := m) rfl hrun).trans (if_pos rfl))
    exact absurd rfl hfailed
  | exited | kept | destroyed => cases ha

end Failures

/-- In every run of creations, gets and sets without a setter, in any order of their system calls
and with any of these failing: a thread gets the same buffer at each successful call on a handle, no
other thread or handle gets it, it holds what the thread passed to its last successful set, no buffer
is lost, and a call that fails changes no slot. -/
theorem slots_isolated (actions : List TlsAction) (hplain : ∀ a ∈ actions, a.Plain)
    (final : TlsMachine) (hrun : run TlsMachine.step .start actions = some final) :
    Isolated actions final ∧ FailuresChangeNothing actions final := by
  constructor
  · apply (IsolationInv.start.run hplain hrun).isolated
    exact lastSet_of_run (fun _ => rfl) rfl hrun
  · intro before a after hactions m next t answer hbefore hnext ht hanswer hfailed
    subst hactions
    have hi : IsolationInv m :=
      IsolationInv.start.run (fun a' ha' => hplain a' (List.mem_append_left _ ha')) hbefore
    rw [run_append, hbefore, Option.bind_some, run_cons_eq_some] at hrun
    obtain ⟨next', hnext', hafter⟩ := hrun
    cases hnext.symm.trans hnext'
    exact hi.sameSlots (hplain a (by simp)) (TlsMachine.steps hnext) hafter ht hanswer hfailed

/-- A set of one thread and a get of another one in turns, where the get cannot register its buffer.
The first thread then gets from a second handle. -/
def twoThreads : List TlsAction :=
  let refusing := { generousTlsOs with setspecific := false }
  [.create generousTlsOs none 8, .create generousTlsOs none 8,
    .set 0 (some 0) none (some fun _ => 5), .get 1 (some 0)] ++
  (List.replicate 4 [.advance 0 generousTlsOs, .advance 1 refusing]).flatten ++
  .get 0 (some 1) :: List.replicate 4 (.advance 0 generousTlsOs)

theorem slots_isolated_two_threads :
    ∃ final, run TlsMachine.step .start twoThreads = some final ∧
      final.answers.map (fun a => (a.thread, a.result, a.data)) =
        [(0, .ok, some 0), (1, .err, none), (0, .ok, some 2)] ∧
      (final.process.buffers 0).map TlsBuffer.content = some (List.replicate 8 5) ∧
      (lastSet twoThreads final 0 0).map (fun data => (List.range 8).map data) =
        some (List.replicate 8 5) ∧
      Isolated twoThreads final ∧ FailuresChangeNothing twoThreads final := by
  refine ⟨_, rfl, rfl, rfl, rfl, slots_isolated twoThreads ?_ _ rfl⟩
  simp [twoThreads, TlsAction.Plain]

end Libdane
