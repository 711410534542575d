import Libdane.Platform.SlotMap

/-!
# The calls as events of the map

Each call that succeeds takes effect at one moment, and the answers of a run are those of the map
when the effects happen in that order. Setters, exits of threads and destroyed handles are part of
the runs.
-/

namespace Libdane

open PartialRuns

/-- A buffer in a slot or with a call is alive and as large as its handle says. -/
structure BufferInv (m : TlsMachine) : Prop where
  inv : SlotInv m
  stored : ∀ {t h b block}, m.process.handles h = some block →
    m.process.specific t block.key = some b →
    ∃ buffer, m.process.buffers b = some buffer ∧ buffer.size = block.dataSize
  held : ∀ {t call b}, m.activity t = some call → call.point.data = some b →
    ∃ buffer, m.process.buffers b = some buffer ∧
      ∀ block, m.process.handles call.handle = some block → buffer.size = block.dataSize

section Buffers

variable {m next : TlsMachine} {a : TlsAction}

private theorem SlotInv.unregistered_ne_stored (hi : SlotInv m) {t u h b b' : Nat} {call : TlsCall}
    {block : ThreadLocalStorageHandle} (hcall : m.activity t = some call)
    (hb : call.point.unregistered = some b) (hblock : m.process.handles h = some block)
    (hvalue : m.process.specific u block.key = some b') : b' ≠ b := by
  intro hsame
  subst hsame
  obtain ⟨k, howner⟩ := hi.owner_of_unregistered hcall hb
  have howner' := hi.slots.owner_of_slot hblock hvalue
  cases howner.symm.trans howner'
  exact hi.unregistered_ne hcall hb hblock hvalue rfl

private theorem BufferInv.step_stored (hi : BufferInv m) (hstep : TlsStep m a next) {t h b : Nat}
    {block : ThreadLocalStorageHandle} (hblock : next.process.handles h = some block)
    (hvalue : next.process.specific t block.key = some b) :
    ∃ buffer, next.process.buffers b = some buffer ∧ buffer.size = block.dataSize := by
  cases hstep with
  | refused | rejected | entered | found | missed | exhausted | unstored | fetched | kept =>
    exact hi.stored hblock hvalue
  | created os destructor size =>
    cases OwnedSlots.handles_install destructor size hblock with
    | inl hnew =>
      obtain ⟨h', howner⟩ := hi.inv.slots.stored hvalue
      have hlt := hi.inv.slots.owner_key_lt howner
      exact absurd hnew.2 (Nat.ne_of_lt hlt)
    | inr hold => exact hi.stored hold.2 hvalue
  | allocated =>
    obtain ⟨buffer, hbuffer, hsize⟩ := hi.stored hblock hvalue
    have hne : b ≠ m.process.nextBuffer := Nat.ne_of_lt (hi.inv.slots.buffer_lt hbuffer)
    exact ⟨buffer, (Function.update_of_ne hne _ _).trans hbuffer, hsize⟩
  | @stored t' os call block' b' hcall hpoint hblock' =>
    change (m.process.store t' block'.key b').specific t block.key = some b at hvalue
    rw [TlsProcess.store_specific_apply] at hvalue
    split at hvalue
    next hhere =>
      cases hvalue
      have hh : h = call.handle := hi.inv.slots.key_inj hblock hblock' hhere.2
      rw [hh] at hblock
      obtain ⟨buffer, hbuffer, hsize⟩ := hi.held hcall (by rw [hpoint]; rfl)
      exact ⟨buffer, hbuffer, hsize block hblock⟩
    next => exact hi.stored hblock hvalue
  | @freed t' os call b' hcall hpoint =>
    obtain ⟨buffer, hbuffer, hsize⟩ := hi.stored hblock hvalue
    have hne : b ≠ b' :=
      hi.inv.unregistered_ne_stored hcall (by rw [hpoint]; rfl) hblock hvalue
    exact ⟨buffer, (Function.update_of_ne hne _ _).trans hbuffer, hsize⟩
  | @assigned t' os call b' setter newData size hcall hpoint =>
    obtain ⟨buffer, hbuffer, hsize⟩ := hi.stored hblock hvalue
    by_cases hb : b = b'
    · subst hb
      refine ⟨buffer.assign setter size newData, ?_, ?_⟩
      · simp [TlsMachine.answer, TlsProcess.assign_buffers, hbuffer]
      · rw [TlsBuffer.assign_size, hsize]
    · exact ⟨buffer, (Function.update_of_ne hb _ _).trans hbuffer, hsize⟩
  | @exited t' =>
    by_cases ht : t = t'
    · simp [TlsProcess.forget_specific, ht] at hvalue
    · simp [TlsProcess.forget_specific, ht] at hvalue
      exact hi.stored hblock hvalue
  | destroyed => exact hi.stored (OwnedSlots.handles_release hblock) hvalue

private theorem BufferInv.step_held (hi : BufferInv m) (hstep : TlsStep m a next) {t b : Nat}
    {call : TlsCall} (hcall : next.activity t = some call) (hb : call.point.data = some b) :
    ∃ buffer, next.process.buffers b = some buffer ∧
      ∀ block, next.process.handles call.handle = some block → buffer.size = block.dataSize := by
  by_cases ht : a.thread = some t
  · cases hstep with
    | refused | created | kept | destroyed => cases ht
    | rejected ha' =>
      cases ha'.symm.trans ht
      rw [m.answer_self] at hcall
      cases hcall
    | entered ha' =>
      cases ha'.symm.trans ht
      cases hcall.symm.trans (m.resume_self _ _)
      cases hb
    | missed =>
      cases ht
      cases hcall.symm.trans (m.resume_self _ _)
      cases hb
    | found hold hpoint hblock hslot =>
      cases ht
      cases hcall.symm.trans (m.resume_self _ _)
      cases hb
      obtain ⟨buffer, hbuffer, hsize⟩ := hi.stored hblock hslot
      refine ⟨buffer, hbuffer, ?_⟩
      intro block' hblock'
      cases hblock.symm.trans hblock'
      exact hsize
    | stored hold hpoint =>
      cases ht
      cases hcall.symm.trans (TlsMachine.resume_self _ _ _)
      cases hb
      have hheld : _ := hi.held hold (b := b) (by rw [hpoint]; rfl)
      exact hheld
    | @allocated t os old block bytes hold hpoint hblock =>
      cases ht
      cases hcall.symm.trans (TlsMachine.resume_self _ _ _)
      cases hb
      refine ⟨_, Function.update_self _ _ _, ?_⟩
      intro block' hblock'
      cases hblock.symm.trans hblock'
      rfl
    | unstored hold hpoint =>
      cases ht
      cases hcall.symm.trans (m.resume_self _ _)
      cases hb
      have hheld : _ := hi.held hold (b := b) (by rw [hpoint]; rfl)
      exact hheld
    | exhausted | freed | fetched | assigned =>
      cases ht
      rw [TlsMachine.answer_self] at hcall
      cases hcall
    | exited hidle =>
      cases ht
      cases hcall.symm.trans hidle
  · rw [(hstep.other ht).1] at hcall
    obtain ⟨k, howner⟩ := (hi.inv.calls hcall).holds hb
    obtain ⟨buffer, hbuffer, hsize⟩ := hi.held hcall hb
    rw [hstep.buffers_other hi.inv howner ht]
    refine ⟨buffer, hbuffer, ?_⟩
    intro block hblock
    exact hsize block (hstep.handles_of (hi.inv.calls hcall).handle_lt hblock)

theorem BufferInv.step (hi : BufferInv m) (hstep : TlsStep m a next) : BufferInv next where
  inv := hi.inv.step hstep
  stored := hi.step_stored hstep
  held := hi.step_held hstep

private theorem BufferInv.start : BufferInv TlsMachine.start := by
  refine ⟨SlotInv.start, ?_, ?_⟩
  · intro t h b block hblock
    cases hblock
  · intro t call b hcall
    cases hcall

end Buffers

namespace TlsMachine.Shows

variable {m : TlsMachine} {s : SlotMap}

private theorem resume (hs : m.Shows s) {t : Nat} {call : TlsCall}
    (hobtained : ∀ b, call.point = .obtained b →
      ∃ buffer, m.process.buffers b = some buffer ∧ s.slots t call.handle = some (b, buffer)) :
    (m.resume t call).Shows s :=
  { hs with
    obtained := by
      intro u call' b hcall hpoint
      by_cases hu : u = t
      · subst hu
        cases hcall.symm.trans (m.resume_self _ _)
        exact hobtained b hpoint
      · simp only [TlsMachine.resume, Function.update_of_ne hu] at hcall
        exact hs.obtained hcall hpoint }

private theorem answer (hs : m.Shows s) (a : TlsAnswer) (answers : List TlsAnswer)
    (hanswers : answers = s.answers ++ if a.result == .ok then [a] else []) :
    (m.answer a).Shows { s with answers := answers } where
  slots := hs.slots
  later := hs.later
  obtained := by
    intro u call' b hcall hpoint
    by_cases hu : u = a.thread
    · subst hu
      rw [m.answer_self] at hcall
      cases hcall
    · simp only [TlsMachine.answer, Function.update_of_ne hu] at hcall
      exact hs.obtained hcall hpoint
  answers := by
    rw [hanswers, hs.answers, TlsMachine.answer, List.filter_append, List.filter_cons,
      List.filter_nil]

private theorem failed (hs : m.Shows s) {a : TlsAnswer} (ha : a.result ≠ .ok) :
    (m.answer a).Shows s := by
  apply hs.answer a s.answers
  simp [ha]

private theorem succeeded (hs : m.Shows s) {a : TlsAnswer} (ha : a.result = .ok) :
    (m.answer a).Shows (s.log a) := by
  apply hs.answer a (s.answers ++ [a])
  simp [ha]

theorem install (hs : m.Shows s) (hi : SlotInv m) (destructor : TlsDestructor) (size : UInt64) :
    { m with process := m.process.install destructor size }.Shows s :=
  { hs with
    slots := by
      intro t h block hblock
      cases OwnedSlots.handles_install destructor size hblock with
      | inl hnew =>
        rw [hs.later (Nat.le_of_eq hnew.1.symm)]
        cases hvalue : m.process.specific t block.key with
        | none => simp [TlsProcess.install, hvalue]
        | some b =>
          obtain ⟨h', howner⟩ := hi.slots.stored hvalue
          have hlt := hi.slots.owner_key_lt howner
          exact absurd hnew.2 (Nat.ne_of_lt hlt)
      | inr hold => exact hs.slots hold.2
    later := by
      intro t h hle
      exact hs.later (Nat.le_of_succ_le hle) }

private theorem buffers (hs : m.Shows s) (b : Nat) (buffer : Option TlsBuffer)
    (hstored : ∀ {t h block}, m.process.handles h = some block →
      m.process.specific t block.key ≠ some b)
    (hobtained : ∀ {t call}, m.activity t = some call → call.point ≠ .obtained b) :
    { m with process := { m.process with
        buffers := Function.update m.process.buffers b buffer } }.Shows s :=
  { hs with
    slots := by
      intro t h block hblock
      rw [hs.slots hblock]
      cases hvalue : m.process.specific t block.key with
      | none => rfl
      | some b' =>
        have hne : b' ≠ b := by
          intro hsame
          rw [hsame] at hvalue
          exact hstored hblock hvalue
        simp [Function.update_of_ne hne]
    obtained := by
      intro t call b' hcall hpoint
      have hne : b' ≠ b := by
        intro hsame
        rw [hsame] at hpoint
        exact hobtained hcall hpoint
      obtain ⟨content, hcontent, hslot⟩ := hs.obtained hcall hpoint
      exact ⟨content, (Function.update_of_ne hne _ _).trans hcontent, hslot⟩ }

private theorem allocate (hs : m.Shows s) (hi : BufferInv m) (size : UInt64) (old : List UInt8)
    (owner : Nat → Option TlsOwner) :
    { m with process := m.process.allocate size old, owner := owner }.Shows s := by
  have hfresh := hi.inv.slots.no_owner
  have hbuffers := hs.buffers m.process.nextBuffer (some { size := size, content := old }) ?_ ?_
  · exact ⟨hbuffers.slots, hbuffers.obtained, hbuffers.later, hbuffers.answers⟩
  · intro t h block hblock hvalue
    have howner := hi.inv.slots.owner_of_slot hblock hvalue
    rw [hfresh] at howner
    cases howner
  · intro t call hcall hpoint
    obtain ⟨k, howner⟩ :=
      (hi.inv.calls hcall).holds (b := m.process.nextBuffer) (by rw [hpoint]; rfl)
    rw [hfresh] at howner
    cases howner

private theorem dispose (hs : m.Shows s) (hi : BufferInv m) {t b : Nat} {call : TlsCall}
    (hcall : m.activity t = some call) (hpoint : call.point = .free b) (discarded : List Nat) :
    { m with process := m.process.dispose b, discarded := discarded }.Shows s := by
  have hheld : call.point.unregistered = some b := by rw [hpoint]; rfl
  have hbuffers := hs.buffers b none ?_ ?_
  · exact ⟨hbuffers.slots, hbuffers.obtained, hbuffers.later, hbuffers.answers⟩
  · intro u h block hblock hvalue
    exact hi.inv.unregistered_ne_stored hcall hheld hblock hvalue rfl
  · intro u call' hcall' hpoint'
    obtain ⟨k, howner⟩ := hi.inv.owner_of_unregistered hcall hheld
    obtain ⟨k', howner'⟩ := (hi.inv.calls hcall').holds (b := b) (by rw [hpoint']; rfl)
    have hthread : t = u := congrArg TlsOwner.thread (Option.some.inj (howner.symm.trans howner'))
    rw [hthread] at hcall
    cases hcall.symm.trans hcall'
    cases hpoint.symm.trans hpoint'

private theorem store (hs : m.Shows s) (hi : BufferInv m) {t b : Nat} {call : TlsCall}
    {block : ThreadLocalStorageHandle} {buffer : TlsBuffer} (hcall : m.activity t = some call)
    (hpoint : call.point = .setspecific b)
    (hblock : m.process.handles call.handle = some block)
    (hbuffer : m.process.buffers b = some buffer) :
    { m with process := m.process.store t block.key b }.Shows
      (s.put t call.handle (b, buffer)) where
  answers := hs.answers
  slots := by
    intro u h block' hblock'
    show _ = ((m.process.store t block.key b).specific u block'.key).bind _
    rw [SlotMap.put_slots_apply, TlsProcess.store_specific_apply]
    by_cases hhere : u = t ∧ h = call.handle
    · rw [hhere.2] at hblock'
      cases hblock.symm.trans hblock'
      rw [if_pos hhere, if_pos ⟨hhere.1, rfl⟩, Option.bind_some]
      show _ = (m.process.buffers b).map _
      rw [hbuffer, Option.map_some]
    · rw [if_neg hhere, if_neg]
      · exact hs.slots hblock'
      · intro hkey
        exact hhere ⟨hkey.1, hi.inv.slots.key_inj hblock' hblock hkey.2⟩
  obtained := by
    intro u call' b' hcall' hpoint'
    obtain ⟨content, hcontent, hslot⟩ := hs.obtained hcall' hpoint'
    refine ⟨content, hcontent, ?_⟩
    rw [SlotMap.put_slots_apply, if_neg]
    · exact hslot
    · intro hhere
      rw [hhere.1] at hcall'
      cases hcall.symm.trans hcall'
      cases hpoint.symm.trans hpoint'
  later := by
    intro u h hle
    rw [SlotMap.put_slots_apply, if_neg]
    · exact hs.later hle
    · intro hhere
      rw [hhere.2] at hle
      exact absurd (hi.inv.slots.handle_lt hblock) (Nat.not_lt.mpr hle)

/-- A call writes to the buffer that it has obtained. -/
private theorem assign (hs : m.Shows s) (hi : BufferInv m) {t b : Nat} {call : TlsCall}
    {buffer : TlsBuffer} {setter : TlsSetter} {size : UInt64} {newData : Nat → UInt8}
    (hcall : m.activity t = some call) (hpoint : call.point = .obtained b)
    (hbuffer : m.process.buffers b = some buffer) :
    { m with process := m.process.assign b setter size newData }.Shows
      (s.put t call.handle (b, buffer.assign setter size newData)) where
  answers := hs.answers
  slots := by
    intro u h block hblock
    show _ = (m.process.specific u block.key).bind fun b' =>
      ((m.process.assign b setter size newData).buffers b').map (b', ·)
    rw [SlotMap.put_slots_apply, TlsProcess.assign_buffers]
    obtain ⟨k, howner⟩ := (hi.inv.calls hcall).holds (b := b) (by rw [hpoint]; rfl)
    by_cases hhere : u = t ∧ h = call.handle
    · rw [hhere.2] at hblock
      have hreads := (hi.inv.calls hcall).reads hblock
      rw [hpoint] at hreads
      rw [if_pos hhere, hhere.1, hreads, Option.bind_some, Function.update_self, hbuffer]
      rfl
    · rw [if_neg hhere, hs.slots hblock]
      cases hvalue : m.process.specific u block.key with
      | none => rfl
      | some b' =>
        have hne : b' ≠ b := by
          intro hsame
          rw [hsame] at hvalue
          cases howner.symm.trans (hi.inv.slots.owner_of_slot hblock hvalue)
          exact hhere ⟨rfl, rfl⟩
        rw [Option.bind_some, Option.bind_some, Function.update_of_ne hne]
  obtained := by
    intro u call' b' hcall' hpoint'
    by_cases hu : u = t
    · rw [hu] at hcall'
      cases hcall.symm.trans hcall'
      cases hpoint.symm.trans hpoint'
      refine ⟨buffer.assign setter size newData, ?_, ?_⟩
      · simp [TlsProcess.assign_buffers, hbuffer]
      · rw [hu, SlotMap.put_slots_self]
    · -- calls of two threads hold two buffers
      have hne : b' ≠ b := by
        intro hsame
        obtain ⟨k, howner⟩ := (hi.inv.calls hcall).holds (b := b) (by rw [hpoint]; rfl)
        obtain ⟨k', howner'⟩ := (hi.inv.calls hcall').holds (b := b) (by rw [hpoint', hsame]; rfl)
        exact hu (congrArg TlsOwner.thread (Option.some.inj (howner'.symm.trans howner)))
      obtain ⟨content, hcontent, hslot⟩ := hs.obtained hcall' hpoint'
      refine ⟨content, (Function.update_of_ne hne _ _).trans hcontent, ?_⟩
      rw [SlotMap.put_slots_apply, if_neg]
      · exact hslot
      · intro hhere
        exact hu hhere.1
  later := by
    intro u h hle
    rw [SlotMap.put_slots_apply, if_neg]
    · exact hs.later hle
    · intro hhere
      rw [hhere.2] at hle
      exact absurd (hi.inv.calls hcall).handle_lt (Nat.not_lt.mpr hle)

private theorem exit (hs : m.Shows s) {t : Nat} (hidle : m.activity t = none) :
    { m with
      process := m.process.forget t
      exited := Function.update m.exited t true
      released := m.released ++ m.process.exitReleases t }.Shows (s.forget t) where
  answers := hs.answers
  slots := by
    intro u h block hblock
    show _ = ((m.process.forget t).specific u block.key).bind _
    rw [SlotMap.forget_slots, TlsProcess.forget_specific]
    by_cases hu : u = t
    · rw [hu, Function.update_self, Function.update_self, Option.bind_none]
    · rw [Function.update_of_ne hu, Function.update_of_ne hu]
      exact hs.slots hblock
  obtained := by
    intro u call b hcall hpoint
    obtain ⟨content, hcontent, hslot⟩ := hs.obtained hcall hpoint
    refine ⟨content, hcontent, ?_⟩
    have hne : u ≠ t := by
      intro hu
      rw [hu, hidle] at hcall
      cases hcall
    rw [SlotMap.forget_slots, Function.update_of_ne hne]
    exact hslot
  later := by
    intro u h hle
    rw [SlotMap.forget_slots]
    by_cases hu : u = t
    · rw [hu, Function.update_self]
    · rw [Function.update_of_ne hu]
      exact hs.later hle

private theorem release (hs : m.Shows s) (h : Nat) (block : ThreadLocalStorageHandle) :
    { m with process := m.process.release h block }.Shows s :=
  { hs with
    slots := by
      intro t h' block' hblock
      exact hs.slots (OwnedSlots.handles_release hblock) }

end TlsMachine.Shows

section Runs

variable {m next : TlsMachine} {s : SlotMap}

private theorem TlsMachine.Shows.deliver (hs : m.Shows s) (hi : BufferInv m) {t b : Nat}
    {call : TlsCall}
    {os : TlsOs} (hcall : m.activity t = some call) (hpoint : call.point = .obtained b)
    (hnext : m.deliver t call b = some next) :
    ∃ s', run SlotMap.apply s (m.events (.advance t os)) = some s' ∧ next.Shows s' := by
  obtain ⟨buffer, hbuffer, hslot⟩ := hs.obtained hcall hpoint
  cases hpurpose : call.purpose with
  | get =>
    rw [TlsMachine.deliver, hpurpose, Option.some.injEq] at hnext
    rw [← hnext]
    refine ⟨_, ?_, hs.succeeded rfl⟩
    simp [TlsMachine.events, hcall, hpoint, hpurpose, hbuffer, SlotMap.apply, hslot]
  | set setter newData =>
    have hevent : run SlotMap.apply s (m.events (.advance t os)) =
        some ((s.put t call.handle (b, buffer.assign setter buffer.size newData)).log
          { thread := t, handle := some call.handle, result := .ok, data := some b
            newData := some newData }) := by
      simp [TlsMachine.events, hcall, hpoint, hpurpose, hbuffer, SlotMap.apply, hslot]
    refine ⟨_, hevent, ?_⟩
    cases setter with
    | some setter =>
      rw [TlsMachine.deliver, hpurpose, Option.some.injEq] at hnext
      rw [← hnext]
      exact (hs.assign hi hcall hpoint hbuffer).succeeded rfl
    | none =>
      rw [TlsMachine.deliver, hpurpose] at hnext
      obtain ⟨block, hblock, hnext⟩ := Option.map_eq_some_iff.mp hnext
      rw [← hnext]
      -- the copy is as long as the buffer
      obtain ⟨buffer', hbuffer', hsize⟩ := hi.held hcall (b := b) (by rw [hpoint]; rfl)
      cases hbuffer.symm.trans hbuffer'
      rw [hsize block hblock]
      exact (hs.assign hi hcall hpoint hbuffer).succeeded rfl

private theorem TlsMachine.Shows.advance (hs : m.Shows s) (hi : BufferInv m) {t : Nat}
    {call : TlsCall}
    {os : TlsOs} (hcall : m.activity t = some call) (hnext : m.advance t call os = some next) :
    ∃ s', run SlotMap.apply s (m.events (.advance t os)) = some s' ∧ next.Shows s' := by
  cases hpoint : call.point with
  | getspecific =>
    rw [TlsMachine.advance, hpoint] at hnext
    obtain ⟨block, hblock, hnext⟩ := Option.map_eq_some_iff.mp hnext
    refine ⟨s, by simp [TlsMachine.events, hcall, hpoint], ?_⟩
    rw [← hnext]
    cases hslot : m.process.specific t block.key with
    | none =>
      apply hs.resume
      intro b hb
      cases hb
    | some b =>
      apply hs.resume
      intro b' hb'
      cases hb'
      obtain ⟨buffer, hbuffer, -⟩ := hi.stored hblock hslot
      refine ⟨buffer, hbuffer, ?_⟩
      rw [hs.slots hblock, hslot, Option.bind_some, hbuffer, Option.map_some]
  | malloc =>
    rw [TlsMachine.advance, hpoint] at hnext
    obtain ⟨block, hblock, hnext⟩ := Option.map_eq_some_iff.mp hnext
    refine ⟨s, by simp [TlsMachine.events, hcall, hpoint], ?_⟩
    rw [← hnext]
    cases os.malloc block.dataSize with
    | none =>
      apply hs.failed
      simp
    | some old =>
      apply (hs.allocate hi block.dataSize old _).resume
      intro b hb
      cases hb
  | setspecific b =>
    rw [TlsMachine.advance, hpoint] at hnext
    obtain ⟨block, hblock, hnext⟩ := Option.map_eq_some_iff.mp hnext
    obtain ⟨buffer, hbuffer, hsize⟩ := hi.held hcall (b := b) (by rw [hpoint]; rfl)
    rw [← hnext]
    cases hset : os.setspecific with
    | true =>
      have hempty := hi.inv.slot_empty hcall (b := b) (by rw [hpoint]; rfl) hblock
      have hnone : s.slots t call.handle = none := by
        rw [hs.slots hblock, hempty, Option.bind_none]
      refine ⟨s.put t call.handle (b, buffer), ?_, ?_⟩
      · simp [TlsMachine.events, hcall, hpoint, hbuffer, hset, SlotMap.apply, hnone]
      · apply (hs.store hi hcall hpoint hblock hbuffer).resume
        intro b' hb'
        cases hb'
        exact ⟨buffer, hbuffer, SlotMap.put_slots_self _ _ _ _⟩
    | false =>
      refine ⟨s, by simp [TlsMachine.events, hcall, hpoint, hbuffer, hset], ?_⟩
      apply hs.resume
      intro b' hb'
      cases hb'
  | free b =>
    rw [TlsMachine.advance, hpoint, Option.some.injEq] at hnext
    refine ⟨s, by simp [TlsMachine.events, hcall, hpoint], ?_⟩
    rw [← hnext]
    apply (hs.dispose hi hcall hpoint _).failed
    simp
  | obtained b =>
    rw [TlsMachine.advance, hpoint] at hnext
    exact hs.deliver hi hcall hpoint hnext

theorem TlsMachine.Shows.step (hs : m.Shows s) (hi : BufferInv m) {a : TlsAction}
    (hnext : m.step a = some next) :
    ∃ s', run SlotMap.apply s (m.events a) = some s' ∧ next.Shows s' := by
  cases a with
  | create os destructor size =>
    refine ⟨s, rfl, ?_⟩
    cases TlsMachine.steps hnext with
    | refused => exact hs
    | created => exact hs.install hi.inv _ _
    | rejected ha | entered ha => cases ha
  | get t handle | set t handle =>
    refine ⟨s, rfl, ?_⟩
    cases TlsMachine.steps hnext with
    | rejected =>
      apply hs.failed
      simp
    | entered =>
      apply hs.resume
      intro b hb
      cases hb
  | advance t os =>
    obtain ⟨call, hcall, hadvance⟩ := Option.bind_eq_some_iff.mp hnext
    exact hs.advance hi hcall hadvance
  | exit t =>
    obtain ⟨hidle, hnext⟩ := exit_cases hnext
    rw [hnext]
    exact ⟨s.forget t, rfl, hs.exit hidle⟩
  | destroy handle =>
    refine ⟨s, rfl, ?_⟩
    cases TlsMachine.steps hnext with
    | kept => exact hs
    | destroyed => exact hs.release _ _
    | rejected ha | entered ha => cases ha

theorem TlsMachine.Shows.start : TlsMachine.start.Shows .empty := by
  constructor
  case slots =>
    intro t h block hblock
    cases hblock
  case obtained =>
    intro t call b hcall
    cases hcall
  case later =>
    intro t h _
    rfl
  case answers => rfl

private theorem TlsMachine.Shows.run {actions : List TlsAction} (hs : m.Shows s) (hi : BufferInv m)
    (hrun : PartialRuns.run TlsMachine.step m actions = some next) :
    ∃ s', PartialRuns.run SlotMap.apply s (history TlsMachine.step TlsMachine.events m actions) =
      some s' ∧ BufferInv next ∧ next.Shows s' := by
  apply run_history (fun m s => BufferInv m ∧ m.Shows s) _ ⟨hi, hs⟩ hrun
  intro m s a next h hnext
  obtain ⟨s', hevents, hshows⟩ := h.2.step h.1 hnext
  exact ⟨s', hevents, h.1.step (TlsMachine.steps hnext), hshows⟩

end Runs

/-- A set with a setter and a get of another thread in turns, with the handle destroyed before they
return, and the exit of the first thread. -/
def destroyedInUse : List TlsAction :=
  let double : TlsSetter := some fun old _ => old ++ old
  [.create generousTlsOs none 8, .set 0 (some 0) double (some fun _ => 5), .get 1 (some 0)] ++
  (List.replicate 3 [.advance 0 generousTlsOs, .advance 1 generousTlsOs]).flatten ++
  [.destroy (some 0), .advance 1 generousTlsOs, .advance 0 generousTlsOs, .exit 0]

end Libdane
