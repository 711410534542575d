import Libdane.Platform.ThreadInterleaving

/-!
# Whose slot, whose buffer

The invariant of the threads inside the thread-local storage. A key belongs to one handle, a value
under it to the thread and the handle that allocated it, and a call holds a buffer of its own.
-/

namespace Libdane

open PartialRuns

/-- A key belongs to one handle, and a value under it to the thread and the handle that allocated
it. -/
structure OwnedSlots (p : TlsProcess) (owner : Nat → Option TlsOwner) : Prop where
  handle_lt : ∀ {h block}, p.handles h = some block → h < p.nextHandle
  key_lt : ∀ {h block}, p.handles h = some block → block.key < p.nextKey
  key_inj : ∀ {h h' block block'}, p.handles h = some block → p.handles h' = some block' →
    block.key = block'.key → h = h'
  buffer_lt : ∀ {b buffer}, p.buffers b = some buffer → b < p.nextBuffer
  owner_lt : ∀ {b o}, owner b = some o → b < p.nextBuffer
  owner_handle_lt : ∀ {b o}, owner b = some o → o.handle < p.nextHandle
  owner_key_lt : ∀ {b o}, owner b = some o → o.key < p.nextKey
  owner_iff : ∀ {b o h block}, owner b = some o → p.handles h = some block →
    (o.handle = h ↔ o.key = block.key)
  stored : ∀ {t k b}, p.specific t k = some b →
    ∃ h, owner b = some { thread := t, handle := h, key := k }

/-- What stands in the slot of a call at a point. -/
def TlsPoint.Reads : TlsPoint → Option Nat → Prop
  | .getspecific, _ => True
  | .malloc, value | .setspecific _, value | .free _, value => value = none
  | .obtained b, value => value = some b

/-- A call holds a buffer of its own thread and handle, and its slot is as the call has left it. -/
structure TlsCall.Sound (call : TlsCall) (p : TlsProcess) (owner : Nat → Option TlsOwner)
    (t : Nat) : Prop where
  handle_lt : call.handle < p.nextHandle
  holds : ∀ {b}, call.point.data = some b →
    ∃ k, owner b = some { thread := t, handle := call.handle, key := k }
  reads : ∀ {block}, p.handles call.handle = some block →
    call.point.Reads (p.specific t block.key)

structure SlotInv (m : TlsMachine) : Prop where
  slots : OwnedSlots m.process m.owner
  calls : ∀ {t call}, m.activity t = some call → call.Sound m.process m.owner t

namespace OwnedSlots

variable {p : TlsProcess} {owner : Nat → Option TlsOwner} {t h b : Nat}
  {block : ThreadLocalStorageHandle}

theorem no_owner (hs : OwnedSlots p owner) : owner p.nextBuffer = none := by
  cases howner : owner p.nextBuffer with
  | none => rfl
  | some o => exact absurd (hs.owner_lt howner) (Nat.lt_irrefl _)

theorem no_buffer (hs : OwnedSlots p owner) : p.buffers p.nextBuffer = none := by
  cases hbuffer : p.buffers p.nextBuffer with
  | none => rfl
  | some buffer => exact absurd (hs.buffer_lt hbuffer) (Nat.lt_irrefl _)

theorem owner_of_slot (hs : OwnedSlots p owner) (hblock : p.handles h = some block)
    (hslot : p.specific t block.key = some b) :
    owner b = some { thread := t, handle := h, key := block.key } := by
  obtain ⟨h', howner⟩ := hs.stored hslot
  have hh : h' = h := (hs.owner_iff howner hblock).mpr rfl
  rw [howner, hh]

theorem handles_install (destructor : TlsDestructor) (size : UInt64)
    {block : ThreadLocalStorageHandle}
    (hblock : (p.install destructor size).handles h = some block) :
    (h = p.nextHandle ∧ block.key = p.nextKey) ∨ (h ≠ p.nextHandle ∧ p.handles h = some block) := by
  by_cases hnew : h = p.nextHandle
  · rw [TlsProcess.install_handles, hnew, Function.update_self, Option.some.injEq] at hblock
    left
    exact ⟨hnew, by rw [← hblock]⟩
  · rw [TlsProcess.install_handles, Function.update_of_ne hnew] at hblock
    right
    exact ⟨hnew, hblock⟩

theorem install (hs : OwnedSlots p owner) (destructor : TlsDestructor) (size : UInt64) :
    OwnedSlots (p.install destructor size) owner :=
  { hs with
    handle_lt := by
      intro h block hblock
      show h < p.nextHandle + 1
      cases handles_install destructor size hblock with
      | inl hnew => omega
      | inr hold =>
        have hlt := hs.handle_lt hold.2
        omega
    key_lt := by
      intro h block hblock
      show block.key < p.nextKey + 1
      cases handles_install destructor size hblock with
      | inl hnew => omega
      | inr hold =>
        have hlt := hs.key_lt hold.2
        omega
    key_inj := by
      intro h h' block block' hblock hblock' hkey
      cases handles_install destructor size hblock with
      | inl hnew =>
        cases handles_install destructor size hblock' with
        | inl hnew' => rw [hnew.1, hnew'.1]
        | inr hold' =>
          have hlt := hs.key_lt hold'.2
          omega
      | inr hold =>
        cases handles_install destructor size hblock' with
        | inl hnew' =>
          have hlt := hs.key_lt hold.2
          omega
        | inr hold' => exact hs.key_inj hold.2 hold'.2 hkey
    owner_handle_lt := by
      intro b o howner
      exact Nat.lt_succ_of_lt (hs.owner_handle_lt howner)
    owner_key_lt := by
      intro b o howner
      exact Nat.lt_succ_of_lt (hs.owner_key_lt howner)
    owner_iff := by
      intro b o h block howner hblock
      cases handles_install destructor size hblock with
      | inl hnew =>
        have hhandle := hs.owner_handle_lt howner
        have hkey := hs.owner_key_lt howner
        omega
      | inr hold => exact hs.owner_iff howner hold.2 }

private theorem allocate (hs : OwnedSlots p owner) (hblock : p.handles h = some block)
    (old : List UInt8) :
    OwnedSlots (p.allocate block.dataSize old)
      (Function.update owner p.nextBuffer
        (some { thread := t, handle := h, key := block.key })) := by
  have hcases {b : Nat} {o : TlsOwner}
      (howner : Function.update owner p.nextBuffer
        (some { thread := t, handle := h, key := block.key }) b = some o) :
      (b = p.nextBuffer ∧ o.handle = h ∧ o.key = block.key) ∨ owner b = some o := by
    by_cases hb : b = p.nextBuffer
    · rw [hb, Function.update_self, Option.some.injEq] at howner
      left
      rw [← howner]
      exact ⟨hb, rfl, rfl⟩
    · rw [Function.update_of_ne hb] at howner
      exact Or.inr howner
  exact { hs with
    buffer_lt := by
      intro b buffer hbuffer
      show b < p.nextBuffer + 1
      by_cases hb : b = p.nextBuffer
      · omega
      · rw [TlsProcess.allocate_buffers, Function.update_of_ne hb] at hbuffer
        exact Nat.lt_succ_of_lt (hs.buffer_lt hbuffer)
    owner_lt := by
      intro b o howner
      show b < p.nextBuffer + 1
      cases hcases howner with
      | inl hnew => omega
      | inr hold => exact Nat.lt_succ_of_lt (hs.owner_lt hold)
    owner_handle_lt := by
      intro b o howner
      cases hcases howner with
      | inl hnew =>
        rw [hnew.2.1]
        exact hs.handle_lt hblock
      | inr hold => exact hs.owner_handle_lt hold
    owner_key_lt := by
      intro b o howner
      cases hcases howner with
      | inl hnew =>
        rw [hnew.2.2]
        exact hs.key_lt hblock
      | inr hold => exact hs.owner_key_lt hold
    owner_iff := by
      intro b o h' block' howner hblock'
      cases hcases howner with
      | inl hnew =>
        rw [hnew.2.1, hnew.2.2]
        constructor
        · intro hh
          rw [hh] at hblock
          rw [Option.some.inj (hblock.symm.trans hblock')]
        · exact hs.key_inj hblock hblock'
      | inr hold => exact hs.owner_iff hold hblock'
    stored := by
      intro t' k b hvalue
      obtain ⟨h', howner⟩ := hs.stored hvalue
      have hne : b ≠ p.nextBuffer := Nat.ne_of_lt (hs.owner_lt howner)
      exact ⟨h', by rw [Function.update_of_ne hne, howner]⟩ }

private theorem store (hs : OwnedSlots p owner) {k : Nat}
    (hown : owner b = some { thread := t, handle := h, key := k }) :
    OwnedSlots (p.store t k b) owner :=
  { hs with
    stored := by
      intro t' k' b' hvalue
      by_cases ht : t' = t
      · rw [TlsProcess.store_specific, ht, Function.update_self] at hvalue
        by_cases hk : k' = k
        · rw [hk, Function.update_self, Option.some.injEq] at hvalue
          exact ⟨h, by rw [← hvalue, ht, hk, hown]⟩
        · rw [Function.update_of_ne hk] at hvalue
          rw [ht]
          exact hs.stored hvalue
      · rw [TlsProcess.store_specific, Function.update_of_ne ht] at hvalue
        exact hs.stored hvalue }

private theorem buffers (hs : OwnedSlots p owner) {buffers : Nat → Option TlsBuffer}
    (hlive : ∀ b, (buffers b).isSome → (p.buffers b).isSome) :
    OwnedSlots { p with buffers := buffers } owner :=
  { hs with
    buffer_lt := by
      intro b buffer hbuffer
      obtain ⟨old, hold⟩ := Option.isSome_iff_exists.mp
        (hlive b (Option.isSome_iff_exists.mpr ⟨buffer, hbuffer⟩))
      exact hs.buffer_lt hold }

private theorem dispose (hs : OwnedSlots p owner) : OwnedSlots (p.dispose b) owner :=
  hs.buffers fun _ => p.live_of_dispose

private theorem assign (hs : OwnedSlots p owner) {setter : TlsSetter} {size : UInt64}
    {newData : Nat → UInt8} : OwnedSlots (p.assign b setter size newData) owner :=
  hs.buffers fun _ => p.live_of_assign

private theorem forget (hs : OwnedSlots p owner) : OwnedSlots (p.forget t) owner :=
  { hs with
    stored := by
      intro t' k b hvalue
      by_cases ht : t' = t
      · rw [TlsProcess.forget_specific, ht, Function.update_self] at hvalue
        cases hvalue
      · rw [TlsProcess.forget_specific, Function.update_of_ne ht] at hvalue
        exact hs.stored hvalue }

theorem handles_release {h' : Nat} {block' : ThreadLocalStorageHandle}
    (hblock : (p.release h block).handles h' = some block') : p.handles h' = some block' := by
  by_cases hh : h' = h
  · rw [TlsProcess.release_handles, hh, Function.update_self] at hblock
    cases hblock
  · rw [TlsProcess.release_handles, Function.update_of_ne hh] at hblock
    exact hblock

private theorem release (hs : OwnedSlots p owner) : OwnedSlots (p.release h block) owner :=
  { hs with
    handle_lt := by
      intro h' block' hblock
      exact hs.handle_lt (handles_release hblock)
    key_lt := by
      intro h' block' hblock
      exact hs.key_lt (handles_release hblock)
    key_inj := by
      intro h₁ h₂ block₁ block₂ h₁' h₂'
      exact hs.key_inj (handles_release h₁') (handles_release h₂')
    owner_iff := by
      intro b o h' block' howner hblock
      exact hs.owner_iff howner (handles_release hblock) }

end OwnedSlots

section Steps

variable {m next : TlsMachine} {a : TlsAction}

theorem TlsStep.owner_mono (hstep : TlsStep m a next) (hi : SlotInv m) {b : Nat} {o : TlsOwner}
    (howner : m.owner b = some o) : next.owner b = some o := by
  cases hstep with
  | allocated =>
    have hne : b ≠ m.process.nextBuffer := Nat.ne_of_lt (hi.slots.owner_lt howner)
    rw [← howner]
    exact Function.update_of_ne hne _ _
  | _ => exact howner

theorem TlsStep.nextHandle_mono (hstep : TlsStep m a next) :
    m.process.nextHandle ≤ next.process.nextHandle := by
  cases hstep with
  | created => exact Nat.le_succ _
  | _ => exact Nat.le_refl _

theorem TlsStep.handles_of (hstep : TlsStep m a next) {h : Nat} {block : ThreadLocalStorageHandle}
    (hlt : h < m.process.nextHandle) (hblock : next.process.handles h = some block) :
    m.process.handles h = some block := by
  cases hstep with
  | created destructor size os =>
    cases OwnedSlots.handles_install _ _ hblock with
    | inl hnew => omega
    | inr hold => exact hold.2
  | destroyed => exact OwnedSlots.handles_release hblock
  | _ => exact hblock

private theorem SlotInv.step_slots (hi : SlotInv m) (hstep : TlsStep m a next) :
    OwnedSlots next.process next.owner := by
  cases hstep with
  | refused | rejected | entered | found | missed | exhausted | unstored | fetched | kept =>
    exact hi.slots
  | created => exact hi.slots.install _ _
  | allocated old hcall hpoint hblock => exact hi.slots.allocate hblock old
  | stored hcall hpoint hblock =>
    obtain ⟨k, howner⟩ := (hi.calls hcall).holds (by rw [hpoint]; rfl)
    have hkey := (hi.slots.owner_iff howner hblock).mp rfl
    rw [← hkey]
    exact hi.slots.store howner
  | freed => exact hi.slots.dispose
  | assigned => exact hi.slots.assign
  | exited => exact hi.slots.forget
  | destroyed => exact hi.slots.release

private theorem TlsCall.Sound.step {call : TlsCall} {u : Nat}
    (hsound : call.Sound m.process m.owner u) (hi : SlotInv m) (hstep : TlsStep m a next)
    (hu : a.thread ≠ some u) : call.Sound next.process next.owner u := by
  constructor
  case handle_lt => exact Nat.lt_of_lt_of_le hsound.handle_lt hstep.nextHandle_mono
  case holds =>
    intro b hb
    obtain ⟨k, howner⟩ := hsound.holds hb
    exact ⟨k, hstep.owner_mono hi howner⟩
  case reads =>
    intro block hblock
    rw [(hstep.other hu).2]
    exact hsound.reads (hstep.handles_of hsound.handle_lt hblock)

private theorem SlotInv.step_own (hi : SlotInv m) (hstep : TlsStep m a next) {t : Nat}
    {call : TlsCall} (ht : a.thread = some t) (hcall : next.activity t = some call) :
    call.Sound next.process next.owner t := by
  cases hstep with
  | refused | created | kept | destroyed => cases ht
  | @rejected _ t' handle ha hidle =>
    obtain rfl := Option.some.inj (ha.symm.trans ht)
    exact absurd (hcall.symm.trans (m.answer_self _)) nofun
  | @entered _ t' h purpose block ha hplain hidle hblock =>
    obtain rfl := Option.some.inj (ha.symm.trans ht)
    cases hcall.symm.trans (m.resume_self _ _)
    exact ⟨hi.slots.handle_lt hblock, nofun, fun _ => trivial⟩
  | @found t' os old block b hold hpoint hblock hslot =>
    cases ht
    cases hcall.symm.trans (m.resume_self _ _)
    refine ⟨(hi.calls hold).handle_lt, ?_, ?_⟩
    · intro b' hb'
      cases hb'
      exact ⟨block.key, hi.slots.owner_of_slot hblock hslot⟩
    · intro block' hblock'
      cases hblock.symm.trans hblock'
      exact hslot
  | @missed t' os old block hold hpoint hblock hslot =>
    cases ht
    cases hcall.symm.trans (m.resume_self _ _)
    refine ⟨(hi.calls hold).handle_lt, nofun, ?_⟩
    intro block' hblock'
    cases hblock.symm.trans hblock'
    exact hslot
  | @allocated t' os old block bytes hold hpoint hblock =>
    cases ht
    cases hcall.symm.trans (TlsMachine.resume_self _ _ _)
    refine ⟨(hi.calls hold).handle_lt, ?_, ?_⟩
    · intro b' hb'
      cases hb'
      exact ⟨block.key, Function.update_self _ _ _⟩
    · intro block' hblock'
      have hempty := (hi.calls hold).reads hblock'
      rw [hpoint] at hempty
      exact hempty
  | @stored t' os old block b hold hpoint hblock =>
    cases ht
    cases hcall.symm.trans (TlsMachine.resume_self _ _ _)
    refine ⟨(hi.calls hold).handle_lt, ?_, ?_⟩
    · intro b' hb'
      cases hb'
      exact (hi.calls hold).holds (by rw [hpoint]; rfl)
    · intro block' hblock'
      cases hblock.symm.trans hblock'
      show (m.process.store t block.key b).specific t block.key = some b
      rw [TlsProcess.store_specific, Function.update_self, Function.update_self]
  | @unstored t' os old b hold hpoint =>
    cases ht
    cases hcall.symm.trans (m.resume_self _ _)
    refine ⟨(hi.calls hold).handle_lt, ?_, ?_⟩
    · intro b' hb'
      cases hb'
      exact (hi.calls hold).holds (by rw [hpoint]; rfl)
    · intro block' hblock'
      have hempty := (hi.calls hold).reads hblock'
      rw [hpoint] at hempty
      exact hempty
  | exhausted | freed | fetched | assigned =>
    cases ht
    exact absurd (hcall.symm.trans (TlsMachine.answer_self _ _)) nofun
  | exited hidle =>
    cases ht
    exact absurd (hcall.symm.trans hidle) nofun

theorem SlotInv.step (hi : SlotInv m) (hstep : TlsStep m a next) : SlotInv next := by
  constructor
  case slots => exact hi.step_slots hstep
  case calls =>
    intro t call hcall
    by_cases ht : a.thread = some t
    · exact hi.step_own hstep ht hcall
    · rw [(hstep.other ht).1] at hcall
      exact (hi.calls hcall).step hi hstep ht

theorem SlotInv.start : SlotInv TlsMachine.start where
  slots :=
    { handle_lt := nofun, key_lt := nofun, key_inj := nofun, buffer_lt := nofun
      owner_lt := nofun, owner_handle_lt := nofun, owner_key_lt := nofun, owner_iff := nofun
      stored := nofun }
  calls := nofun

end Steps

section Flights

variable {m next : TlsMachine} {a : TlsAction} {t u b : Nat} {call : TlsCall}

theorem inFlight_eq (hcall : m.activity t = some call) :
    m.inFlight t b = (call.point.unregistered == some b) := by
  rw [TlsMachine.inFlight, hcall, Option.any_some]

theorem inFlight_idle (hidle : m.activity t = none) : m.inFlight t b = false := by
  rw [TlsMachine.inFlight, hidle, Option.any_none]

theorem call_of_inFlight (h : m.inFlight t b = true) :
    ∃ call, m.activity t = some call ∧ call.point.unregistered = some b := by
  cases hcall : m.activity t with
  | none =>
    rw [inFlight_idle hcall] at h
    cases h
  | some call =>
    rw [inFlight_eq hcall, beq_iff_eq] at h
    exact ⟨call, rfl, h⟩

theorem inFlight_resume : (m.resume t call).inFlight t b = (call.point.unregistered == some b) :=
  inFlight_eq (m.resume_self t call)

theorem inFlight_answer (answer : TlsAnswer) :
    (m.answer answer).inFlight answer.thread b = false :=
  inFlight_idle (m.answer_self answer)

theorem inFlight_congr (h : next.activity u = m.activity u) :
    next.inFlight u b = m.inFlight u b := by
  rw [TlsMachine.inFlight, TlsMachine.inFlight, h]

theorem SlotInv.owner_of_unregistered (hi : SlotInv m) (hcall : m.activity t = some call)
    (hb : call.point.unregistered = some b) :
    ∃ k, m.owner b = some { thread := t, handle := call.handle, key := k } := by
  apply (hi.calls hcall).holds
  cases hpoint : call.point with
  | getspecific | malloc | obtained => rw [hpoint] at hb; cases hb
  | setspecific b' | free b' => rw [hpoint] at hb; exact hb

theorem SlotInv.slot_empty (hi : SlotInv m) (hcall : m.activity t = some call)
    (hb : call.point.unregistered = some b) {block : ThreadLocalStorageHandle}
    (hblock : m.process.handles call.handle = some block) :
    m.process.specific t block.key = none := by
  have hreads := (hi.calls hcall).reads hblock
  cases hpoint : call.point with
  | getspecific | malloc | obtained => rw [hpoint] at hb; cases hb
  | setspecific | free => rw [hpoint] at hreads; exact hreads

theorem SlotInv.unregistered_ne (hi : SlotInv m) (hcall : m.activity t = some call)
    (hb : call.point.unregistered = some b) {block : ThreadLocalStorageHandle}
    (hblock : m.process.handles call.handle = some block) {u k b' : Nat}
    (hvalue : m.process.specific u k = some b') : b' ≠ b := by
  intro hsame
  rw [hsame] at hvalue
  obtain ⟨key, howner⟩ := hi.owner_of_unregistered hcall hb
  obtain ⟨h, howner'⟩ := hi.slots.stored hvalue
  cases howner.symm.trans howner'
  have hkey : k = block.key := (hi.slots.owner_iff howner hblock).mp rfl
  rw [hkey, hi.slot_empty hcall hb hblock] at hvalue
  cases hvalue

theorem TlsStep.inFlight (hstep : TlsStep m a next) (ha : a.thread = some t)
    (hown : next.inFlight t b = m.inFlight t b) (u : Nat) :
    next.inFlight u b = m.inFlight u b := by
  by_cases hu : u = t
  · rw [hu, hown]
  · apply inFlight_congr
    apply (hstep.other _).1
    rw [ha, Option.some_inj.ne]
    exact Ne.symm hu

end Flights

end Libdane
