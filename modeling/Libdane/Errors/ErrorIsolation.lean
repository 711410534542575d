import Libdane.Errors.ErrorContext

/-!
# Each thread has its own error

In every interleaving the slot of a thread holds the last error that the thread set itself. The
invariant ties the singleton's buffers to the answers of the sets.
-/

namespace Libdane

open PartialRuns

section Steps

variable {m next : TlsMachine} {a : TlsAction} {h t : Nat}

private theorem TlsStep.gStaticHandle (hstep : TlsStep m a next) :
    next.process.gStaticHandle = m.process.gStaticHandle := by
  cases hstep with
  | _ => rfl

private theorem TlsStep.handles_kept (hstep : TlsStep m a next) (hi : SlotInv m)
    (ha : a ≠ .destroy (some h)) {block : ThreadLocalStorageHandle}
    (hblock : m.process.handles h = some block) : next.process.handles h = some block := by
  cases hstep with
  | created =>
    have hne : h ≠ m.process.nextHandle := Nat.ne_of_lt (hi.slots.handle_lt hblock)
    exact (Function.update_of_ne hne _ _).trans hblock
  | @destroyed h' block' hblock' =>
    have hne : h ≠ h' := by
      intro hh
      exact ha (by rw [hh])
    exact (Function.update_of_ne hne _ _).trans hblock
  | _ => exact hblock

private theorem mem_events_exited (he : .exited t ∈ m.events a) : a = .exit t := by
  cases a with
  | exit u =>
    cases List.mem_singleton.mp he
    rfl
  | create | get | set | destroy => cases he
  | advance u os =>
    rw [TlsMachine.events] at he
    split at he
    · cases he
    · split at he
      · split at he
        · split at he
          · cases List.mem_singleton.mp he
          · cases he
        · cases he
      · split at he
        · cases List.mem_singleton.mp he
        · cases List.mem_singleton.mp he
        · cases he
      all_goals cases he

private theorem mem_events_wrote {b : Nat} {setter : TlsSetter} {newData : Nat → UInt8}
    (he : .wrote t h b setter newData ∈ m.events a) :
    ∃ call, m.activity t = some call ∧ call.handle = h ∧ call.purpose = .set setter newData := by
  cases a with
  | exit u => cases List.mem_singleton.mp he
  | create | get | set | destroy => cases he
  | advance u os =>
    rw [TlsMachine.events] at he
    split at he
    · cases he
    next call hcall =>
      split at he
      · split at he
        · split at he
          · cases List.mem_singleton.mp he
          · cases he
        · cases he
      · split at he
        · cases List.mem_singleton.mp he
        next hpurpose _ =>
          cases List.mem_singleton.mp he
          exact ⟨call, hcall, rfl, hpurpose⟩
        · cases he
      all_goals cases he

private theorem exited_of_step (hnext : m.step a = some next) (hlive : next.exited t = false) :
    m.exited t = false ∧ .exited t ∉ m.events a := by
  by_cases ha : a = .exit t
  · rw [ha] at hnext
    rw [(exit_cases hnext).2] at hlive
    simp at hlive
  · constructor
    · cases TlsMachine.steps hnext with
      | @exited u hidle =>
        have hne : t ≠ u := by
          intro hu
          exact ha (by rw [hu])
        rw [← hlive]
        exact (Function.update_of_ne hne _ _).symm
      | _ => exact hlive
    · intro he
      exact ha (mem_events_exited he)

private theorem call_of_enter {handle : Option Nat} {purpose : Option TlsPurpose}
    (hnext : m.enter t handle purpose = some next) {call : TlsCall}
    (hcall : next.activity t = some call) :
    handle = some call.handle ∧ purpose = some call.purpose := by
  obtain ⟨-, hnext⟩ := enter_cases hnext
  cases hnext with
  | inl hnext =>
    rw [hnext, m.answer_self] at hcall
    cases hcall
  | inr hnext =>
    obtain ⟨called, given, block, hhandle, hpurpose, -, hnext⟩ := hnext
    rw [hnext, m.resume_self] at hcall
    cases hcall
    exact ⟨hhandle, hpurpose⟩

/-- The calls on the handle that are in progress set without a setter. -/
def PlainCalls (m : TlsMachine) (h : Nat) : Prop :=
  ∀ t call, m.activity t = some call → call.handle = h → call.purpose.Plain

/-- Sets on the handle come without a setter. -/
def TlsAction.PlainOn (h : Nat) : TlsAction → Prop
  | .set _ handle setter _ => handle = some h → setter = none
  | .create _ _ _ | .get _ _ | .advance _ _ | .exit _ | .destroy _ => True

private theorem PlainCalls.step (hp : PlainCalls m h) (hnext : m.step a = some next)
    (ha : a.PlainOn h) : PlainCalls next h := by
  intro t call hcall hhandle
  by_cases ht : a.thread = some t
  · cases a with
    | create | destroy => cases ht
    | get u handle =>
      cases ht
      obtain ⟨-, hpurpose⟩ := call_of_enter hnext hcall
      rw [← Option.some.inj hpurpose]
      trivial
    | set u handle setter newData =>
      cases ht
      obtain ⟨hcalled, hpurpose⟩ := call_of_enter hnext hcall
      obtain ⟨written, -, hset⟩ := Option.map_eq_some_iff.mp hpurpose
      rw [← hset]
      exact ha (by rw [hcalled, hhandle])
    | advance u os =>
      cases ht
      cases (TlsMachine.steps hnext).call_of hcall with
      | inl hold =>
        obtain ⟨old, hold, hsame, hpurpose⟩ := hold
        rw [← hpurpose]
        exact hp t old hold (hsame.trans hhandle)
      | inr hnew => exact hnew.2 trivial
    | exit u =>
      cases ht
      rw [(exit_cases hnext).2] at hcall
      exact hp t call hcall hhandle
  · rw [((TlsMachine.steps hnext).other ht).1] at hcall
    exact hp t call hcall hhandle

private theorem PlainCalls.events (hp : PlainCalls m h) : ∀ e ∈ m.events a, e.PlainOn h := by
  intro e he
  cases e with
  | opened | got | exited => trivial
  | wrote t k b setter newData =>
    intro hk
    obtain ⟨call, hcall, hhandle, hpurpose⟩ := mem_events_wrote he
    have hplain := hp t call hcall (hhandle.trans hk)
    rw [hpurpose] at hplain
    exact hplain

/-- The step of the storage that an action makes on the singleton. -/
def ErrorAction.onStatic (h : Nat) : ErrorAction → TlsAction
  | .errGet t => .get t (some h)
  | .errSet t code text stack =>
    .set t (some h) none (some ((LibdErrorContext.newErr code text).memory stack))
  | .storage a => a

/-- The action begins a call of the thread. -/
def ErrorAction.begins (t : Nat) : ErrorAction → Bool
  | .errGet thread | .errSet thread _ _ _ => thread == t
  | .storage a => a.begins t

/-- The error that the action sets, with the stack behind it. -/
def ErrorAction.error : ErrorAction → Option (Int32 × List UInt8 × (Nat → UInt8))
  | .errSet _ code text stack => some (code, text, stack)
  | .errGet _ | .storage _ => none

private theorem ErrorAction.begins_onStatic (e : ErrorAction) (h t : Nat) :
    (e.onStatic h).begins t = e.begins t := by
  cases e <;> rfl

private theorem ErrorAction.step_onStatic (hstatic : m.process.gStaticHandle = some h)
    {e : ErrorAction} (hnext : e.step m = some next) :
    m.step (e.onStatic h) = some next ∧ (e.onStatic h).PlainOn h ∧
      e.onStatic h ≠ .destroy (some h) ∧
      (e.onStatic h).dataFor h = e.error.map fun given =>
        (LibdErrorContext.newErr given.1 given.2.1).memory given.2.2 := by
  cases e with
  | errGet t =>
    rw [step, TlsMachine.enterStatic, hstatic] at hnext
    exact ⟨hnext, trivial, by simp [onStatic], rfl⟩
  | errSet t code text stack =>
    rw [step, TlsMachine.enterStatic, hstatic] at hnext
    exact ⟨hnext, fun _ => rfl, by simp [onStatic], by simp [onStatic, TlsAction.dataFor, error]⟩
  | storage a =>
    rw [step, hstatic] at hnext
    split at hnext
    next => cases hnext
    next hother =>
      have hne : a.handle ≠ some h := by
        intro hsame
        simp [hsame] at hother
      refine ⟨hnext, ?_, ?_, ?_⟩
      · cases a with
        | set t handle setter newData =>
          intro hhandle
          exact absurd hhandle hne
        | create | get | advance | exit | destroy => trivial
      · intro hdestroy
        rw [onStatic] at hdestroy
        rw [hdestroy] at hne
        exact hne rfl
      · cases a with
        | set t handle setter newData => exact if_neg hne
        | create | get | advance | exit | destroy => rfl

end Steps

/-- What is true all along a run with a singleton that has this handle and this size. -/
structure ErrorInv (h : Nat) (size : UInt64) (m : TlsMachine) (s : SlotMap) : Prop where
  buffers : BufferInv m
  shows : m.Shows s
  static : m.process.gStaticHandle = some h
  block : ∃ block, m.process.handles h = some block ∧ block.dataSize = size
  plain : PlainCalls m h
  kept : ∀ {t}, m.exited t = false → s.Kept t h

section Runs

variable {h : Nat} {size : UInt64} {m next final : TlsMachine} {s : SlotMap}

private theorem ErrorInv.step (hi : ErrorInv h size m s) {e : ErrorAction}
    (hnext : e.step m = some next) : ∃ s', ErrorInv h size next s' := by
  obtain ⟨hstep, hplain, hstays, -⟩ := ErrorAction.step_onStatic hi.static hnext
  obtain ⟨s', hevents, hshows⟩ := hi.shows.step hi.buffers hstep
  have hsteps := TlsMachine.steps hstep
  refine ⟨s', hi.buffers.step hsteps, hshows, ?_, ?_, hi.plain.step hstep hplain, ?_⟩
  · rw [hsteps.gStaticHandle, hi.static]
  · obtain ⟨block, hblock, hsize⟩ := hi.block
    exact ⟨block, hsteps.handles_kept hi.buffers.inv hstays hblock, hsize⟩
  · intro t hlive
    obtain ⟨hold, hstay⟩ := exited_of_step hstep hlive
    exact (hi.kept hold).run hi.plain.events hstay hevents

private theorem ErrorInv.run (hi : ErrorInv h size m s) {actions : List ErrorAction}
    (hrun : PartialRuns.run ErrorAction.step m actions = some final) :
    ∃ s', ErrorInv h size final s' := by
  apply run_invariant (fun m => ∃ s, ErrorInv h size m s) _ ⟨s, hi⟩ hrun
  intro m e next hm hnext
  obtain ⟨s, hs⟩ := hm
  exact hs.step hnext

/-- An initialization that returns has made the singleton. -/
private theorem ErrorInv.init {os : TlsOs} {destructor : TlsDestructor} {r : TlsReturn}
    (hinit : libdPlatformThreadLocalStaticInit os .start destructor size = .ok r) :
    ErrorInv 0 size { TlsMachine.start with process := r.process } .empty := by
  have hprocess : r.process =
      { TlsProcess.start.install destructor size with
        gStaticHandle := some 0, gStaticOnce := true, gStaticSize := size
        gStaticDestructor := destructor } := by
    cases hmalloc : (os.malloc sizeofThreadLocalStorageHandle).isNone with
    | true =>
      simp [libdPlatformThreadLocalStaticInit, TlsProcess.start, pthreadOnce,
        initStaticThreadLocalStorage, libdPlatformThreadLocalStorageCreate, hmalloc, bind,
        Except.bind] at hinit
    | false =>
      cases hkey : os.keyCreate with
      | false =>
        simp [libdPlatformThreadLocalStaticInit, TlsProcess.start, pthreadOnce,
          initStaticThreadLocalStorage, libdPlatformThreadLocalStorageCreate, hmalloc, hkey, bind,
          Except.bind] at hinit
      | true =>
        simp [libdPlatformThreadLocalStaticInit, TlsProcess.start, pthreadOnce,
          initStaticThreadLocalStorage, libdPlatformThreadLocalStorageCreate, hmalloc, hkey, bind,
          Except.bind] at hinit
        rw [← hinit]
        rfl
  rw [hprocess]
  have hslots := OwnedSlots.install SlotInv.start.slots destructor size
  have hshows := TlsMachine.Shows.start.install SlotInv.start destructor size
  constructor
  case buffers =>
    constructor
    case inv =>
      refine ⟨{ hslots with }, ?_⟩
      intro t call hcall
      cases hcall
    case stored =>
      intro t h b block _ hvalue
      cases hvalue
    case held =>
      intro t call b hcall
      cases hcall
  case shows => exact ⟨hshows.slots, hshows.obtained, hshows.later, hshows.answers⟩
  case static => rfl
  case block => exact ⟨{ key := 0, dataSize := size }, rfl, rfl⟩
  case plain =>
    intro t call hcall
    cases hcall
  case kept =>
    intro t _
    constructor
    case returned =>
      intro a ha
      cases ha
    case content =>
      intro b buffer newData hslot
      cases hslot

private theorem lastWritten_filter (answers : List TlsAnswer) (t h : Nat) :
    lastWritten (answers.filter fun a => a.result == .ok) t h = lastWritten answers t h := by
  induction answers using List.reverseRecOn with
  | nil => rfl
  | append_singleton answers a ih =>
    rw [List.filter_append, lastWritten_append, ← ih]
    by_cases hok : a.result = .ok
    · rw [List.filter_cons_of_pos (by simp [hok]), List.filter_nil, lastWritten_append]
    · rw [List.filter_cons_of_neg (by simp [hok]), List.filter_nil, List.append_nil, if_neg,
        Option.none_or]
      intro hall
      exact hok hall.2.2

private theorem ErrorInv.holds (hi : ErrorInv h size m s) {a : TlsAnswer} (ha : a ∈ m.answers)
    (hlive : m.exited a.thread = false) (hhandle : a.handle = some h) (hok : a.result = .ok) :
    ∃ b buffer, a.data = some b ∧ m.process.buffers b = some buffer ∧ buffer.size = size ∧
      ∀ newData ∈ lastWritten m.answers a.thread h,
        buffer.content.take size.toNat = (List.range size.toNat).map newData := by
  have hkept := hi.kept hlive
  have hmem : a ∈ s.answers := by
    rw [hi.shows.answers, List.mem_filter]
    exact ⟨ha, beq_iff_eq.mpr hok⟩
  obtain ⟨b, buffer, hdata, hslot⟩ := hkept.returned a hmem rfl hhandle
  obtain ⟨block, hblock, hsize⟩ := hi.block
  have hshown := hi.shows.slots (t := a.thread) hblock
  rw [hslot] at hshown
  obtain ⟨b', hvalue, hbuffer'⟩ := Option.bind_eq_some_iff.mp hshown.symm
  obtain ⟨buffer', hbuffer, hpair⟩ := Option.map_eq_some_iff.mp hbuffer'
  cases hpair
  obtain ⟨buffer'', hsame, hlarge⟩ := hi.buffers.stored hblock hvalue
  cases hbuffer.symm.trans hsame
  rw [hsize] at hlarge
  refine ⟨b, buffer, hdata, hbuffer, hlarge, ?_⟩
  intro newData hlast
  rw [← lastWritten_filter, ← hi.shows.answers] at hlast
  have hcontent := hkept.content hslot hlast
  rwa [hlarge] at hcontent

end Runs

/-- The error of the last `err_set` of the thread that succeeded. -/
def lastErr (actions : List ErrorAction) (m : TlsMachine) (t : Nat) :
    Option (Int32 × List UInt8 × (Nat → UInt8)) :=
  lastAnswered ErrorAction.error (actions.filter (ErrorAction.begins t)) (m.answersOf t)

section Errors

variable {h : Nat} {m final : TlsMachine} {actions : List ErrorAction}

private theorem ErrorAction.run_onStatic (hstatic : m.process.gStaticHandle = some h)
    (hrun : run ErrorAction.step m actions = some final) :
    run TlsMachine.step m (actions.map (ErrorAction.onStatic h)) = some final ∧
      ∀ e ∈ actions, (e.onStatic h).dataFor h = e.error.map fun given =>
        (LibdErrorContext.newErr given.1 given.2.1).memory given.2.2 := by
  induction actions generalizing m with
  | nil => exact ⟨hrun, nofun⟩
  | cons e actions ih =>
    obtain ⟨next, hnext, hrest⟩ := run_cons_eq_some.mp hrun
    obtain ⟨hstep, -, -, hdata⟩ := ErrorAction.step_onStatic hstatic hnext
    have hstatic' : next.process.gStaticHandle = some h := by
      rw [(TlsMachine.steps hstep).gStaticHandle, hstatic]
    obtain ⟨hstorage, hothers⟩ := ih hstatic' hrest
    constructor
    · rw [List.map_cons, run_cons, hstep, Option.bind_some, hstorage]
    · intro e' he'
      cases List.mem_cons.mp he' with
      | inl hfirst => rwa [hfirst]
      | inr hlater => exact hothers e' hlater

private theorem lastWritten_of_lastErr (hidle : ∀ t, m.activity t = none) (hnone : m.answers = [])
    (hstatic : m.process.gStaticHandle = some h)
    (hrun : run ErrorAction.step m actions = some final) (t : Nat) :
    lastWritten final.answers t h = (lastErr actions final t).map fun given =>
      (LibdErrorContext.newErr given.1 given.2.1).memory given.2.2 := by
  obtain ⟨hstorage, hdata⟩ := ErrorAction.run_onStatic hstatic hrun
  have hcalls : (actions.map (ErrorAction.onStatic h)).filter (TlsAction.begins t) =
      (actions.filter (ErrorAction.begins t)).map (ErrorAction.onStatic h) := by
    rw [List.filter_map]
    congr 2
    funext e
    exact e.begins_onStatic h t
  rw [← lastSet_of_run hidle hnone hstorage, lastSet, hcalls, lastErr]
  apply lastAnswered_map
  intro e he
  exact hdata e (List.mem_filter.mp he).1

end Errors

/-- Two threads that set their errors in turns, and the first one that then gets its own. -/
def twoErrors : List ErrorAction :=
  [.errSet 0 7 [104, 105] fun _ => 9, .errSet 1 8 [] fun _ => 9] ++
  (List.replicate 4 [.storage (.advance 0 generousTlsOs),
    .storage (.advance 1 generousTlsOs)]).flatten ++
  .errGet 0 :: List.replicate 2 (.storage (.advance 0 generousTlsOs))

end Libdane
