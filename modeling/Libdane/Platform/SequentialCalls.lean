import Libdane.Platform.SlotOwnership

/-!
# Calls that nothing interrupts

With no other thread between its system calls, a call of the machine is the call of the function.
-/

namespace Libdane

open PartialRuns

section Uninterrupted

variable {m next : TlsMachine} {t h : Nat} {os : TlsOs} {call : TlsCall}

/-- A thread goes on until it is at the second machine. -/
def Continues (os : TlsOs) (t : Nat) (m next : TlsMachine) : Prop :=
  ∃ n, run TlsMachine.step m (List.replicate n (.advance t os)) = some next

theorem Continues.refl (m : TlsMachine) : Continues os t m m := ⟨0, rfl⟩

private theorem Continues.head {mid : TlsMachine} (hcall : m.activity t = some call)
    (hadvance : m.advance t call os = some mid) (hrest : Continues os t mid next) :
    Continues os t m next := by
  obtain ⟨n, hn⟩ := hrest
  refine ⟨n + 1, ?_⟩
  rw [List.replicate_succ, run_cons_eq_some]
  refine ⟨mid, ?_, hn⟩
  rw [TlsMachine.step, hcall, Option.bind_some, hadvance]

/-- From its first system call on, a thread gets where the function gets at once: to its buffer, or
to the failure. -/
private theorem continues_get (hcall : m.activity t = some call)
    (hpoint : call.point = .getspecific)
    (hfresh : m.process.buffers m.process.nextBuffer = none) {r : TlsGetReturn}
    (hget : libdPlatformThreadLocalStorageGet os m.process t (some call.handle) = .ok r) :
    ∃ next, Continues os t m next ∧ next.process = r.process ∧
      (∀ b ∈ r.data, r.result = .ok ∧ next.answers = m.answers ∧
        next.activity t = some { call with point := .obtained b }) ∧
      (r.data = none → next.activity t = none ∧ next.answers = m.answers ++
        [{ thread := t, handle := some call.handle, result := r.result, data := none
           newData := none }]) := by
  obtain ⟨block, hblock⟩ := live_of_get hget
  cases hslot : m.process.specific t block.key with
  | some b =>
    have hlook : m.advance t call os = some (m.resume t { call with point := .obtained b }) := by
      simp [TlsMachine.advance, hpoint, hblock, hslot]
    cases hget.symm.trans (get_found hblock hslot)
    refine ⟨_, .head hcall hlook (.refl _), rfl, ?_, fun h => absurd h (Option.some_ne_none _)⟩
    intro b' hb'
    cases hb'
    exact ⟨rfl, rfl, m.resume_self _ _⟩
  | none =>
    have hlook : m.advance t call os = some (m.resume t { call with point := .malloc }) := by
      simp [TlsMachine.advance, hpoint, hblock, hslot]
    have hlooked := m.resume_self t { call with point := .malloc }
    cases hmalloc : os.malloc block.dataSize with
    | none =>
      have hmalloced : (m.resume t { call with point := .malloc }).advance t
          { call with point := .malloc } os =
            some ((m.resume t { call with point := .malloc }).answer
              { thread := t, handle := some call.handle, result := .noMemory, data := none
                newData := none }) := by
        simp [TlsMachine.advance, TlsMachine.resume, hblock, hmalloc]
      cases hget.symm.trans (get_exhausted hblock hslot hmalloc)
      refine ⟨_, .head hcall hlook (.head hlooked hmalloced (.refl _)), rfl,
        fun _ hb => absurd hb (Option.not_mem_none _), ?_⟩
      intro _
      exact ⟨TlsMachine.answer_self _ _, rfl⟩
    | some old =>
      let allocated : TlsMachine :=
        { m.resume t { call with point := .malloc } with
          process := m.process.allocate block.dataSize old
          owner := Function.update m.owner m.process.nextBuffer
            (some { thread := t, handle := call.handle, key := block.key }) }
      let registering : TlsCall := { call with point := .setspecific m.process.nextBuffer }
      have hmalloced : (m.resume t { call with point := .malloc }).advance t
          { call with point := .malloc } os = some (allocated.resume t registering) := by
        simp [TlsMachine.advance, TlsMachine.resume, hblock, hmalloc, allocated, registering]
      have hregistering := allocated.resume_self t registering
      cases hset : os.setspecific with
      | true =>
        have hstored : (allocated.resume t registering).advance t registering os =
            some ({ allocated.resume t registering with
              process := m.process.register t block old }.resume t
                { call with point := .obtained m.process.nextBuffer }) := by
          simp [TlsMachine.advance, TlsMachine.resume, TlsProcess.allocate, hblock, hset,
            allocated, registering, ← TlsProcess.allocate_store]
        cases hget.symm.trans (get_registered hblock hslot hmalloc hset)
        refine ⟨_, .head hcall hlook (.head hlooked hmalloced
          (.head hregistering hstored (.refl _))), rfl, ?_,
          fun h => absurd h (Option.some_ne_none _)⟩
        intro b' hb'
        cases hb'
        exact ⟨rfl, rfl, TlsMachine.resume_self _ _ _⟩
      | false =>
        have hrefused : (allocated.resume t registering).advance t registering os =
            some ((allocated.resume t registering).resume t
              { call with point := .free m.process.nextBuffer }) := by
          simp [TlsMachine.advance, TlsMachine.resume, TlsProcess.allocate, hblock, hset,
            allocated, registering]
        have hfreeing := (allocated.resume t registering).resume_self t
          { call with point := .free m.process.nextBuffer }
        cases hget.symm.trans (get_refused hblock hslot hmalloc hset)
        refine ⟨_, .head hcall hlook (.head hlooked hmalloced
          (.head hregistering hrefused (.head hfreeing rfl (.refl _)))), ?_,
          fun _ hb => absurd hb (Option.not_mem_none _), ?_⟩
        · exact m.process.allocate_dispose hfresh block.dataSize old
        · intro _
          exact ⟨TlsMachine.answer_self _ _, rfl⟩

private theorem Continues.trans {mid : TlsMachine} (h : Continues os t m mid)
    (hrest : Continues os t mid next) : Continues os t m next := by
  obtain ⟨n, hn⟩ := h
  obtain ⟨k, hk⟩ := hrest
  refine ⟨n + k, ?_⟩
  rw [← List.replicate_append_replicate, run_append, hn, Option.bind_some, hk]

private theorem enter_null (hidle : m.idle t = true) (handle : Option Nat)
    (purpose : Option TlsPurpose) (hnull : handle = none ∨ purpose = none) :
    m.enter t handle purpose = some (m.answer
      { thread := t, handle := handle, result := .invalidParameter, data := none
        newData := none }) := by
  cases handle with
  | none => simp [TlsMachine.enter, hidle]
  | some h =>
    cases purpose with
    | none => simp [TlsMachine.enter, hidle]
    | some purpose => cases hnull with
      | inl h => cases h
      | inr h => cases h

private theorem enter_live (hidle : m.idle t = true) {block : ThreadLocalStorageHandle}
    (hblock : m.process.handles h = some block) (purpose : TlsPurpose) :
    m.enter t (some h) (some purpose) =
      some (m.resume t { handle := h, purpose := purpose, point := .getspecific }) := by
  simp [TlsMachine.enter, hidle, hblock]

theorem get_uninterrupted (hi : SlotInv m) (hidle : m.idle t = true) {handle : Option Nat}
    {r : TlsGetReturn} (hget : libdPlatformThreadLocalStorageGet os m.process t handle = .ok r) :
    ∃ entered next, m.step (.get t handle) = some entered ∧ Continues os t entered next ∧
      next.process = r.process ∧ next.activity t = none ∧ next.answers = m.answers ++
        [{ thread := t, handle := handle, result := r.result, data := r.data
           newData := none }] := by
  cases handle with
  | none =>
    rw [libdPlatformThreadLocalStorageGet, Except.ok.injEq] at hget
    subst hget
    exact ⟨_, _, enter_null hidle none (some .get) (Or.inl rfl), .refl _, rfl, m.answer_self _, rfl⟩
  | some h =>
    obtain ⟨block, hblock⟩ := live_of_get hget
    have hentered := enter_live hidle hblock .get
    have hcall := m.resume_self t { handle := h, purpose := .get, point := .getspecific }
    obtain ⟨mid, hmid, hprocess, hfound, hfailed⟩ :=
      continues_get hcall rfl hi.slots.no_buffer hget
    cases hdata : r.data with
    | none =>
      obtain ⟨hreturned, hanswers⟩ := hfailed hdata
      exact ⟨_, mid, hentered, hmid, hprocess, hreturned, hanswers⟩
    | some b =>
      obtain ⟨hok, hanswers, hobtained⟩ := hfound b hdata
      refine ⟨_, _, hentered, hmid.trans (.head hobtained rfl (.refl _)), hprocess,
        mid.answer_self _, ?_⟩
      rw [hok]
      exact congrArg (· ++ _) hanswers

/-- A set that no other thread interrupts is the function. -/
theorem set_uninterrupted (hi : SlotInv m) (hidle : m.idle t = true) {handle : Option Nat}
    {setter : TlsSetter} {newData : Option (Nat → UInt8)} {r : TlsReturn}
    (hset : libdPlatformThreadLocalStorageSet os m.process t handle setter newData = .ok r) :
    ∃ entered next a, m.step (.set t handle setter newData) = some entered ∧
      Continues os t entered next ∧ next.process = r.process ∧ next.activity t = none ∧
      next.answers = m.answers ++ [a] ∧ a.thread = t ∧ a.handle = handle ∧ a.result = r.result := by
  cases handle with
  | none =>
    rw [libdPlatformThreadLocalStorageSet, Except.ok.injEq] at hset
    · subst hset
      have hnull := enter_null hidle none (newData.map (.set setter)) (Or.inl rfl)
      exact ⟨_, _, _, hnull, .refl _, rfl, m.answer_self _, rfl, rfl, rfl, rfl⟩
    · nofun
  | some h =>
    cases newData with
    | none =>
      rw [libdPlatformThreadLocalStorageSet, Except.ok.injEq] at hset
      · subst hset
        have hnull := enter_null hidle (some h) none (Or.inr rfl)
        exact ⟨_, _, _, hnull, .refl _, rfl, m.answer_self _, rfl, rfl, rfl, rfl⟩
      · nofun
    | some newData =>
      rw [libdPlatformThreadLocalStorageSet] at hset
      cases hget : libdPlatformThreadLocalStorageGet os m.process t (some h) with
      | error abort => simp [hget, bind, Except.bind] at hset
      | ok got =>
        obtain ⟨block, hblock⟩ := live_of_get hget
        have hentered := enter_live hidle hblock (.set setter newData)
        have hcall := m.resume_self t
          { handle := h, purpose := .set setter newData, point := .getspecific }
        obtain ⟨mid, hmid, hprocess, hfound, hfailed⟩ :=
          continues_get hcall rfl hi.slots.no_buffer hget
        cases hdata : got.data with
        | none =>
          simp [hget, hdata, bind, Except.bind] at hset
          subst hset
          obtain ⟨hreturned, hanswers⟩ := hfailed hdata
          exact ⟨_, mid, _, hentered, hmid, hprocess, hreturned, hanswers, rfl, rfl, rfl⟩
        | some b =>
          obtain ⟨hok, hanswers, hobtained⟩ := hfound b hdata
          cases hafter : got.process.handles h with
          | none => simp [hget, hdata, TlsProcess.deref, hafter, bind, Except.bind] at hset
          | some block' =>
            simp [hget, hdata, TlsProcess.deref, hafter, bind, Except.bind] at hset
            subst hset
            have hdelivered : mid.advance t
                { handle := h, purpose := .set setter newData, point := .obtained b } os =
                  some ({ mid with
                    process := mid.process.assign b setter block'.dataSize newData }.answer
                      { thread := t, handle := some h, result := .ok, data := some b
                        newData := some newData }) := by
              cases setter with
              | some setter => rfl
              | none => simp [TlsMachine.advance, TlsMachine.deliver, hprocess, hafter]
            refine ⟨_, _, _, hentered, hmid.trans (.head hobtained hdelivered (.refl _)), ?_,
              TlsMachine.answer_self _ _, congrArg (· ++ _) hanswers, rfl, rfl, rfl⟩
            exact congrArg (fun p => p.assign b setter block'.dataSize newData) hprocess

end Uninterrupted

end Libdane
