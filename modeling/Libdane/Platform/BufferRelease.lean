import Libdane.Platform.SlotOwnership
import Mathlib.Data.List.Nodup

/-!
# The release of thread-local buffers

A buffer under a key with a destructor is at every moment in one place: with the call that
allocated it, in its slot, freed by that call, or passed to the destructor. Destroying the handle
deletes the key, and what is in a slot by then stays there.
-/

namespace Libdane

open PartialRuns

namespace TlsMachine

def inSlot (m : TlsMachine) (thread key b : Nat) : Bool :=
  m.process.specific thread key == some b

/-- In how many places a buffer is. -/
def places (m : TlsMachine) (b : Nat) (o : TlsOwner) (destructor : Nat) : Nat :=
  (m.inFlight o.thread b).toNat + (m.inSlot o.thread o.key b).toNat + m.discarded.count b +
    m.released.count (destructor, b)

end TlsMachine

structure Ledger (m : TlsMachine) : Prop where
  inv : SlotInv m
  discarded_owned : ∀ {b}, b ∈ m.discarded → ∃ o, m.owner b = some o
  released_owned : ∀ {e}, e ∈ m.released → ∃ o, m.owner e.2 = some o
  balance : ∀ {b o destructor}, m.owner b = some o →
    m.process.keys o.key = some (some destructor) → m.places b o destructor = 1

section Exits

variable {p : TlsProcess} {owner : Nat → Option TlsOwner} {t b d : Nat} {o : TlsOwner}

private theorem keyRelease_eq_some {k : Nat} :
    p.keyRelease t k = some (d, b) ↔ p.keys k = some (some d) ∧ p.specific t k = some b := by
  rw [TlsProcess.keyRelease]
  split
  next destructor data hkeys hvalue => simp [hkeys, hvalue]
  next hneither =>
    constructor
    · nofun
    · intro h
      exact absurd h.2 (hneither d b h.1)

private theorem mem_exitReleases {e : Nat × Nat} (he : e ∈ p.exitReleases t) :
    ∃ k, p.keys k = some (some e.1) ∧ p.specific t k = some e.2 := by
  obtain ⟨k, -, hk⟩ := List.mem_filterMap.mp he
  exact ⟨k, keyRelease_eq_some.mp hk⟩

/-- The exit of a thread passes a buffer to its destructor once if the buffer is in the slot of the
thread, and not at all if it is not. -/
private theorem OwnedSlots.count_exitReleases (hs : OwnedSlots p owner) (howner : owner b = some o)
    (hkey : p.keys o.key = some (some d)) :
    (p.exitReleases t).count (d, b) = (p.specific t o.key == some b).toNat := by
  rw [TlsProcess.exitReleases, List.count_filterMap]
  cases hslot : p.specific t o.key == some b with
  | false =>
    rw [List.countP_eq_zero.mpr]
    · rfl
    · intro k _ hk
      obtain ⟨-, hvalue⟩ := keyRelease_eq_some.mp (beq_iff_eq.mp hk)
      obtain ⟨h, howner'⟩ := hs.stored hvalue
      cases howner.symm.trans howner'
      rw [hvalue, beq_self_eq_true] at hslot
      cases hslot
  | true =>
    have hhere : ∀ k ∈ List.range p.nextKey,
        (p.keyRelease t k == some (d, b)) = true ↔ (k == o.key) = true := by
      intro k _
      rw [beq_iff_eq, beq_iff_eq, keyRelease_eq_some]
      constructor
      · intro h
        obtain ⟨h', howner'⟩ := hs.stored h.2
        cases howner.symm.trans howner'
        rfl
      · intro hk
        rw [hk]
        exact ⟨hkey, beq_iff_eq.mp hslot⟩
    rw [List.countP_congr hhere, ← List.count_eq_countP]
    exact List.count_eq_one_of_mem List.nodup_range (List.mem_range.mpr (hs.owner_key_lt howner))

end Exits

section Balance

variable {m next : TlsMachine} {a : TlsAction} {t u b d : Nat} {o : TlsOwner}

private theorem some_beq_of_ne {b' : Nat} (hb : b ≠ b') : (some b' == some b) = false :=
  beq_eq_false_iff_ne.mpr (Option.some_inj.ne.mpr (Ne.symm hb))

private theorem Ledger.keep (hl : Ledger m) (howner : m.owner b = some o)
    (hkey : m.process.keys o.key = some (some d))
    (hflight : next.inFlight o.thread b = m.inFlight o.thread b)
    (hslot : next.inSlot o.thread o.key b = m.inSlot o.thread o.key b)
    (hdiscarded : next.discarded.count b = m.discarded.count b)
    (hreleased : next.released.count (d, b) = m.released.count (d, b)) :
    next.places b o d = 1 := by
  rw [TlsMachine.places, hflight, hslot, hdiscarded, hreleased]
  exact hl.balance howner hkey

private theorem Ledger.nowhere (hl : Ledger m) (hnone : m.owner b = none) :
    m.inSlot u t b = false ∧ m.discarded.count b = 0 ∧ m.released.count (d, b) = 0 := by
  refine ⟨?_, ?_, ?_⟩
  · rw [TlsMachine.inSlot, beq_eq_false_iff_ne]
    intro hvalue
    obtain ⟨h, howner⟩ := hl.inv.slots.stored hvalue
    rw [hnone] at howner
    cases howner
  · apply List.count_eq_zero.mpr
    intro hmem
    obtain ⟨o, howner⟩ := hl.discarded_owned hmem
    rw [hnone] at howner
    cases howner
  · apply List.count_eq_zero.mpr
    intro hmem
    obtain ⟨o, howner⟩ := hl.released_owned hmem
    rw [hnone] at howner
    cases howner

private theorem Ledger.balance_new (hl : Ledger m) (hnone : m.owner b = none)
    (hflight : next.inFlight o.thread b = true)
    (hslot : next.inSlot o.thread o.key b = m.inSlot o.thread o.key b)
    (hdiscarded : next.discarded = m.discarded) (hreleased : next.released = m.released) :
    next.places b o d = 1 := by
  obtain ⟨hnowhere, hdiscarded', hreleased'⟩ :=
    hl.nowhere (u := o.thread) (t := o.key) (d := d) hnone
  rw [TlsMachine.places, hflight, hslot, hnowhere, hdiscarded, hdiscarded', hreleased, hreleased']
  rfl

private theorem Ledger.balance_registered (hl : Ledger m) (howner : m.owner b = some o)
    (hkey : m.process.keys o.key = some (some d)) (hheld : m.inFlight o.thread b = true)
    (hflight : next.inFlight o.thread b = false) (hslot : next.inSlot o.thread o.key b = true)
    (hdiscarded : next.discarded = m.discarded) (hreleased : next.released = m.released) :
    next.places b o d = 1 := by
  have hbefore := hl.balance howner hkey
  rw [TlsMachine.places, hheld] at hbefore
  rw [TlsMachine.places, hflight, hslot, hdiscarded, hreleased]
  simp only [Bool.toNat_true, Bool.toNat_false] at hbefore ⊢
  omega

private theorem Ledger.balance_discarded (hl : Ledger m) (howner : m.owner b = some o)
    (hkey : m.process.keys o.key = some (some d)) (hheld : m.inFlight o.thread b = true)
    (hflight : next.inFlight o.thread b = false)
    (hslot : next.inSlot o.thread o.key b = m.inSlot o.thread o.key b)
    (hdiscarded : next.discarded = m.discarded ++ [b]) (hreleased : next.released = m.released) :
    next.places b o d = 1 := by
  have hbefore := hl.balance howner hkey
  rw [TlsMachine.places, hheld] at hbefore
  rw [TlsMachine.places, hflight, hslot, hdiscarded, hreleased, List.count_append,
    List.count_singleton_self]
  simp only [Bool.toNat_true, Bool.toNat_false] at hbefore ⊢
  omega

private theorem Ledger.balance_exited (hl : Ledger m) (howner : m.owner b = some o)
    (hkey : m.process.keys o.key = some (some d))
    (hflight : next.inFlight o.thread b = m.inFlight o.thread b)
    (hslots : next.process.specific = Function.update m.process.specific t fun _ => none)
    (hdiscarded : next.discarded = m.discarded)
    (hreleased : next.released = m.released ++ m.process.exitReleases t) :
    next.places b o d = 1 := by
  have hbefore := hl.balance howner hkey
  have hcount := hl.inv.slots.count_exitReleases (t := t) howner hkey
  rw [TlsMachine.places, TlsMachine.inSlot] at hbefore
  rw [TlsMachine.places, TlsMachine.inSlot, hflight, hslots, hdiscarded, hreleased,
    List.count_append, hcount]
  by_cases ht : o.thread = t
  · rw [ht, Function.update_self, ← ht]
    simp only [Option.none_beq_some, Bool.toNat_false]
    omega
  · -- another thread has no buffer of this owner in its slots
    have hslot : (m.process.specific t o.key == some b) = false := by
      rw [beq_eq_false_iff_ne]
      intro hvalue
      obtain ⟨h, howner'⟩ := hl.inv.slots.stored hvalue
      exact ht (congrArg TlsOwner.thread (Option.some.inj (howner.symm.trans howner')))
    rw [Function.update_of_ne ht, hslot]
    exact hbefore

private theorem inSlot_store {b' : Nat} (hempty : m.process.specific t d = none) (hb : b ≠ b')
    (k : Nat) : ((m.process.store t d b').specific u k == some b) = m.inSlot u k b := by
  rw [TlsMachine.inSlot, TlsProcess.store_specific_apply]
  split
  next hhere =>
    rw [hhere.1, hhere.2, hempty, some_beq_of_ne hb]
    rfl
  next => rfl

private theorem Ledger.step_balance (hl : Ledger m) (hstep : TlsStep m a next)
    (howner : next.owner b = some o) (hkey : next.process.keys o.key = some (some d)) :
    next.places b o d = 1 := by
  have hflight {t : Nat} (ha : a.thread = some t)
      (hown : next.inFlight t b = m.inFlight t b) :
      next.inFlight o.thread b = m.inFlight o.thread b := hstep.inFlight ha hown _
  cases hstep with
  | refused | kept => exact hl.balance howner hkey
  | created =>
    have hold : o.key ≠ m.process.nextKey := Nat.ne_of_lt (hl.inv.slots.owner_key_lt howner)
    rw [TlsProcess.install_keys, Function.update_of_ne hold] at hkey
    exact hl.balance howner hkey
  | rejected ha hidle =>
    apply hl.keep howner hkey (hflight ha _) rfl rfl rfl
    rw [inFlight_idle hidle]
    exact inFlight_answer _
  | entered ha hplain hidle hblock =>
    apply hl.keep howner hkey (hflight ha _) rfl rfl rfl
    rw [inFlight_idle hidle]
    exact inFlight_resume
  | found hcall hpoint | missed hcall hpoint | unstored hcall hpoint =>
    apply hl.keep howner hkey (hflight rfl _) rfl rfl rfl
    rw [inFlight_eq hcall, hpoint]
    exact inFlight_resume
  | exhausted hcall hpoint | fetched hcall hpoint | assigned hcall hpoint =>
    apply hl.keep howner hkey (hflight rfl _) rfl rfl rfl
    rw [inFlight_eq hcall, hpoint]
    exact inFlight_answer _
  | @allocated t os call block old hcall hpoint hblock =>
    by_cases hb : b = m.process.nextBuffer
    · subst hb
      cases (Function.update_self _ _ _).symm.trans howner
      refine hl.balance_new hl.inv.slots.no_owner ?_ rfl rfl rfl
      rw [inFlight_resume]
      exact beq_self_eq_true _
    · have hold : m.owner b = some o := (Function.update_of_ne hb _ _).symm.trans howner
      apply hl.keep hold hkey (hflight rfl _) rfl rfl rfl
      rw [inFlight_eq hcall, hpoint, inFlight_resume]
      exact some_beq_of_ne hb
  | @stored t os call block b' hcall hpoint hblock =>
    obtain ⟨k, howner'⟩ := hl.inv.owner_of_unregistered (b := b') hcall (by rw [hpoint]; rfl)
    have hk : k = block.key := (hl.inv.slots.owner_iff howner' hblock).mp rfl
    have hempty := hl.inv.slot_empty (b := b') hcall (by rw [hpoint]; rfl) hblock
    by_cases hb : b = b'
    · subst hb
      cases howner.symm.trans howner'
      refine hl.balance_registered howner' hkey ?_ inFlight_resume ?_ rfl rfl
      · rw [inFlight_eq hcall, hpoint]
        exact beq_self_eq_true _
      · show ((m.process.store t block.key b).specific t k == some b) = true
        rw [TlsProcess.store_specific_apply, if_pos ⟨rfl, hk⟩]
        exact beq_self_eq_true _
    · apply hl.keep howner hkey (hflight rfl _) (inSlot_store hempty hb o.key) rfl rfl
      rw [inFlight_eq hcall, hpoint, inFlight_resume]
      exact (some_beq_of_ne hb).symm
  | @freed t os call b' hcall hpoint =>
    obtain ⟨k, howner'⟩ := hl.inv.owner_of_unregistered (b := b') hcall (by rw [hpoint]; rfl)
    by_cases hb : b = b'
    · subst hb
      cases howner.symm.trans howner'
      refine hl.balance_discarded howner' hkey ?_ (inFlight_answer _) rfl rfl rfl
      rw [inFlight_eq hcall, hpoint]
      exact beq_self_eq_true _
    · apply hl.keep howner hkey (hflight rfl _) rfl _ rfl
      · rw [inFlight_eq hcall, hpoint, inFlight_answer]
        exact (some_beq_of_ne hb).symm
      · show (m.discarded ++ [b']).count b = _
        rw [List.count_append, List.count_singleton, beq_eq_false_iff_ne.mpr (Ne.symm hb)]
        rfl
  | @exited t hidle =>
    exact hl.balance_exited howner hkey rfl (m.process.forget_specific t) rfl rfl
  | @destroyed h block hblock =>
    by_cases hk : o.key = block.key
    · rw [TlsProcess.release_keys, hk, Function.update_self] at hkey
      cases hkey
    · rw [TlsProcess.release_keys, Function.update_of_ne hk] at hkey
      exact hl.balance howner hkey

private theorem Ledger.step (hl : Ledger m) (hstep : TlsStep m a next) : Ledger next := by
  constructor
  case inv => exact hl.inv.step hstep
  case balance => exact fun howner hkey => hl.step_balance hstep howner hkey
  case discarded_owned =>
    intro b hb
    have howned : ∃ o, m.owner b = some o := by
      cases hstep with
      | @freed t os call b' hcall hpoint =>
        cases List.mem_append.mp hb with
        | inl hold => exact hl.discarded_owned hold
        | inr hnew =>
          obtain ⟨k, howner⟩ := hl.inv.owner_of_unregistered hcall (b := b') (by rw [hpoint]; rfl)
          rw [List.mem_singleton.mp hnew]
          exact ⟨_, howner⟩
      | _ => exact hl.discarded_owned hb
    obtain ⟨o, howner⟩ := howned
    exact ⟨o, hstep.owner_mono hl.inv howner⟩
  case released_owned =>
    intro e he
    have howned : ∃ o, m.owner e.2 = some o := by
      cases hstep with
      | exited =>
        cases List.mem_append.mp he with
        | inl hold => exact hl.released_owned hold
        | inr hnew =>
          obtain ⟨k, -, hvalue⟩ := mem_exitReleases hnew
          obtain ⟨h, howner⟩ := hl.inv.slots.stored hvalue
          exact ⟨_, howner⟩
      | _ => exact hl.released_owned he
    obtain ⟨o, howner⟩ := howned
    exact ⟨o, hstep.owner_mono hl.inv howner⟩

private theorem Ledger.start : Ledger TlsMachine.start where
  inv := SlotInv.start
  discarded_owned := nofun
  released_owned := nofun
  balance := nofun

private theorem Ledger.run {actions : List TlsAction} (hl : Ledger m)
    (hrun : run TlsMachine.step m actions = some next) : Ledger next :=
  run_invariant Ledger (fun _ _ _ hs hnext => hs.step (TlsMachine.steps hnext)) hl hrun

end Balance

/-- The handle and its key are gone, and no buffer of the handle has come or been released since
the first machine. -/
structure Retired (first m : TlsMachine) (h key : Nat) : Prop where
  handle_lt : h < m.process.nextHandle
  no_handle : m.process.handles h = none
  key_lt : key < m.process.nextKey
  no_key : m.process.keys key = none
  owner_iff : ∀ {b o}, o.handle = h → (m.owner b = some o ↔ first.owner b = some o)
  released : ∀ {b o} (d : Nat), first.owner b = some o → o.handle = h → o.key = key →
    m.released.count (d, b) = first.released.count (d, b)

section Retirement

variable {first m next : TlsMachine} {a : TlsAction} {h key : Nat}

private theorem OwnedSlots.count_exitReleases_deleted {p : TlsProcess}
    {owner : Nat → Option TlsOwner}
    {t b d : Nat} {o : TlsOwner} (hs : OwnedSlots p owner) (howner : owner b = some o)
    (hkey : p.keys o.key = none) : (p.exitReleases t).count (d, b) = 0 := by
  apply List.count_eq_zero.mpr
  intro hmem
  obtain ⟨k, hk, hvalue⟩ := mem_exitReleases hmem
  obtain ⟨h, howner'⟩ := hs.stored hvalue
  have hkeys : o.key = k := congrArg TlsOwner.key (Option.some.inj (howner.symm.trans howner'))
  rw [← hkeys, hkey] at hk
  cases hk

private theorem Retired.step (hr : Retired first m h key) (hi : SlotInv m)
    (hstep : TlsStep m a next) :
    Retired first next h key := by
  constructor
  case handle_lt => exact Nat.lt_of_lt_of_le hr.handle_lt hstep.nextHandle_mono
  case no_handle =>
    cases hblock : next.process.handles h with
    | none => rfl
    | some block =>
      have hold := hstep.handles_of hr.handle_lt hblock
      rw [hr.no_handle] at hold
      cases hold
  case key_lt =>
    cases hstep with
    | created => exact Nat.lt_succ_of_lt hr.key_lt
    | _ => exact hr.key_lt
  case no_key =>
    cases hstep with
    | created =>
      rw [TlsProcess.install_keys, Function.update_of_ne (Nat.ne_of_lt hr.key_lt)]
      exact hr.no_key
    | @destroyed h' block hblock =>
      rw [TlsProcess.release_keys, Function.update_apply, hr.no_key, ite_self]
    | _ => exact hr.no_key
  case owner_iff =>
    intro b o hh
    rw [← hr.owner_iff hh]
    constructor
    · intro howner
      cases hstep with
      | @allocated t os call block old hcall hpoint hblock =>
        by_cases hb : b = m.process.nextBuffer
        · -- the handle of a new buffer is live
          subst hb
          cases (Function.update_self _ _ _).symm.trans howner
          change call.handle = h at hh
          rw [hh, hr.no_handle] at hblock
          cases hblock
        · exact (Function.update_of_ne hb _ _).symm.trans howner
      | _ => exact howner
    · exact hstep.owner_mono hi
  case released =>
    intro b o d howner hh hkey
    rw [← hr.released d howner hh hkey]
    have hnow := (hr.owner_iff hh).mpr howner
    cases hstep with
    | exited =>
      show (m.released ++ _).count (d, b) = _
      rw [List.count_append, hi.slots.count_exitReleases_deleted hnow (by rw [hkey, hr.no_key])]
      rfl
    | _ => rfl

private theorem Retired.run (hr : Retired first m h key) (hi : SlotInv m) {actions : List TlsAction}
    (hrun : run TlsMachine.step m actions = some next) : Retired first next h key := by
  have hstep : ∀ s a s', SlotInv s ∧ Retired first s h key → TlsMachine.step s a = some s' →
      SlotInv s' ∧ Retired first s' h key := by
    intro s a s' hs hnext
    have hsteps := TlsMachine.steps hnext
    exact ⟨hs.1.step hsteps, hs.2.step hs.1 hsteps⟩
  exact (run_invariant _ hstep ⟨hi, hr⟩ hrun).2

private theorem SlotInv.retired {s : TlsMachine} (hi : SlotInv s) {block : ThreadLocalStorageHandle}
    (hblock : s.process.handles h = some block) :
    Retired s { s with process := s.process.release h block } h block.key := by
  constructor
  case handle_lt => exact hi.slots.handle_lt hblock
  case no_handle => rw [TlsProcess.release_handles, Function.update_self]
  case key_lt => exact hi.slots.key_lt hblock
  case no_key => rw [TlsProcess.release_keys, Function.update_self]
  case owner_iff => exact fun _ => Iff.rfl
  case released => exact fun _ _ _ _ => rfl

end Retirement

/-- Every buffer that was allocated for the handle has been passed to the destructor once. -/
def ReleasedOnce (m : TlsMachine) (h destructor : Nat) : Prop :=
  ∀ b o, m.owner b = some o → o.handle = h → m.released.count (destructor, b) = 1

/-- No thread has a value under the key. -/
def Unused (m : TlsMachine) (key : Nat) : Prop :=
  ∀ t, m.process.specific t key = none

/-- No buffer was freed because `pthread_setspecific` failed on the handle. -/
def NeverRefused (m : TlsMachine) (h : Nat) : Prop :=
  ∀ b ∈ m.discarded, ∀ o, m.owner b = some o → o.handle ≠ h

/-- With no call inside the handle, a buffer has been released unless it is in a slot or was
discarded. -/
private theorem Ledger.releasedOnce_iff {s : TlsMachine} {h d : Nat}
    {block : ThreadLocalStorageHandle} (hl : Ledger s) (hblock : s.process.handles h = some block)
    (hkey : s.process.keys block.key = some (some d))
    (hquiet : ∀ t call, s.activity t = some call → call.handle ≠ h) :
    ReleasedOnce s h d ↔ Unused s block.key ∧ NeverRefused s h := by
  have hbalance {b : Nat} {o : TlsOwner} (howner : s.owner b = some o) (hh : o.handle = h) :
      (s.inSlot o.thread block.key b).toNat + s.discarded.count b +
        s.released.count (d, b) = 1 := by
    have hkeys : o.key = block.key := (hl.inv.slots.owner_iff howner hblock).mp hh
    have hplaces := hl.balance howner (by rw [hkeys]; exact hkey)
    have hflight : s.inFlight o.thread b = false := by
      cases hcall : s.activity o.thread with
      | none => exact inFlight_idle hcall
      | some call =>
        rw [inFlight_eq hcall, beq_eq_false_iff_ne]
        intro hb
        obtain ⟨k, howner'⟩ := hl.inv.owner_of_unregistered hcall hb
        have hsame := congrArg TlsOwner.handle (Option.some.inj (howner'.symm.trans howner))
        exact hquiet _ call hcall (hsame.trans hh)
    rw [TlsMachine.places, hflight, hkeys, Bool.toNat_false, Nat.zero_add] at hplaces
    exact hplaces
  constructor
  · intro honce
    constructor
    · intro t
      cases hvalue : s.process.specific t block.key with
      | none => rfl
      | some b =>
        have howner := hl.inv.slots.owner_of_slot hblock hvalue
        have hreleased := honce b _ howner rfl
        have hsum := hbalance howner rfl
        rw [TlsMachine.inSlot, hvalue, beq_self_eq_true, Bool.toNat_true] at hsum
        omega
    · intro b hb o howner hh
      have hreleased := honce b o howner hh
      have hsum := hbalance howner hh
      have hdiscarded := List.count_pos_iff.mpr hb
      omega
  · intro hclean b o howner hh
    have hsum := hbalance howner hh
    have hdiscarded : s.discarded.count b = 0 :=
      List.count_eq_zero.mpr fun hb => hclean.2 b hb o howner hh
    rw [TlsMachine.inSlot, hclean.1 o.thread, hdiscarded] at hsum
    simpa using hsum

/-- When a handle with a destructor is destroyed while no call is inside it, then whatever follows,
each of its buffers is passed to the destructor exactly once if and only if no thread still has a
value under its key and none of its buffers could not be registered. -/
theorem destroy_releases_iff (before after : List TlsAction) (s final : TlsMachine) (h d : Nat)
    (block : ThreadLocalStorageHandle) (hbefore : run TlsMachine.step .start before = some s)
    (hblock : s.process.handles h = some block)
    (hkey : s.process.keys block.key = some (some d))
    (hquiet : ∀ t call, s.activity t = some call → call.handle ≠ h)
    (hafter : run TlsMachine.step s (.destroy (some h) :: after) = some final) :
    ReleasedOnce final h d ↔ Unused s block.key ∧ NeverRefused s h := by
  have hl := Ledger.start.run hbefore
  rw [← hl.releasedOnce_iff hblock hkey hquiet]
  obtain ⟨gone, hdestroy, hrest⟩ := run_cons_eq_some.mp hafter
  have hgone : gone = { s with process := s.process.release h block } := by
    simp [TlsMachine.step, libdPlatformThreadLocalStorageDestroy, TlsProcess.deref, hblock, bind,
      Except.bind] at hdestroy
    exact hdestroy.symm
  subst hgone
  have hr := (hl.inv.retired hblock).run (hl.inv.step (TlsMachine.steps hdestroy)) hrest
  constructor
  · intro honce b o howner hh
    have hk := (hl.inv.slots.owner_iff howner hblock).mp hh
    rw [← hr.released d howner hh hk]
    exact honce b o ((hr.owner_iff hh).mpr howner) hh
  · intro honce b o hfinal hh
    have howner := (hr.owner_iff hh).mp hfinal
    have hk := (hl.inv.slots.owner_iff howner hblock).mp hh
    rw [hr.released d howner hh hk]
    exact honce b o howner hh

/-- A handle with a destructor, and a get on it that comes to its end. -/
def createAndGet (thread : Nat) : List TlsAction :=
  [.create generousTlsOs (some 7) 8, .get thread (some 0)] ++
    List.replicate 4 (.advance thread generousTlsOs)

/-- The only thread that used the handle exits before the destruction. -/
theorem destroy_releases_iff_exited :
    ∃ s final, run TlsMachine.step .start (createAndGet 1 ++ [.exit 1]) = some s ∧
      run TlsMachine.step s [.destroy (some 0), .exit 0] = some final ∧
      (ReleasedOnce final 0 7 ↔ Unused s 0 ∧ NeverRefused s 0) := by
  refine ⟨_, _, rfl, rfl, destroy_releases_iff (createAndGet 1 ++ [.exit 1]) [.exit 0] _ _ 0 7
    { key := 0, dataSize := 8 } rfl rfl rfl ?_ rfl⟩
  intro t call hcall
  by_cases ht : t = 1
  · subst ht
    cases hcall
  · have hother := @activity_of_run .start _ (createAndGet 1 ++ [.exit 1]) t rfl
      (by simp [createAndGet, TlsAction.thread, Ne.symm ht])
    rw [hother] at hcall
    cases hcall

/-- A thread that used the handle exits after the destruction, and its buffer is never released. -/
theorem destroy_loses_buffer :
    ∃ s final, run TlsMachine.step .start (createAndGet 0) = some s ∧
      s.process.keys 0 = some (some 7) ∧
      run TlsMachine.step s [.destroy (some 0), .exit 0] = some final ∧
      ¬ReleasedOnce final 0 7 := by
  refine ⟨_, _, rfl, rfl, rfl, ?_⟩
  intro honce
  exact absurd (honce 0 { thread := 0, handle := 0, key := 0 } rfl rfl) nofun

end Libdane
