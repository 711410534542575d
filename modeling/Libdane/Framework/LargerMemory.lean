import Libdane.Framework.LoopStates

/-!
# Programs in a larger memory

A program that returns in a memory returns as well in every memory that extends it, and makes of the
larger memory what it makes of the smaller one. The rules are those of a forward simulation: one for
returning, one for sequencing, one for loops, one for each access.
-/

namespace ByteMachine

open Exec

variable {ρ ρ' τ τ' σ σ' : Type}

/-- Whenever the first program returns, so does the second one, with a related answer. -/
def Follows (R : ρ → ρ' → Prop) (e : Exec ρ) (e' : Exec ρ') : Prop :=
  ∀ r, e = ret r → ∃ r', e' = ret r' ∧ R r r'

namespace Follows

theorem ret {R : ρ → ρ' → Prop} {r : ρ} {r' : ρ'} (h : R r r') :
    Follows R (Exec.ret r) (Exec.ret r') := by
  intro answer hanswer
  cases hanswer
  exact ⟨r', rfl, h⟩

theorem same (e : Exec ρ) : Follows Eq e e := fun r hr => ⟨r, hr, rfl⟩

theorem bind {R : ρ → ρ' → Prop} {T : τ → τ' → Prop} {e : Exec ρ} {e' : Exec ρ'} {next : ρ → Exec τ}
    {next' : ρ' → Exec τ'} (h : Follows R e e') (hnext : ∀ r r', R r r' → Follows T (next r) (next' r')) :
    Follows T (e >>= next) (e' >>= next') := by
  intro t ht
  obtain ⟨r, hr, hrest⟩ := eq_ret_of_bind ht
  obtain ⟨r', hr', hrelated⟩ := h r hr
  rw [hr', ret_bind]
  exact hnext r r' hrelated t hrest

theorem bind_same {T : τ → τ' → Prop} (e : Exec ρ) {next : ρ → Exec τ} {next' : ρ → Exec τ'}
    (hnext : ∀ r, Follows T (next r) (next' r)) : Follows T (e >>= next) (e >>= next') := by
  apply (same e).bind
  intro r r' hr
  rw [← hr]
  exact hnext r

theorem loop {S : σ → σ' → Prop} {R : ρ → ρ' → Prop} {body : σ → Exec (σ ⊕ ρ)}
    {body' : σ' → Exec (σ' ⊕ ρ')}
    (hbody : ∀ s s', S s s' → Follows (Sum.LiftRel S R) (body s) (body' s')) (fuel : Nat) {s : σ}
    {s' : σ'} (hs : S s s') :
    Follows R (ByteMachine.loop body fuel s) (ByteMachine.loop body' fuel s') := by
  induction fuel generalizing s s' with
  | zero =>
    intro r hr
    cases hr
  | succ fuel ih =>
    apply (hbody s s' hs).bind
    intro answer answer' hrelated
    cases hrelated with
    | inl hnext => exact ih hnext
    | inr hdone => exact ret hdone

end Follows

theorem loop_eq_or {P : ρ → Prop} {body body' : σ → Exec (σ ⊕ ρ)}
    (h : ∀ s, body s = body' s ∨ ∃ r, body s = ret (.inr r) ∧ P r) (fuel : Nat) (s : σ) :
    loop body fuel s = loop body' fuel s ∨ ∃ r, loop body fuel s = ret r ∧ P r := by
  induction fuel generalizing s with
  | zero => exact Or.inl rfl
  | succ fuel ih =>
    cases h s with
    | inl hsame =>
      cases hs : body s with
      | ret answer =>
        rw [hs] at hsame
        cases answer with
        | inl next =>
          rw [loop_next fuel hs, loop_next fuel hsame.symm]
          exact ih next
        | inr r =>
          rw [loop_done fuel hs, loop_done fuel hsame.symm]
          exact Or.inl rfl
      | fault =>
        rw [hs] at hsame
        rw [loop_fault fuel hs, loop_fault fuel hsame.symm]
        exact Or.inl rfl
      | outOfFuel =>
        rw [hs] at hsame
        rw [loop_outOfFuel fuel hs, loop_outOfFuel fuel hsame.symm]
        exact Or.inl rfl
    | inr hleaves =>
      obtain ⟨r, hr, hP⟩ := hleaves
      exact Or.inr ⟨r, loop_done fuel hr, hP⟩

namespace Mem

/-- The larger memory holds every byte of the smaller one. -/
def Extends (small large : Mem) : Prop := ∀ x b, small x = some b → large x = some b

variable {small large : Mem} {address : Nat}

theorem Extends.loadBefore (h : small.Extends large) (address : Nat) :
    Follows Eq (small.loadBefore address) (large.loadBefore address) := by
  intro b hb
  obtain ⟨previous, hprevious, hbyte⟩ := loadBefore_eq_ret.mp hb
  exact ⟨b, loadBefore_eq_ret.mpr ⟨previous, hprevious, h previous b hbyte⟩, rfl⟩

theorem Extends.store (h : small.Extends large) (address : Nat) (byte : UInt8) :
    Follows Extends (small.store address byte) (large.store address byte) := by
  intro after hafter
  cases hold : small address with
  | none =>
    rw [store_eq_fault hold] at hafter
    cases hafter
  | some old =>
    rw [store_eq_ret (by rw [hold]; rfl)] at hafter
    cases hafter
    refine ⟨_, store_eq_ret (by rw [h address old hold]; rfl), ?_⟩
    intro x b hb
    by_cases hx : x = address
    · rw [hx, Function.update_self] at hb ⊢
      exact hb
    · rw [Function.update_of_ne hx] at hb ⊢
      exact h x b hb

theorem Extends.copy (h : small.Extends large) (target : Nat) (src : Mem) (start n : Nat) :
    Follows Extends (small.copy target src start n) (large.copy target src start n) := by
  induction n generalizing small large target start with
  | zero => exact Follows.ret h
  | succ n ih =>
    apply Follows.bind_same
    intro byte
    apply (h.store target byte).bind
    intro after after' hafter
    exact ih hafter (target + 1) (start + 1)

end Mem

end ByteMachine
