import Libdane.Framework.ByteMachine
import Mathlib.Logic.Relation

/-!
# The states of a loop

More fuel does not change the answer of a program. The states in front of which a loop can stand,
on any amount of fuel, decide whether some run of it faults and whether it comes to an end.
-/

namespace ByteMachine

open Exec

variable {σ ρ τ : Type}

/-- A program that has not run out of fuel does the same with more fuel. -/
def Settled (program : Nat → Exec ρ) : Prop :=
  ∀ fuel fuel', fuel ≤ fuel' → program fuel ≠ outOfFuel → program fuel' = program fuel

theorem settled_const (e : Exec ρ) : Settled fun _ => e := fun _ _ _ _ => rfl

theorem Settled.converges {program : Nat → Exec ρ} (h : Settled program) {fuel : Nat} {r : ρ}
    (hrun : program fuel = ret r) : Converges program r := by
  refine ⟨fuel, ?_⟩
  intro fuel' hle
  have hne : program fuel ≠ outOfFuel := by simp [hrun]
  exact (h fuel fuel' hle hne).trans hrun

theorem Settled.bind {program : Nat → Exec ρ} {next : ρ → Nat → Exec τ} (h : Settled program)
    (hnext : ∀ r, Settled (next r)) :
    Settled fun fuel => program fuel >>= fun r => next r fuel := by
  intro fuel fuel' hle hne
  have hfirst : program fuel ≠ outOfFuel := by
    intro hout
    apply hne
    simp only [hout]
    rfl
  have hsame := h fuel fuel' hle hfirst
  cases hprogram : program fuel with
  | ret r =>
    simp only [hprogram, ret_bind] at hne hsame ⊢
    rw [hsame, ret_bind]
    exact hnext r fuel fuel' hle hne
  | fault =>
    rw [hprogram] at hsame
    simp only [hsame, hprogram, fault_bind]
  | outOfFuel => exact absurd hprogram hfirst

theorem loop_outOfFuel {body : σ → Exec (σ ⊕ ρ)} {s : σ} (fuel : Nat) (h : body s = outOfFuel) :
    loop body (fuel + 1) s = outOfFuel := by
  rw [loop, h]
  rfl

variable {body : Nat → σ → Exec (σ ⊕ ρ)}

theorem loop_settled (hbody : ∀ s, Settled fun fuel => body fuel s)
    {fuel fuel' rounds rounds' : Nat} (hfuel : fuel ≤ fuel') (hrounds : rounds ≤ rounds') {s : σ}
    (hne : loop (body fuel) rounds s ≠ outOfFuel) :
    loop (body fuel') rounds' s = loop (body fuel) rounds s := by
  induction rounds generalizing rounds' s with
  | zero => exact absurd rfl hne
  | succ rounds ih =>
    cases rounds' with
    | zero => omega
    | succ rounds' =>
      have hfirst : body fuel s ≠ outOfFuel := fun hout => hne (loop_outOfFuel rounds hout)
      have hsame : body fuel' s = body fuel s := hbody s fuel fuel' hfuel hfirst
      cases hs : body fuel s with
      | ret answer =>
        rw [hs] at hsame
        cases answer with
        | inl next =>
          rw [loop_next rounds hs] at hne ⊢
          rw [loop_next rounds' hsame]
          exact ih (by omega) hne
        | inr r => rw [loop_done rounds hs, loop_done rounds' hsame]
      | fault =>
        rw [hs] at hsame
        rw [loop_fault rounds hs, loop_fault rounds' hsame]
      | outOfFuel => exact absurd hs hfirst

theorem Settled.loop (hbody : ∀ s, Settled fun fuel => body fuel s) (s : σ) :
    Settled fun fuel => loop (body fuel) fuel s :=
  fun _ _ hle hne => loop_settled hbody hle hle hne

/-- A round that goes on, on some amount of fuel. -/
def Goes (body : Nat → σ → Exec (σ ⊕ ρ)) (s next : σ) : Prop :=
  ∃ fuel, body fuel s = ret (.inl next)

/-- The states that a loop passes through. -/
def Visits (body : Nat → σ → Exec (σ ⊕ ρ)) : σ → σ → Prop := Relation.ReflTransGen (Goes body)

theorem Goes.converges (hbody : ∀ s, Settled fun fuel => body fuel s) {s next : σ}
    (h : Goes body s next) : Converges (fun fuel => body fuel s) (.inl next) := by
  obtain ⟨enough, hgoes⟩ := h
  exact (hbody s).converges hgoes

theorem Visits.run (hbody : ∀ s, Settled fun fuel => body fuel s) {s t : σ} (h : Visits body s t) :
    ∃ n enough, ∀ fuel, enough ≤ fuel → ∀ rounds,
      loop (body fuel) (rounds + n) s = loop (body fuel) rounds t := by
  induction h using Relation.ReflTransGen.head_induction_on with
  | refl => exact ⟨0, 0, fun _ _ _ => rfl⟩
  | head hgoes _ ih =>
    obtain ⟨enough, hfirst⟩ := hgoes.converges hbody
    obtain ⟨n, enough', hrest⟩ := ih
    refine ⟨n + 1, max enough enough', ?_⟩
    intro fuel hfuel rounds
    rw [← Nat.add_assoc, loop_next _ (hfirst fuel ((le_max_left _ _).trans hfuel))]
    exact hrest fuel ((le_max_right _ _).trans hfuel) rounds

theorem loop_exit (body : Nat → σ → Exec (σ ⊕ ρ)) (fuel : Nat) {rounds : Nat} {s : σ} {r : ρ}
    (h : loop (body fuel) rounds s = ret r) :
    ∃ t, Visits body s t ∧ body fuel t = ret (.inr r) := by
  induction rounds generalizing s with
  | zero => cases h
  | succ rounds ih =>
    cases hs : body fuel s with
    | ret answer =>
      cases answer with
      | inl next =>
        rw [loop_next rounds hs] at h
        obtain ⟨t, hvisits, hexit⟩ := ih h
        exact ⟨t, Relation.ReflTransGen.head ⟨fuel, hs⟩ hvisits, hexit⟩
      | inr r' =>
        rw [loop_done rounds hs] at h
        cases h
        exact ⟨s, .refl, hs⟩
    | fault =>
      rw [loop_fault rounds hs] at h
      cases h
    | outOfFuel =>
      rw [loop_outOfFuel rounds hs] at h
      cases h

theorem loop_ne_fault (body : Nat → σ → Exec (σ ⊕ ρ)) {s : σ}
    (h : ∀ t, Visits body s t → ∀ fuel, body fuel t ≠ fault) (fuel rounds : Nat) :
    loop (body fuel) rounds s ≠ fault := by
  induction rounds generalizing s with
  | zero => simp [loop]
  | succ rounds ih =>
    cases hs : body fuel s with
    | ret answer =>
      cases answer with
      | inl next =>
        rw [loop_next rounds hs]
        exact ih fun t ht => h t (Relation.ReflTransGen.head ⟨fuel, hs⟩ ht)
      | inr r =>
        rw [loop_done rounds hs]
        simp
    | fault => exact absurd hs (h s .refl fuel)
    | outOfFuel =>
      rw [loop_outOfFuel rounds hs]
      simp

theorem loop_ne_fault_iff (body : Nat → σ → Exec (σ ⊕ ρ))
    (hbody : ∀ s, Settled fun fuel => body fuel s) (s : σ) :
    (∀ fuel, loop (body fuel) fuel s ≠ fault) ↔
      ∀ t, Visits body s t → ∀ fuel, body fuel t ≠ fault := by
  constructor
  · intro h t ht fuel hfault
    obtain ⟨n, enough, hrun⟩ := ht.run hbody
    have hlarge : enough ≤ fuel + enough + 1 + n := by omega
    apply h (fuel + enough + 1 + n)
    rw [hrun _ hlarge]
    apply loop_fault
    have hne : body fuel t ≠ outOfFuel := by simp [hfault]
    exact (hbody t fuel _ (by omega) hne).trans hfault
  · intro h fuel
    exact loop_ne_fault body h fuel fuel

theorem loop_congr (body body' : Nat → σ → Exec (σ ⊕ ρ)) {s : σ}
    (h : ∀ t, Visits body s t → ∀ fuel, body' fuel t = body fuel t) (fuel rounds : Nat) :
    loop (body' fuel) rounds s = loop (body fuel) rounds s := by
  induction rounds generalizing s with
  | zero => rfl
  | succ rounds ih =>
    have hsame := h s .refl fuel
    cases hs : body fuel s with
    | ret answer =>
      rw [hs] at hsame
      cases answer with
      | inl next =>
        rw [loop_next rounds hs, loop_next rounds hsame]
        exact ih fun t ht => h t (Relation.ReflTransGen.head ⟨fuel, hs⟩ ht)
      | inr r => rw [loop_done rounds hs, loop_done rounds hsame]
    | fault =>
      rw [hs] at hsame
      rw [loop_fault rounds hs, loop_fault rounds hsame]
    | outOfFuel =>
      rw [hs] at hsame
      rw [loop_outOfFuel rounds hs, loop_outOfFuel rounds hsame]

theorem loop_ends (body : Nat → σ → Exec (σ ⊕ ρ)) (measure : σ → Nat) {fuel : Nat} {s : σ}
    (hfuel : ∀ t, Visits body s t → body fuel t ≠ outOfFuel)
    (hstep : ∀ t next, Visits body s t → Goes body t next → measure next < measure t) {rounds : Nat}
    (hrounds : measure s < rounds) : loop (body fuel) rounds s ≠ outOfFuel := by
  induction rounds generalizing s with
  | zero => omega
  | succ rounds ih =>
    cases hs : body fuel s with
    | ret answer =>
      cases answer with
      | inl next =>
        have hgoes : Goes body s next := ⟨fuel, hs⟩
        have hlt := hstep s next .refl hgoes
        rw [loop_next rounds hs]
        apply ih
        · exact fun t ht => hfuel t (Relation.ReflTransGen.head hgoes ht)
        · exact fun t next' ht => hstep t next' (Relation.ReflTransGen.head hgoes ht)
        · omega
      | inr r =>
        rw [loop_done rounds hs]
        simp
    | fault =>
      rw [loop_fault rounds hs]
      simp
    | outOfFuel => exact absurd hs (hfuel s .refl)

end ByteMachine
