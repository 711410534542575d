import Libdane.Framework.StackWords

/-!
# Words on a stack that may run empty

A pop on the empty stack leaves it empty. On words that run nothing changes, and leaving out some
labels with their pops leaves the rest of the stack as it is, as long as no other label is removed in
their place.
-/

namespace StackWords

open StackOp

variable {α : Type}

/-- The stack after a word when a pop of the empty stack does nothing. -/
def settle : List (StackOp α) → List α → List α
  | [], stack => stack
  | push a :: ops, stack => settle ops (a :: stack)
  | pop :: ops, stack => settle ops stack.tail

@[simp] theorem settle_nil (stack : List α) : settle [] stack = stack := by simp [settle]

@[simp] theorem settle_push (a : α) (ops : List (StackOp α)) (stack : List α) :
    settle (push a :: ops) stack = settle ops (a :: stack) := by simp [settle]

@[simp] theorem settle_pop (ops : List (StackOp α)) (stack : List α) :
    settle (pop :: ops) stack = settle ops stack.tail := by simp [settle]

theorem settle_append (first second : List (StackOp α)) (stack : List α) :
    settle (first ++ second) stack = settle second (settle first stack) := by
  induction first generalizing stack with
  | nil => simp
  | cons op first ih => cases op <;> simp [ih]

theorem exists_run_eq (ops : List (StackOp α)) :
    ∃ taken added, ∀ stack,
      run ops stack = (if taken ≤ stack.length then some (added ++ stack.drop taken) else none) ∧
        settle ops stack = added ++ stack.drop taken := by
  induction ops with
  | nil => exact ⟨0, [], by simp⟩
  | cons op ops ih =>
    rcases ih with ⟨taken, added, ih⟩
    cases op with
    | push a =>
      cases taken with
      | zero => exact ⟨0, added ++ [a], by simp [ih]⟩
      | succ taken => exact ⟨taken, added, by simp [ih]⟩
    | pop =>
      exists taken + 1, added
      intro stack
      cases stack with
      | nil => simp [ih]
      | cons a stack => simp [ih]

theorem settle_of_run {ops : List (StackOp α)} {stack final : List α}
    (h : run ops stack = some final) : settle ops stack = final := by
  rcases exists_run_eq ops with ⟨taken, added, heq⟩
  rw [(heq stack).1] at h
  rw [(heq stack).2]
  split_ifs at h
  exact Option.some.inj h

theorem length_settle_cons {ops : List (StackOp α)} (h : run ops [] = none) (a : α)
    (stack : List α) : (settle ops (a :: stack)).length ≤ (settle ops []).length + stack.length := by
  rcases exists_run_eq ops with ⟨taken, added, heq⟩
  have hstuck := (heq []).1
  rw [h] at hstuck
  have htaken : taken ≠ 0 := by
    rintro rfl
    simp at hstuck
  rw [(heq _).2, (heq _).2]
  simp only [List.length_append, List.length_drop, List.length_cons, List.length_nil]
  omega

/-- A word does the same on a stack and on the stack without some labels only if there are none of
them, or if it gets stuck on both. -/
theorem run_filter_iff (P : α → Bool) (ops : List (StackOp α)) (stack : List α) :
    run ops (stack.filter P) = run ops stack ↔ (∀ a ∈ stack, P a) ∨ run ops stack = none := by
  rcases exists_run_eq ops with ⟨taken, added, heq⟩
  have hle : (stack.filter P).length ≤ stack.length := List.length_filter_le P stack
  rw [(heq _).1, (heq _).1]
  by_cases hfits : taken ≤ stack.length
  · rw [if_pos hfits, ← List.length_filter_eq_length_iff]
    by_cases hkept : taken ≤ (stack.filter P).length
    · rw [if_pos hkept, Option.some.injEq, List.append_cancel_left_eq]
      constructor
      · intro h
        have hlen := congrArg List.length h
        rw [List.length_drop, List.length_drop] at hlen
        exact Or.inl (by omega)
      · intro h
        rcases h with h | h
        · rw [List.filter_eq_self.mpr (List.length_filter_eq_length_iff.mp h)]
        · cases h
    · have hfewer : (stack.filter P).length ≠ stack.length := by omega
      simp [if_neg hkept, hfewer]
  · have hnone : ¬taken ≤ (stack.filter P).length := by omega
    simp [hfits, hnone]

/-- Without some labels, and with pops of the empty stack doing nothing, a word leaves at most the
other labels that it leaves with them. -/
theorem settle_without_sublist (P : α → Bool) {ops : List (StackOp α)} {stack final left : List α}
    (h : run ops stack = some final) (hleft : left.Sublist (stack.filter fun a => !P a)) :
    (settle (without P ops) left).Sublist (final.filter fun a => !P a) := by
  induction ops generalizing stack left with
  | nil =>
    rw [run_nil, Option.some.injEq] at h
    rw [without, settle_nil, ← h]
    exact hleft
  | cons op ops ih =>
    cases op with
    | push a =>
      rw [run_push] at h
      by_cases ha : P a
      · simp only [without, ha, if_true]
        apply ih h
        simpa [ha] using hleft
      · simp only [without, ha, Bool.false_eq_true, if_false, settle_push]
        apply ih h
        simpa [ha] using hleft
    | pop =>
      cases stack with
      | nil => simp at h
      | cons a stack =>
        rw [run_pop_cons] at h
        rw [without, settle_pop]
        apply ih h
        by_cases ha : P a
        · apply (List.tail_sublist left).trans
          simpa [ha] using hleft
        · have htail := hleft.tail
          simpa [ha] using htail

/-- A label of the other ones that a word leaves is left without `P` as well. -/
def StayWithout (P : α → Bool) (ops : List (StackOp α)) : Prop :=
  ∀ before a after, ops = before ++ push a :: after → P a = false → (run after []).isSome →
    (run (without P after) []).isSome

theorem StayWithout.of_append {P : α → Bool} {first second : List (StackOp α)}
    (h : StayWithout P (first ++ second)) (hsecond : (run second []).isSome) :
    StayWithout P first := by
  intro before a after hfirst ha hafter
  obtain ⟨above, habove⟩ := Option.isSome_iff_exists.mp hafter
  obtain ⟨top, htop⟩ := Option.isSome_iff_exists.mp hsecond
  have hrun : (run (after ++ second) []).isSome := by
    have hframe := run_frame htop above
    rw [List.nil_append] at hframe
    rw [run_append, habove, Option.bind_some, hframe]
    rfl
  have hboth := h before a (after ++ second) (by rw [hfirst]; simp) ha hrun
  rw [without_append, run_append] at hboth
  exact Option.isSome_of_isSome_bind hboth

/-- With pops of the empty stack doing nothing, leaving out the labels with `P` only takes them out
of the final stack exactly if the other ones stay. -/
theorem settle_without_iff (P : α → Bool) {ops : List (StackOp α)} {final : List α}
    (h : run ops [] = some final) :
    settle (without P ops) [] = final.filter (fun a => !P a) ↔ StayWithout P ops := by
  constructor
  · intro hsettle before a after hops ha hafter
    by_contra hstuck
    rw [Option.not_isSome_iff_eq_none] at hstuck
    obtain ⟨above, habove⟩ := Option.isSome_iff_exists.mp hafter
    rw [hops, run_append] at h
    obtain ⟨below, hbelow, hrest⟩ := Option.bind_eq_some_iff.mp h
    have hframe := run_frame habove (a :: below)
    rw [List.nil_append] at hframe
    rw [run_push, hframe, Option.some.injEq] at hrest
    -- the label `a` is gone, and what is left is too short
    have hfront := settle_without_sublist P hbelow (List.nil_sublist _)
    have hback := settle_without_sublist P habove (List.nil_sublist _)
    have hlost := length_settle_cons hstuck a (settle (without P before) [])
    have hlen := congrArg List.length hsettle
    simp only [hops, without_append, without, ha, Bool.false_eq_true, if_false, settle_append,
      settle_push] at hlen
    rw [← hrest, List.filter_append, List.length_append, List.filter_cons_of_pos (by simp [ha]),
      List.length_cons] at hlen
    have hfrontLen := hfront.length_le
    have hbackLen := hback.length_le
    omega
  · intro hstay
    generalize hkept : final.filter (fun a => !P a) = kept
    induction kept generalizing ops final with
    | nil =>
      have hsub := settle_without_sublist P h (List.nil_sublist _)
      rw [hkept] at hsub
      exact List.sublist_nil.mp hsub
    | cons a kept ih =>
      obtain ⟨above, below, rfl, habove, ha, hbelow⟩ := List.filter_eq_cons_iff.mp hkept
      have hfalse : P a = false := by simpa using ha
      obtain ⟨before, after, rfl, hafter⟩ := run_origin h
      have hback : (run (push a :: after) []).isSome := by
        have hframe := run_frame hafter [a]
        rw [List.nil_append] at hframe
        rw [run_push, hframe]
        rfl
      rw [run_append] at h
      obtain ⟨below', hrunBefore, hrest⟩ := Option.bind_eq_some_iff.mp h
      have hframe := run_frame hafter (a :: below')
      rw [List.nil_append] at hframe
      rw [run_push, hframe, Option.some.injEq, List.append_cancel_left_eq, List.cons.injEq] at hrest
      obtain rfl := hrest.2
      -- behind `a` the word leaves nothing without the labels with `P`
      have hsome := hstay before a after rfl hfalse (by rw [hafter]; rfl)
      obtain ⟨top, htop⟩ := Option.isSome_iff_exists.mp hsome
      have hnone : above.filter (fun a => !P a) = [] := List.filter_eq_nil_iff.mpr habove
      have hsub := settle_without_sublist P hafter (List.nil_sublist _)
      rw [hnone, settle_of_run htop] at hsub
      obtain rfl := List.sublist_nil.mp hsub
      have hbalanced : Balanced (without P after) := htop
      simp only [without_append, without, hfalse, Bool.false_eq_true, if_false, settle_append,
        settle_push]
      rw [ih hrunBefore (hstay.of_append hback) hbelow]
      exact settle_of_run (hbalanced.run (a :: kept))

theorem StayWithout.of_not_cancels {P : α → Bool} {ops : List (StackOp α)} {final : List α}
    (h : run ops [] = some final) (hkeep : ¬Cancels (fun a => P a = true) ops) :
    StayWithout P ops :=
  (settle_without_iff P h).mp (settle_of_run ((run_without_iff P h).mpr hkeep))

/-- The labels that a word pushes, in order. -/
def labels : List (StackOp α) → List α
  | [] => []
  | push a :: ops => a :: labels ops
  | pop :: ops => labels ops

theorem labels_append (first second : List (StackOp α)) :
    labels (first ++ second) = labels first ++ labels second := by
  induction first with
  | nil => rfl
  | cons op first ih => cases op <;> simp [labels, ih]

theorem labels_without (P : α → Bool) (ops : List (StackOp α)) :
    labels (without P ops) = (labels ops).filter fun a => !P a := by
  induction ops with
  | nil => rfl
  | cons op ops ih =>
    cases op with
    | push a => by_cases ha : P a <;> simp [without, labels, ha, ih]
    | pop => simpa [without, labels] using ih

theorem run_sublist {ops : List (StackOp α)} {stack final : List α}
    (h : run ops stack = some final) :
    final.reverse.Sublist (stack.reverse ++ labels ops) := by
  induction ops generalizing stack with
  | nil =>
    rw [run_nil, Option.some.injEq] at h
    simp [labels, h]
  | cons op ops ih =>
    cases op with
    | push a =>
      rw [run_push] at h
      simpa [labels] using ih h
    | pop =>
      cases stack with
      | nil => simp at h
      | cons a stack =>
        rw [run_pop_cons] at h
        apply (ih h).trans
        simp [labels]

end StackWords
