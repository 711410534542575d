/-!
# Runs of a partial step function

A client drives a system by actions, and a step is `none` when the client may not take that
action in that state. A run performs its actions in order and is `none` as soon as one step is.
-/

namespace PartialRuns

variable {σ α : Type _}

def run (step : σ → α → Option σ) (s : σ) (actions : List α) : Option σ := actions.foldlM step s

@[simp] theorem run_nil (step : σ → α → Option σ) (s : σ) : run step s [] = some s := rfl

@[simp] theorem run_cons (step : σ → α → Option σ) (s : σ) (a : α) (actions : List α) :
    run step s (a :: actions) = (step s a).bind fun next => run step next actions := by
  rw [run, List.foldlM_cons]
  rfl

theorem run_cons_eq_some {step : σ → α → Option σ} {s final : σ} {a : α} {actions : List α} :
    run step s (a :: actions) = some final ↔
      ∃ next, step s a = some next ∧ run step next actions = some final := by
  rw [run_cons, Option.bind_eq_some_iff]

theorem run_append (step : σ → α → Option σ) (s : σ) (before after : List α) :
    run step s (before ++ after) =
      (run step s before).bind fun mid => run step mid after := by
  rw [run, List.foldlM_append]
  rfl

theorem run_invariant_along {step : σ → α → Option σ} (Inv : List α → σ → Prop)
    (hstep : ∀ before s a next, Inv before s → step s a = some next → Inv (before ++ [a]) next)
    {s final : σ} {actions : List α} (hs : Inv [] s) (hrun : run step s actions = some final) :
    Inv actions final := by
  suffices hall : ∀ before s, Inv before s → run step s actions = some final →
      Inv (before ++ actions) final from hall [] s hs hrun
  clear hs hrun s
  induction actions with
  | nil =>
    intro before s hs hrun
    cases hrun
    rwa [List.append_nil]
  | cons a actions ih =>
    intro before s hs hrun
    obtain ⟨next, hnext, hrest⟩ := run_cons_eq_some.mp hrun
    rw [List.append_cons]
    exact ih (before ++ [a]) next (hstep before s a next hs hnext) hrest

theorem run_invariant {step : σ → α → Option σ} (Inv : σ → Prop)
    (hstep : ∀ s a next, Inv s → step s a = some next → Inv next)
    {s final : σ} {actions : List α} (hs : Inv s) (hrun : run step s actions = some final) :
    Inv final :=
  run_invariant_along (fun _ => Inv) (fun _ => hstep) hs hrun

variable {τ β : Type _} {step : σ → α → Option σ} {step' : τ → α → Option τ}

/-- What the actions of a run answer, as far as the run goes. -/
def answers (step : σ → α → Option σ) (answer : σ → α → β) : σ → List α → List β
  | _, [] => []
  | s, a :: actions =>
    match step s a with
    | some next => answer s a :: answers step answer next actions
    | none => []

theorem answers_append {answer : σ → α → β} {s mid : σ} {before : List α}
    (hrun : run step s before = some mid) (after : List α) :
    answers step answer s (before ++ after) =
      answers step answer s before ++ answers step answer mid after := by
  induction before generalizing s with
  | nil =>
    cases hrun
    rfl
  | cons a before ih =>
    obtain ⟨next, hnext, hrest⟩ := run_cons_eq_some.mp hrun
    simp [answers, hnext, ih hrest]

theorem answer_eq_of_answers {answer : σ → α → β} {answer' : τ → α → β} {s mid : σ} {t mid' : τ}
    (h : ∀ actions, answers step answer s actions = answers step' answer' t actions)
    (before : List α) (hrun : run step s before = some mid) (hrun' : run step' t before = some mid')
    {a : α} (hstep : (step mid a).isSome) (hstep' : (step' mid' a).isSome) :
    answer mid a = answer' mid' a := by
  have hlast := h (before ++ [a])
  rw [answers_append hrun, answers_append hrun', h before, List.append_cancel_left_eq] at hlast
  rw [Option.isSome_iff_exists] at hstep hstep'
  obtain ⟨next, hnext⟩ := hstep
  obtain ⟨next', hnext'⟩ := hstep'
  simpa [answers, hnext, hnext'] using hlast

/-- States that are related by a simulation allow the same runs, and the runs end in related
states. -/
theorem run_simulates (R : σ → τ → Prop)
    (hstep : ∀ s t a, R s t → Option.Rel R (step s a) (step' t a)) {s : σ} {t : τ} (h : R s t)
    (actions : List α) : Option.Rel R (run step s actions) (run step' t actions) := by
  induction actions generalizing s t with
  | nil => exact .some h
  | cons a actions ih =>
    have hrel := hstep s t a h
    rw [run_cons, run_cons]
    generalize step s a = o at hrel
    generalize step' t a = o' at hrel
    cases hrel with
    | some hnext => exact ih hnext
    | none => exact .none

theorem answers_simulates {answer : σ → α → β} {answer' : τ → α → β} (R : σ → τ → Prop)
    (hstep : ∀ s t a, R s t → Option.Rel R (step s a) (step' t a))
    (hanswer : ∀ s t a, R s t → (step s a).isSome → answer s a = answer' t a) {s : σ} {t : τ}
    (h : R s t) (actions : List α) : answers step answer s actions = answers step' answer' t actions := by
  induction actions generalizing s t with
  | nil => rfl
  | cons a actions ih =>
    have hrel := hstep s t a h
    have hsame := hanswer s t a h
    rw [answers, answers]
    generalize step s a = o at hrel hsame
    generalize step' t a = o' at hrel
    cases hrel with
    | some hnext => simp [hsame rfl, ih hnext]
    | none => rfl

theorem rel_of_common {ρ : Type _} {R : σ → ρ → Prop} {R' : τ → ρ → Prop} {x : Option σ}
    {y : Option τ} {z : Option ρ} (h : Option.Rel R x z) (h' : Option.Rel R' y z) :
    Option.Rel (fun s t => ∃ o, R s o ∧ R' t o) x y := by
  cases h with
  | some hs =>
    cases h' with
    | some ht => exact .some ⟨_, hs, ht⟩
  | none =>
    cases h' with
    | none => exact .none

theorem rel_mono {R R' : σ → τ → Prop} (himp : ∀ s t, R s t → R' s t) {x : Option σ}
    {y : Option τ} (h : Option.Rel R x y) : Option.Rel R' x y := by
  cases h with
  | some hst => exact .some (himp _ _ hst)
  | none => exact .none

variable {ε : Type _}

/-- The events of a run, as far as the run goes. -/
def history (step : σ → α → Option σ) (events : σ → α → List ε) : σ → List α → List ε
  | _, [] => []
  | s, a :: actions =>
    match step s a with
    | some next => events s a ++ history step events next actions
    | none => []

theorem run_history {events : σ → α → List ε} {apply : τ → ε → Option τ} (R : σ → τ → Prop)
    (hstep : ∀ s t a next, R s t → step s a = some next →
      ∃ t', run apply t (events s a) = some t' ∧ R next t')
    {s final : σ} {t : τ} {actions : List α} (h : R s t)
    (hrun : run step s actions = some final) :
    ∃ t', run apply t (history step events s actions) = some t' ∧ R final t' := by
  induction actions generalizing s t with
  | nil =>
    cases hrun
    exact ⟨t, rfl, h⟩
  | cons a actions ih =>
    obtain ⟨next, hnext, hrest⟩ := run_cons_eq_some.mp hrun
    obtain ⟨mid, hmid, hrel⟩ := hstep s t a next h hnext
    obtain ⟨t', ht', hfinal⟩ := ih hrel hrest
    refine ⟨t', ?_, hfinal⟩
    simp [history, hnext, run_append, hmid, ht']

end PartialRuns
