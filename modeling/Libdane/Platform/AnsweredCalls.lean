import Libdane.Platform.ThreadInterleaving

/-!
# Calls and their answers

A thread makes one call at a time, so its answers come in the order of its calls. What a set was
given is read off the call that the thread began, and not off what the call has done.
-/

namespace Libdane

open PartialRuns

/-- The action begins a get or a set of the thread. -/
def TlsAction.begins (t : Nat) : TlsAction → Bool
  | .get thread _ | .set thread _ _ _ => thread == t
  | .create _ _ _ | .advance _ _ | .exit _ | .destroy _ => false

/-- The data that the call sets on the handle. -/
def TlsAction.dataFor (h : Nat) : TlsAction → Option (Nat → UInt8)
  | .set _ handle _ newData => if handle = some h then newData else none
  | .create _ _ _ | .get _ _ | .advance _ _ | .exit _ | .destroy _ => none

def TlsPurpose.newData : TlsPurpose → Option (Nat → UInt8)
  | .get => none
  | .set _ newData => some newData

def TlsMachine.answersOf (m : TlsMachine) (t : Nat) : List TlsAnswer :=
  m.answers.filter fun a => a.thread == t

/-- What the last call was given that succeeded, among the calls that are given something. -/
def lastAnswered {γ δ : Type} (given : γ → Option δ) (calls : List γ) (answers : List TlsAnswer) :
    Option δ :=
  (calls.zip answers).reverse.findSome? fun c => if c.2.result = .ok then given c.1 else none

/-- The data of the last set of the thread on the handle that succeeded. -/
def lastSet (actions : List TlsAction) (m : TlsMachine) (t h : Nat) : Option (Nat → UInt8) :=
  lastAnswered (TlsAction.dataFor h) (actions.filter (TlsAction.begins t)) (m.answersOf t)

/-- The same by the account of the machine, in which an answer tells what was written. -/
def lastWritten (answers : List TlsAnswer) (t h : Nat) : Option (Nat → UInt8) :=
  answers.reverse.findSome? fun a =>
    if a.thread = t ∧ a.handle = some h ∧ a.result = .ok then a.newData else none

section Answers

variable {answers : List TlsAnswer} {a : TlsAnswer} {t h : Nat} {newData : Nat → UInt8}

theorem lastWritten_append :
    lastWritten (answers ++ [a]) t h =
      ((if a.thread = t ∧ a.handle = some h ∧ a.result = .ok then a.newData else none).or
        (lastWritten answers t h)) := by
  rw [lastWritten, List.reverse_append, List.reverse_singleton, List.singleton_append,
    List.findSome?_cons]
  split
  next data hdata => rw [hdata, Option.some_or]
  next hnone =>
    rw [hnone, Option.none_or]
    rfl

theorem lastWritten_append_none (hnone : a.newData = none) :
    lastWritten (answers ++ [a]) t h = lastWritten answers t h := by
  rw [lastWritten_append, hnone, ite_self, Option.none_or]

theorem lastWritten_append_other (hother : ¬(a.thread = t ∧ a.handle = some h)) :
    lastWritten (answers ++ [a]) t h = lastWritten answers t h := by
  rw [lastWritten_append, if_neg, Option.none_or]
  intro hhere
  exact hother ⟨hhere.1, hhere.2.1⟩

theorem mem_of_lastWritten (hlast : lastWritten answers t h = some newData) :
    ∃ a ∈ answers, a.thread = t ∧ a.handle = some h ∧ a.result = .ok := by
  obtain ⟨a, ha, hdata⟩ := List.exists_of_findSome?_eq_some hlast
  split at hdata
  next hhere => exact ⟨a, List.mem_reverse.mp ha, hhere⟩
  next => cases hdata

section Pairs

variable {γ δ : Type} {given : γ → Option δ} {calls : List γ} {c : γ}

private theorem lastAnswered_begun (hlength : calls.length = answers.length) :
    lastAnswered given (calls ++ [c]) answers = lastAnswered given calls answers := by
  have hzip := @List.zip_append _ _ calls [c] answers [] hlength
  rw [List.append_nil, List.zip_nil_right, List.append_nil] at hzip
  rw [lastAnswered, hzip, lastAnswered]

private theorem lastAnswered_answered (hlength : calls.length = answers.length) :
    lastAnswered given (calls ++ [c]) (answers ++ [a]) =
      (if a.result = .ok then given c else none).or (lastAnswered given calls answers) := by
  rw [lastAnswered, List.zip_append hlength, List.reverse_append, List.zip_cons_cons,
    List.zip_nil_right, List.reverse_singleton, List.singleton_append, List.findSome?_cons]
  split
  next value hvalue => rw [hvalue, Option.some_or]
  next hnone =>
    rw [hnone, Option.none_or]
    rfl

private theorem lastAnswered_cons :
    lastAnswered given (c :: calls) (a :: answers) =
      (lastAnswered given calls answers).or (if a.result = .ok then given c else none) := by
  rw [lastAnswered, List.zip_cons_cons, List.reverse_cons, List.findSome?_append, lastAnswered,
    List.findSome?_singleton]

theorem lastAnswered_map {γ' δ' : Type} {given' : γ' → Option δ'} (f : γ → γ') (g : δ → δ')
    (hgiven : ∀ c ∈ calls, given' (f c) = (given c).map g) :
    lastAnswered given' (calls.map f) answers = (lastAnswered given calls answers).map g := by
  induction calls generalizing answers with
  | nil => rfl
  | cons c calls ih =>
    cases answers with
    | nil => rfl
    | cons a answers =>
      have hrest := @ih answers fun c' hc' => hgiven c' (List.mem_cons_of_mem _ hc')
      rw [List.map_cons, lastAnswered_cons, lastAnswered_cons, hrest,
        hgiven c List.mem_cons_self]
      by_cases hresult : a.result = .ok
      · simp [hresult, Option.map_or]
      · simp [hresult]

end Pairs

end Answers

/-- The calls and the answers of a thread go together, and the account of the machine is right. -/
structure Paired (actions : List TlsAction) (m : TlsMachine) (t : Nat) : Prop where
  idle : m.activity t = none →
    (actions.filter (TlsAction.begins t)).length = (m.answersOf t).length
  busy : ∀ call, m.activity t = some call → ∃ calls c,
    actions.filter (TlsAction.begins t) = calls ++ [c] ∧
      calls.length = (m.answersOf t).length ∧
      ∀ h, c.dataFor h = if call.handle = h then call.purpose.newData else none
  written : ∀ h, lastWritten m.answers t h = lastSet actions m t h

section Steps

variable {actions : List TlsAction} {m next : TlsMachine} {a : TlsAction} {t : Nat}

private theorem answersOf_append {answer : TlsAnswer} (h : next.answers = m.answers ++ [answer]) :
    next.answersOf t = m.answersOf t ++ if answer.thread = t then [answer] else [] := by
  rw [TlsMachine.answersOf, h, List.filter_append, TlsMachine.answersOf]
  by_cases ht : answer.thread = t
  · simp [ht]
  · simp [ht]

private theorem Paired.same (hp : Paired actions m t) (ha : a.begins t = false)
    (hanswers : next.answersOf t = m.answersOf t)
    (hwritten : ∀ h, lastWritten next.answers t h = lastWritten m.answers t h)
    (hactivity : ∀ call, next.activity t = some call → ∃ old, m.activity t = some old ∧
      old.handle = call.handle ∧ old.purpose = call.purpose)
    (hidle : next.activity t = none → m.activity t = none) : Paired (actions ++ [a]) next t := by
  have hcalls : (actions ++ [a]).filter (TlsAction.begins t) =
      actions.filter (TlsAction.begins t) := by
    simp [ha]
  constructor
  case idle =>
    intro hnone
    rw [hcalls, hanswers]
    exact hp.idle (hidle hnone)
  case busy =>
    intro call hcall
    obtain ⟨old, hold, hhandle, hpurpose⟩ := hactivity call hcall
    rw [hcalls, hanswers, ← hhandle, ← hpurpose]
    exact hp.busy old hold
  case written =>
    intro h
    rw [hwritten, hp.written, lastSet, lastSet, hcalls, hanswers]

private theorem Paired.begun (hp : Paired actions m t) (ha : a.begins t = true)
    (hidle : m.activity t = none) {call : TlsCall}
    (hgiven : ∀ h, a.dataFor h = if call.handle = h then call.purpose.newData else none) :
    Paired (actions ++ [a]) (m.resume t call) t := by
  have hcalls : (actions ++ [a]).filter (TlsAction.begins t) =
      actions.filter (TlsAction.begins t) ++ [a] := by
    simp [ha]
  constructor
  case idle =>
    intro hnone
    rw [m.resume_self] at hnone
    cases hnone
  case busy =>
    intro call' hcall
    rw [m.resume_self] at hcall
    cases hcall
    exact ⟨_, a, hcalls, hp.idle hidle, hgiven⟩
  case written =>
    intro h
    rw [lastSet, hcalls]
    exact (hp.written h).trans (lastAnswered_begun (hp.idle hidle)).symm

private theorem Paired.refused (hp : Paired actions m t) (ha : a.begins t = true)
    (hidle : m.activity t = none) {answer : TlsAnswer} (hthread : answer.thread = t)
    (hresult : answer.result ≠ .ok) : Paired (actions ++ [a]) (m.answer answer) t := by
  have hcalls : (actions ++ [a]).filter (TlsAction.begins t) =
      actions.filter (TlsAction.begins t) ++ [a] := by
    simp [ha]
  have hanswers : (m.answer answer).answersOf t = m.answersOf t ++ [answer] := by
    rw [answersOf_append (m := m) rfl, if_pos hthread]
  constructor
  case idle =>
    intro _
    rw [hcalls, hanswers, List.length_append, List.length_append, hp.idle hidle]
    rfl
  case busy =>
    intro call hcall
    subst hthread
    rw [m.answer_self] at hcall
    cases hcall
  case written =>
    intro h
    rw [lastSet, hcalls, hanswers, lastAnswered_answered (hp.idle hidle), if_neg hresult,
      TlsMachine.answer, lastWritten_append, if_neg fun hall => hresult hall.2.2]
    exact congrArg _ (hp.written h)

private theorem Paired.returned (hp : Paired actions m t) (ha : a.begins t = false) {call : TlsCall}
    (hcall : m.activity t = some call) {answer : TlsAnswer} (hthread : answer.thread = t)
    (hactivity : next.activity t = none) (hnext : next.answers = m.answers ++ [answer])
    (hok : answer.result = .ok → answer.handle = some call.handle ∧
      answer.newData = call.purpose.newData) : Paired (actions ++ [a]) next t := by
  have hcalls : (actions ++ [a]).filter (TlsAction.begins t) =
      actions.filter (TlsAction.begins t) := by
    simp [ha]
  have hanswers : next.answersOf t = m.answersOf t ++ [answer] := by
    rw [answersOf_append hnext, if_pos hthread]
  obtain ⟨calls, c, hbegun, hlength, hgiven⟩ := hp.busy call hcall
  constructor
  case idle =>
    intro _
    rw [hcalls, hanswers, hbegun, List.length_append, List.length_append, hlength]
    rfl
  case busy =>
    intro call' hcall'
    rw [hactivity] at hcall'
    cases hcall'
  case written =>
    intro h
    have hold := hp.written h
    rw [lastSet, hbegun, lastAnswered_begun hlength] at hold
    rw [lastSet, hcalls, hanswers, hbegun, lastAnswered_answered hlength, ← hold, hnext,
      lastWritten_append]
    congr 1
    by_cases hresult : answer.result = .ok
    · obtain ⟨hhandle, hdata⟩ := hok hresult
      simp [hthread, hresult, hhandle, hdata, hgiven]
    · simp [hresult]

/-- A step gives at most one answer, of its thread, and a good one is about the buffer of the
call. -/
theorem TlsStep.answers (hstep : TlsStep m a next) :
    next.answers = m.answers ∨ ∃ answer, next.answers = m.answers ++ [answer] ∧
      a.thread = some answer.thread ∧
      (answer.result = .ok → ∃ call b, m.activity answer.thread = some call ∧
        call.point = .obtained b ∧ answer.handle = some call.handle ∧ answer.data = some b) := by
  cases hstep with
  | rejected ha => exact Or.inr ⟨_, rfl, ha, nofun⟩
  | exhausted | freed => exact Or.inr ⟨_, rfl, rfl, nofun⟩
  | fetched hcall hpoint | assigned hcall hpoint =>
    exact Or.inr ⟨_, rfl, rfl, fun _ => ⟨_, _, hcall, hpoint, rfl, rfl⟩⟩
  | _ => exact Or.inl rfl

private theorem TlsAction.begins_other (ha : a.thread ≠ some t) : a.begins t = false := by
  cases a with
  | get u | set u => exact beq_eq_false_iff_ne.mpr fun hu => ha (congrArg some hu)
  | create | advance | exit | destroy => rfl

private theorem advance_cases {os : TlsOs} (hnext : m.step (.advance t os) = some next) :
    ∃ call, m.activity t = some call ∧
      ((next.answers = m.answers ∧ ∃ point, next.activity t = some { call with point := point }) ∨
        ∃ answer, next.answers = m.answers ++ [answer] ∧ next.activity t = none ∧
          answer.thread = t ∧ (answer.result = .ok → answer.handle = some call.handle ∧
            answer.newData = call.purpose.newData)) := by
  obtain ⟨call, hcall, -⟩ := Option.bind_eq_some_iff.mp hnext
  refine ⟨call, hcall, ?_⟩
  cases TlsMachine.steps hnext with
  | rejected ha hidle | entered ha _ hidle =>
    cases ha
    cases hcall.symm.trans hidle
  | found hold | missed hold | unstored hold =>
    cases hcall.symm.trans hold
    exact Or.inl ⟨rfl, _, m.resume_self _ _⟩
  | allocated _ hold | stored hold =>
    cases hcall.symm.trans hold
    exact Or.inl ⟨rfl, _, TlsMachine.resume_self _ _ _⟩
  | exhausted hold | freed hold =>
    exact Or.inr ⟨_, rfl, TlsMachine.answer_self _ _, rfl, nofun⟩
  | fetched hold _ hpurpose | assigned hold _ hpurpose =>
    cases hcall.symm.trans hold
    exact Or.inr ⟨_, rfl, TlsMachine.answer_self _ _, rfl, fun _ => ⟨rfl, by rw [hpurpose]; rfl⟩⟩

private theorem Paired.enter (hp : Paired actions m t) (ha : a.begins t = true)
    {handle : Option Nat}
    {purpose : Option TlsPurpose} (hnext : m.enter t handle purpose = some next)
    (hgiven : ∀ called given, handle = some called → purpose = some given →
      ∀ h, a.dataFor h = if called = h then given.newData else none) :
    Paired (actions ++ [a]) next t := by
  obtain ⟨hidle, hnext⟩ := enter_cases hnext
  cases hnext with
  | inl hnext =>
    rw [hnext]
    exact hp.refused ha hidle rfl nofun
  | inr hnext =>
    obtain ⟨called, given, block, hhandle, hpurpose, -, hnext⟩ := hnext
    rw [hnext]
    exact hp.begun ha hidle (hgiven called given hhandle hpurpose)

private theorem Paired.other (hp : Paired actions m t) (hnext : m.step a = some next)
    (ha : a.thread ≠ some t) : Paired (actions ++ [a]) next t := by
  have hstep := TlsMachine.steps hnext
  have hsame := (hstep.other ha).1
  have hanswers : next.answersOf t = m.answersOf t ∧
      ∀ h, lastWritten next.answers t h = lastWritten m.answers t h := by
    cases hstep.answers with
    | inl hold => exact ⟨by rw [TlsMachine.answersOf, hold, TlsMachine.answersOf], by simp [hold]⟩
    | inr hnew =>
      obtain ⟨answer, hnew, hthread, -⟩ := hnew
      have hne : answer.thread ≠ t := fun he => ha (by rw [hthread, he])
      constructor
      · rw [answersOf_append hnew, if_neg hne, List.append_nil]
      · intro h
        rw [hnew, lastWritten_append_other fun hhere => hne hhere.1]
  apply hp.same (TlsAction.begins_other ha) hanswers.1 hanswers.2
  · intro call hcall
    rw [hsame] at hcall
    exact ⟨call, hcall, rfl, rfl⟩
  · intro hnone
    rwa [hsame] at hnone

private theorem Paired.step (hp : Paired actions m t) (hnext : m.step a = some next) :
    Paired (actions ++ [a]) next t := by
  by_cases ha : a.thread = some t
  · cases a with
    | create | destroy => cases ha
    | get u handle =>
      cases ha
      apply hp.enter (beq_self_eq_true _) hnext
      intro called given _ hpurpose h
      cases hpurpose
      simp [TlsAction.dataFor, TlsPurpose.newData]
    | set u handle setter newData =>
      cases ha
      apply hp.enter (beq_self_eq_true _) hnext
      intro called given hhandle hpurpose h
      obtain ⟨data, hdata, hgiven⟩ := Option.map_eq_some_iff.mp hpurpose
      simp [TlsAction.dataFor, hhandle, hdata, ← hgiven, TlsPurpose.newData]
    | advance u os =>
      cases ha
      obtain ⟨call, hcall, hgoes | hreturns⟩ := advance_cases hnext
      · obtain ⟨hanswers, point, hpoint⟩ := hgoes
        apply hp.same rfl
        · rw [TlsMachine.answersOf, hanswers, TlsMachine.answersOf]
        · simp [hanswers]
        · intro call' hcall'
          cases hpoint.symm.trans hcall'
          exact ⟨call, hcall, rfl, rfl⟩
        · intro hnone
          cases hpoint.symm.trans hnone
      · obtain ⟨answer, hanswers, hactivity, hthread, hok⟩ := hreturns
        exact hp.returned rfl hcall hthread hactivity hanswers hok
    | exit u =>
      cases ha
      rw [(exit_cases hnext).2]
      exact hp.same rfl rfl (fun _ => rfl) (fun call hcall => ⟨call, hcall, rfl, rfl⟩) id
  · exact hp.other hnext ha

theorem lastSet_of_run (hidle : ∀ t, m.activity t = none) (hnone : m.answers = [])
    (hrun : run TlsMachine.step m actions = some next) (t h : Nat) :
    lastSet actions next t h = lastWritten next.answers t h := by
  have hstart : Paired [] m t := by
    constructor
    case idle => simp [TlsMachine.answersOf, hnone]
    case busy =>
      intro call hcall
      rw [hidle] at hcall
      cases hcall
    case written =>
      intro h
      rw [hnone]
      rfl
  have hpaired := run_invariant_along (fun actions m => Paired actions m t)
    (fun _ _ _ _ hp hnext => hp.step hnext) hstart hrun
  exact (hpaired.written h).symm

end Steps

end Libdane
