import Libdane.Framework.LoopStates
import Libdane.Framework.LinkedChain

/-!
# The registry of tests

`REGISTER` puts a test in front of a linked list, and the end of `main` runs the list from its
head. The entries are static, so registering one a second time relinks it and closes a ring.
-/

namespace Libdane.Testing

open ByteMachine ByteMachine.Exec LinkedChain

variable {ν : Type}

/-- The function of the predicate that an assertion names, and its operands. -/
structure Assertion where
  pred : UInt64 → UInt64 → Bool
  lhs : UInt64
  rhs : UInt64

/-- Whether the assertion returns. Otherwise it calls `abort`. -/
def libdAssertOp (abortOnFail : Bool) (a : Assertion) : Bool :=
  if !a.pred a.lhs a.rhs then !abortOnFail else true

/-- Whether a test function that makes these assertions returns. -/
def runTest (abortOnFail : Bool) (assertions : List Assertion) : Bool :=
  assertions.all (libdAssertOp abortOnFail)

/-- `g_test_registry`, and the `next` of every static entry. -/
structure TestRegistry (ν : Type) where
  gTestRegistry : Option ν
  next : ν → Option ν

def TestRegistry.start : TestRegistry ν := { gTestRegistry := none, next := fun _ => none }

def registerTest [DecidableEq ν] (r : TestRegistry ν) (entry : ν) : TestRegistry ν :=
  { gTestRegistry := some entry, next := Function.update r.next entry r.gTestRegistry }

/-- The `REGISTER` lines of a `main`. -/
def registerAll [DecidableEq ν] (entries : List ν) : TestRegistry ν :=
  entries.foldl registerTest .start

/-- How `main` ends, and the tests it has run by then. -/
inductive MainEnd (ν : Type) where
  | returned (ran : List ν)
  | aborted (ran : List ν)

structure MainState (ν : Type) where
  gTestRegistry : Option ν
  ran : List ν

/-- One turn of the loop of `END_TEST_MAIN`. -/
def mainBody (f : ν → Bool) (next : ν → Option ν) (s : MainState ν) :
    Exec (MainState ν ⊕ MainEnd ν) :=
  match s.gTestRegistry with
  | none => ret (.inr (.returned s.ran))
  | some entry =>
    if f entry then ret (.inl { gTestRegistry := next entry, ran := s.ran ++ [entry] })
    else ret (.inr (.aborted (s.ran ++ [entry])))

/-- `main` between `TEST_MAIN` and `END_TEST_MAIN`, where `body` has the assertions of each test
function. -/
def testMain [DecidableEq ν] (abortOnFail : Bool) (body : ν → List Assertion) (entries : List ν)
    (fuel : Nat) : Exec (MainEnd ν) :=
  let r := registerAll entries
  loop (mainBody (fun entry => runTest abortOnFail (body entry)) r.next) fuel
    { gTestRegistry := r.gTestRegistry, ran := [] }

/-- Every assertion of the test holds. -/
def Passes (body : ν → List Assertion) (entry : ν) : Prop :=
  ∀ a ∈ body entry, a.pred a.lhs a.rhs = true

private theorem runTest_iff (abortOnFail : Bool) (body : ν → List Assertion) (entry : ν) :
    runTest abortOnFail (body entry) = true ↔ abortOnFail = true → Passes body entry := by
  cases abortOnFail with
  | false => simp [runTest, libdAssertOp]
  | true => simp [runTest, libdAssertOp, Passes]

/-- `next` with `NULL`. -/
def link (next : ν → Option ν) (entry : Option ν) : Option ν := entry.bind next

section Walk

variable {f : ν → Bool} {next : ν → Option ν} {start : Option ν} {ran : List ν}

private theorem main_returns {nodes : List ν} (h : Chain (link next) start (nodes.map some) none)
    (hpass : ∀ entry ∈ nodes, f entry = true) (fuel : Nat) (hfuel : nodes.length + 1 ≤ fuel) :
    loop (mainBody f next) fuel { gTestRegistry := start, ran := ran } =
      ret (.returned (ran ++ nodes)) := by
  induction nodes generalizing start ran fuel with
  | nil =>
    obtain ⟨fuel, rfl⟩ := Nat.exists_eq_succ_of_ne_zero (by omega : fuel ≠ 0)
    cases h
    rw [List.append_nil]
    exact loop_done fuel rfl
  | cons entry nodes ih =>
    obtain ⟨fuel, rfl⟩ := Nat.exists_eq_succ_of_ne_zero (by omega : fuel ≠ 0)
    obtain ⟨rfl, hrest⟩ := h
    have hbody : mainBody f next { gTestRegistry := some entry, ran := ran } =
        ret (.inl { gTestRegistry := next entry, ran := ran ++ [entry] }) := by
      simp [mainBody, hpass entry (by simp)]
    rw [List.length_cons] at hfuel
    have hnodes := @ih (next entry) (ran ++ [entry]) hrest
      (fun x hx => hpass x (by simp [hx])) fuel (by omega)
    rw [loop_next fuel hbody, hnodes, List.append_assoc, List.singleton_append]

private theorem main_aborts {front : List ν} {entry : ν} {stop : Option ν}
    (h : Chain (link next) start ((front ++ [entry]).map some) stop)
    (hpass : ∀ x ∈ front, f x = true) (hfail : f entry = false) (fuel : Nat)
    (hfuel : front.length + 1 ≤ fuel) :
    loop (mainBody f next) fuel { gTestRegistry := start, ran := ran } =
      ret (.aborted (ran ++ (front ++ [entry]))) := by
  induction front generalizing start ran fuel with
  | nil =>
    obtain ⟨fuel, rfl⟩ := Nat.exists_eq_succ_of_ne_zero (by omega : fuel ≠ 0)
    obtain ⟨rfl, -⟩ := h
    apply loop_done
    simp [mainBody, hfail]
  | cons first front ih =>
    obtain ⟨fuel, rfl⟩ := Nat.exists_eq_succ_of_ne_zero (by omega : fuel ≠ 0)
    obtain ⟨rfl, hrest⟩ := h
    have hbody : mainBody f next { gTestRegistry := some first, ran := ran } =
        ret (.inl { gTestRegistry := next first, ran := ran ++ [first] }) := by
      simp [mainBody, hpass first (by simp)]
    rw [List.length_cons] at hfuel
    have hfront := @ih (next first) (ran ++ [first]) hrest
      (fun x hx => hpass x (by simp [hx])) fuel (by omega)
    rw [loop_next fuel hbody, hfront, List.append_assoc, List.singleton_append, List.cons_append]

private theorem main_in_ring {ring : Set ν} (hring : ∀ entry ∈ ring, ∃ other ∈ ring,
    next entry = some other) (hstart : ∃ entry ∈ ring, start = some entry) (fuel : Nat) :
    loop (mainBody f next) fuel { gTestRegistry := start, ran := ran } = outOfFuel ∨
      ∃ front, ∃ last ∈ ring, (∀ x ∈ front, f x = true) ∧ f last = false ∧
        loop (mainBody f next) fuel { gTestRegistry := start, ran := ran } =
          ret (.aborted (ran ++ (front ++ [last]))) := by
  induction fuel generalizing start ran with
  | zero => exact Or.inl rfl
  | succ fuel ih =>
    obtain ⟨entry, hentry, rfl⟩ := hstart
    by_cases hpass : f entry = true
    · have hbody : mainBody f next { gTestRegistry := some entry, ran := ran } =
          ret (.inl { gTestRegistry := next entry, ran := ran ++ [entry] }) := by
        simp [mainBody, hpass]
      rw [loop_next fuel hbody]
      cases @ih (next entry) (ran ++ [entry]) (hring entry hentry) with
      | inl hruns => exact Or.inl hruns
      | inr haborts =>
        obtain ⟨front, last, hlast, hfront, hfail, hend⟩ := haborts
        refine Or.inr ⟨entry :: front, last, hlast, ?_, hfail, ?_⟩
        · intro x hx
          cases List.mem_cons.mp hx with
          | inl hfirst => rwa [hfirst]
          | inr hlater => exact hfront x hlater
        · rw [hend, List.append_assoc, List.singleton_append, List.cons_append]
    · rw [Bool.not_eq_true] at hpass
      refine Or.inr ⟨[], entry, hentry, nofun, hpass, ?_⟩
      apply loop_done
      simp [mainBody, hpass]

private theorem chain_next {next : ν → Option ν} {start : Option ν} {front : List ν} {last : ν}
    {stop : Option ν} (h : Chain (link next) start ((front ++ [last]).map some) stop) :
    (∃ x ∈ front ++ [last], start = some x) ∧
      ∀ x ∈ front, ∃ other ∈ front ++ [last], next x = some other := by
  induction front generalizing start with
  | nil =>
    obtain ⟨rfl, -⟩ := h
    simp
  | cons first front ih =>
    obtain ⟨rfl, hrest⟩ := h
    obtain ⟨hhead, hnext⟩ := ih hrest
    refine ⟨⟨first, by simp, rfl⟩, ?_⟩
    intro x hx
    rcases List.mem_cons.mp hx with rfl | hx
    · obtain ⟨other, hother, he⟩ := hhead
      exact ⟨other, List.mem_cons_of_mem _ hother, he⟩
    · obtain ⟨other, hother, he⟩ := hnext x hx
      exact ⟨other, List.mem_cons_of_mem _ hother, he⟩

private theorem exists_first_failing {entries : List ν} (h : ¬∀ entry ∈ entries, f entry = true) :
    ∃ front entry back, entries = front ++ entry :: back ∧ (∀ x ∈ front, f x = true) ∧
      f entry = false := by
  induction entries with
  | nil => simp at h
  | cons first entries ih =>
    by_cases hfirst : f first = true
    · have hrest : ¬∀ entry ∈ entries, f entry = true := by
        intro hall
        exact h (by simpa [hfirst] using hall)
      obtain ⟨front, entry, back, rfl, hfront, hfail⟩ := ih hrest
      exact ⟨first :: front, entry, back, rfl, by simpa [hfirst] using hfront, hfail⟩
    · exact ⟨[], first, entries, rfl, by simp, by simpa using hfirst⟩

end Walk

section Register

variable [DecidableEq ν] {r : TestRegistry ν} {entry : ν}

private theorem link_registerTest (r : TestRegistry ν) (entry : ν) :
    link (registerTest r entry).next =
      Function.update (link r.next) (some entry) r.gTestRegistry := by
  funext x
  cases x with
  | none => simp [link]
  | some other =>
    by_cases hother : other = entry
    · simp [link, registerTest, hother]
    · simp [link, registerTest, hother]

private theorem registerTest_new {nodes : List ν}
    (h : Chain (link r.next) r.gTestRegistry (nodes.map some) none) (hnew : entry ∉ nodes) :
    Chain (link (registerTest r entry).next) (registerTest r entry).gTestRegistry
      ((entry :: nodes).map some) none := by
  rw [link_registerTest]
  exact h.push_front (by simpa using hnew)

/-- The entries that `next` leads round and round. -/
structure Rings (r : TestRegistry ν) (ring : Set ν) : Prop where
  closed : ∀ entry ∈ ring, ∃ other ∈ ring, r.next entry = some other
  head : ∃ entry ∈ ring, r.gTestRegistry = some entry

private theorem Rings.registerTest {ring : Set ν} (h : Rings r ring) (entry : ν) :
    Rings (registerTest r entry) (insert entry ring) := by
  constructor
  case closed =>
    intro x hx
    by_cases he : x = entry
    · obtain ⟨first, hfirst, hhead⟩ := h.head
      exact ⟨first, Or.inr hfirst, by simp [Testing.registerTest, he, hhead]⟩
    · obtain ⟨other, hother, hnext⟩ := h.closed x (Or.resolve_left hx he)
      exact ⟨other, Or.inr hother, by simp [Testing.registerTest, he, hnext]⟩
  case head => exact ⟨entry, Or.inl rfl, rfl⟩

private theorem registerTest_again {nodes : List ν}
    (h : Chain (link r.next) r.gTestRegistry (nodes.map some) none) (hnodup : nodes.Nodup)
    (hentry : entry ∈ nodes) :
    ∃ ring ⊆ {x | x ∈ nodes}, Rings (Testing.registerTest r entry) ring := by
  obtain ⟨front, back, rfl⟩ := List.append_of_mem hentry
  have hnotMem : entry ∉ front := fun hmem => (List.nodup_append.mp hnodup).2.2 _ hmem _
    (by simp) rfl
  have hfront : Chain (link r.next) r.gTestRegistry ((front ++ [entry]).map some)
      (link r.next (some entry)) := by
    rw [List.map_append, List.map_cons] at h
    obtain ⟨middle, hbefore, hmiddle, -⟩ := chain_append.mp h
    rw [List.map_append]
    exact chain_append.mpr ⟨middle, hbefore, hmiddle, rfl⟩
  obtain ⟨hhead, hnext⟩ := chain_next hfront
  refine ⟨{x | x ∈ front ++ [entry]}, ?_, ?_, ?_⟩
  · intro x hx
    simp only [Set.mem_ofPred_eq, List.mem_append, List.mem_cons, List.not_mem_nil, or_false]
      at hx ⊢
    tauto
  · intro x hx
    by_cases he : x = entry
    · obtain ⟨first, hfirst, hstart⟩ := hhead
      exact ⟨first, hfirst, by simp [Testing.registerTest, he, hstart]⟩
    · have hxfront : x ∈ front := by simpa [he] using hx
      obtain ⟨other, hother, hlink⟩ := hnext x hxfront
      exact ⟨other, hother, by simp [Testing.registerTest, he, hlink]⟩
  · exact ⟨entry, by simp, rfl⟩

private theorem registerAll_nodup {entries : List ν} (h : entries.Nodup) :
    Chain (link (registerAll entries).next) (registerAll entries).gTestRegistry
      (entries.reverse.map some) none := by
  induction entries using List.reverseRecOn with
  | nil => rfl
  | append_singleton entries entry ih =>
    obtain ⟨hnodup, -, hapart⟩ := List.nodup_append.mp h
    have hnew : entry ∉ entries.reverse := by
      intro hmem
      exact hapart entry (List.mem_reverse.mp hmem) entry (by simp) rfl
    have hall : registerAll (entries ++ [entry]) = registerTest (registerAll entries) entry := by
      simp [registerAll]
    rw [hall, List.reverse_append, List.reverse_singleton]
    exact registerTest_new (ih hnodup) hnew

private theorem registerAll_ring {entries : List ν} (h : ¬entries.Nodup) :
    ∃ ring ⊆ {x | x ∈ entries}, Rings (registerAll entries) ring := by
  induction entries using List.reverseRecOn with
  | nil => simp at h
  | append_singleton entries entry ih =>
    have hall : registerAll (entries ++ [entry]) = registerTest (registerAll entries) entry := by
      simp [registerAll]
    rw [hall]
    by_cases hnodup : entries.Nodup
    · have hentry : entry ∈ entries := by
        by_contra hnew
        exact h (hnodup.append (by simp) (by simpa using hnew))
      obtain ⟨ring, hring, hrings⟩ := registerTest_again (registerAll_nodup hnodup)
        (List.nodup_reverse.mpr hnodup) (List.mem_reverse.mpr hentry)
      exact ⟨ring, fun x hx => by simpa using Or.inl (List.mem_reverse.mp (hring hx)), hrings⟩
    · obtain ⟨ring, hring, hrings⟩ := ih hnodup
      refine ⟨insert entry ring, ?_, hrings.registerTest entry⟩
      intro x hx
      rcases hx with rfl | hx
      · simp
      · simpa using Or.inl (hring hx)

private theorem main_aborted {f : ν → Bool} {entries front back : List ν} {entry : ν}
    (hsplit : entries.reverse = front ++ entry :: back) (hnodup : entries.Nodup)
    (hpass : ∀ x ∈ front, f x = true) (hfail : f entry = false) :
    Converges (fun fuel => loop (mainBody f (registerAll entries).next) fuel
      { gTestRegistry := (registerAll entries).gTestRegistry, ran := [] })
      (.aborted (front ++ [entry])) := by
  have hchain := registerAll_nodup hnodup
  rw [hsplit, List.append_cons, List.map_append] at hchain
  obtain ⟨middle, hfront, -⟩ := chain_append.mp hchain
  exact ⟨front.length + 1, fun fuel hfuel => main_aborts hfront hpass hfail fuel hfuel⟩

private theorem main_again {f : ν → Bool} {entries : List ν} (hagain : ¬entries.Nodup) :
    (∀ fuel, loop (mainBody f (registerAll entries).next) fuel
        { gTestRegistry := (registerAll entries).gTestRegistry, ran := [] } = outOfFuel) ∨
      ∃ front, ∃ last ∈ entries, (∀ x ∈ front, f x = true) ∧ f last = false ∧
        Converges (fun fuel => loop (mainBody f (registerAll entries).next) fuel
          { gTestRegistry := (registerAll entries).gTestRegistry, ran := [] })
          (.aborted (front ++ [last])) := by
  obtain ⟨ring, hring, hrings⟩ := registerAll_ring hagain
  by_cases hruns : ∀ fuel, loop (mainBody f (registerAll entries).next) fuel
      { gTestRegistry := (registerAll entries).gTestRegistry, ran := [] } = outOfFuel
  · exact Or.inl hruns
  · right
    obtain ⟨fuel, hends⟩ := not_forall.mp hruns
    obtain ⟨front, last, hlast, hfront, hfail, haborted⟩ :=
      (main_in_ring hrings.closed hrings.head fuel).resolve_left hends
    refine ⟨front, last, hring hlast, hfront, hfail, ?_⟩
    exact (Settled.loop (fun s => settled_const (mainBody f _ s)) _).converges haborted

private theorem main_returned_iff (f : ν → Bool) (entries ran : List ν) :
    Converges (fun fuel => loop (mainBody f (registerAll entries).next) fuel
        { gTestRegistry := (registerAll entries).gTestRegistry, ran := [] }) (.returned ran) ↔
      entries.Nodup ∧ (∀ entry ∈ entries, f entry = true) ∧ ran = entries.reverse := by
  have hreturns : entries.Nodup → (∀ entry ∈ entries, f entry = true) →
      Converges (fun fuel => loop (mainBody f (registerAll entries).next) fuel
        { gTestRegistry := (registerAll entries).gTestRegistry, ran := [] })
        (.returned entries.reverse) := by
    intro hnodup hpass
    refine ⟨entries.reverse.length + 1, ?_⟩
    intro fuel hfuel
    exact main_returns (registerAll_nodup hnodup)
      (fun x hx => hpass x (List.mem_reverse.mp hx)) fuel hfuel
  constructor
  · intro hconv
    have hnodup : entries.Nodup := by
      by_contra hagain
      cases main_again hagain with
      | inl hruns =>
        obtain ⟨enough, hconv⟩ := hconv
        cases (hruns enough).symm.trans (hconv enough le_rfl)
      | inr haborts =>
        obtain ⟨front, last, -, -, -, haborted⟩ := haborts
        cases hconv.unique haborted
    have hpass : ∀ entry ∈ entries, f entry = true := by
      by_contra hfails
      obtain ⟨front, entry, back, hsplit, hfront, hfail⟩ :=
        @exists_first_failing ν f entries.reverse (by simpa using hfails)
      have hunique := hconv.unique (main_aborted hsplit hnodup hfront hfail)
      cases hunique
    have hunique := hconv.unique (hreturns hnodup hpass)
    cases hunique
    exact ⟨hnodup, hpass, rfl⟩
  · rintro ⟨hnodup, hpass, rfl⟩
    exact hreturns hnodup hpass

/-- `main` returns exactly when no test is registered twice and no assertion fails. It has then run
each test once, the last one registered first. A failed assertion ends it at the first test that has
one. A test that is registered twice makes `main` run for ever, unless a failed assertion aborts it,
which happens with aborting on only. -/
theorem test_main_iff (body : ν → List Assertion) (entries : List ν) :
    (∀ ran, Converges (testMain true body entries) (.returned ran) ↔
      entries.Nodup ∧ (∀ entry ∈ entries, Passes body entry) ∧ ran = entries.reverse) ∧
    (∀ ran, Converges (testMain false body entries) (.returned ran) ↔
      entries.Nodup ∧ ran = entries.reverse) ∧
    (∀ front entry back, entries.reverse = front ++ entry :: back → entries.Nodup →
      (∀ x ∈ front, Passes body x) → ¬Passes body entry →
        Converges (testMain true body entries) (.aborted (front ++ [entry]))) ∧
    (¬entries.Nodup → ∀ fuel, testMain false body entries fuel = outOfFuel) ∧
    (¬entries.Nodup → (∀ fuel, testMain true body entries fuel = outOfFuel) ∨
      ∃ front, ∃ last ∈ entries, (∀ x ∈ front, Passes body x) ∧ ¬Passes body last ∧
        Converges (testMain true body entries) (.aborted (front ++ [last]))) := by
  have hpasses : ∀ entry, runTest true (body entry) = true ↔ Passes body entry := by
    intro entry
    simp [runTest_iff]
  have hfails : ∀ entry, runTest true (body entry) = false ↔ ¬Passes body entry := by
    intro entry
    rw [← hpasses, Bool.not_eq_true]
  have hreturned := fun abortOnFail => main_returned_iff (fun entry => runTest abortOnFail
    (body entry)) entries
  refine ⟨?_, ?_, ?_, ?_, ?_⟩
  · intro ran
    have htrue := hreturned true ran
    simp only [hpasses] at htrue
    exact htrue
  · intro ran
    have hfalse := hreturned false ran
    simp only [runTest_iff, Bool.false_eq_true, IsEmpty.forall_iff, implies_true, true_and]
      at hfalse
    exact hfalse
  · intro front entry back hsplit hnodup hpass hfail
    apply main_aborted hsplit hnodup
    · intro x hx
      exact (hpasses x).mpr (hpass x hx)
    · exact (hfails entry).mpr hfail
  · intro hagain
    cases main_again hagain with
    | inl hruns => exact hruns
    | inr haborts =>
      obtain ⟨front, last, -, -, hfail, -⟩ := haborts
      rw [(runTest_iff false body last).mpr nofun] at hfail
      cases hfail
  · intro hagain
    cases main_again hagain with
    | inl hruns => exact Or.inl hruns
    | inr haborts =>
      obtain ⟨front, last, hlast, hfront, hfail, haborted⟩ := haborts
      exact Or.inr ⟨front, last, hlast, fun x hx => (hpasses x).mp (hfront x hx),
        (hfails last).mp hfail, haborted⟩

/-- Two tests, and the first one registered again behind them. -/
example : testMain true (fun _ => []) [0, 1, 0] 9 = outOfFuel := by rfl

end Register

end Libdane.Testing
