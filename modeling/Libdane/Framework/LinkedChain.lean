import Mathlib.Data.List.Nodup
import Mathlib.Dynamics.PeriodicPts.Defs
import Mathlib.Logic.Function.Basic

/-!
# Singly linked chains

`Chain next start nodes stop` says that following `next` from `start` visits exactly `nodes`, in
order, and then arrives at `stop`. The update lemmas are the two ways a linked list grows without
moving its other nodes: a new first node, and a new last node behind the old one.
-/

namespace LinkedChain

variable {α : Type _}

def Chain (next : α → α) : α → List α → α → Prop
  | start, [], stop => start = stop
  | start, node :: nodes, stop => start = node ∧ Chain next (next node) nodes stop

@[simp] theorem chain_nil {next : α → α} {start stop : α} :
    Chain next start [] stop ↔ start = stop := Iff.rfl

@[simp] theorem chain_cons {next : α → α} {start node stop : α} {nodes : List α} :
    Chain next start (node :: nodes) stop ↔ start = node ∧ Chain next (next node) nodes stop :=
  Iff.rfl

theorem Chain.congr {next other : α → α} {start stop : α} {nodes : List α}
    (h : Chain next start nodes stop) (hlinks : ∀ node ∈ nodes, other node = next node) :
    Chain other start nodes stop := by
  induction nodes generalizing start with
  | nil => exact h
  | cons node nodes ih =>
    obtain ⟨hstart, hrest⟩ := h
    refine ⟨hstart, ?_⟩
    rw [hlinks node (by simp)]
    exact ih hrest fun other hmem => hlinks other (by simp [hmem])

theorem chain_append {next : α → α} {start stop : α} {front back : List α} :
    Chain next start (front ++ back) stop ↔
      ∃ middle, Chain next start front middle ∧ Chain next middle back stop := by
  induction front generalizing start with
  | nil => simp
  | cons node front ih => simp [ih, and_assoc]

theorem Chain.nil_iff {next : α → α} {start stop : α} {nodes : List α}
    (h : Chain next start nodes stop) (hstop : stop ∉ nodes) : nodes = [] ↔ start = stop := by
  cases nodes with
  | nil => simpa using h
  | cons node nodes =>
    have hne : node ≠ stop := fun he => hstop (by simp [he])
    simpa [h.1] using hne

theorem Chain.unique {next : α → α} {start stop : α} {nodes other : List α}
    (h : Chain next start nodes stop) (h' : Chain next start other stop) (hstop : stop ∉ nodes)
    (hstop' : stop ∉ other) : nodes = other := by
  induction nodes generalizing start other with
  | nil =>
    cases h
    exact ((h'.nil_iff hstop').mpr rfl).symm
  | cons node nodes ih =>
    cases other with
    | nil =>
      cases h'
      exact absurd h.1 fun he => hstop (by simp [← he])
    | cons node' other =>
      obtain ⟨rfl, hrest⟩ := h
      obtain ⟨rfl, hrest'⟩ := h'
      simp only [List.mem_cons, not_or] at hstop hstop'
      rw [ih hrest hrest' hstop.2 hstop'.2]

theorem Chain.iterate {next : α → α} {start stop : α} {nodes : List α}
    (h : Chain next start nodes stop) {k : Nat} (hk : k < nodes.length) :
    nodes[k]? = some (next^[k] start) := by
  induction nodes generalizing start k with
  | nil => cases hk
  | cons node nodes ih =>
    obtain ⟨rfl, hrest⟩ := h
    cases k with
    | zero => rfl
    | succ k => exact ih hrest (Nat.lt_of_succ_lt_succ hk)

theorem Chain.iterate_length {next : α → α} {start stop : α} {nodes : List α}
    (h : Chain next start nodes stop) : next^[nodes.length] start = stop := by
  induction nodes generalizing start with
  | nil => exact h
  | cons node nodes ih =>
    obtain ⟨rfl, hrest⟩ := h
    exact ih hrest

theorem Chain.cycle {next : α → α} {start : α} {nodes : List α}
    (h : Chain next start nodes start) (hne : nodes ≠ []) (n : Nat) :
    nodes[n % nodes.length]? = some (next^[n] start) := by
  have hpos := List.length_pos_iff.mpr hne
  have hperiod : Function.IsPeriodicPt next nodes.length start := h.iterate_length
  rw [h.iterate (Nat.mod_lt n hpos), hperiod.iterate_mod_apply]

theorem chain_range' {next : Nat → Nat} {start n : Nat}
    (h : ∀ i, start ≤ i → i < start + n → next i = i + 1) :
    Chain next start (List.range' start n) (start + n) := by
  induction n generalizing start with
  | zero => simp
  | succ n ih =>
    rw [List.range'_succ, chain_cons, h start (Nat.le_refl _) (by omega)]
    refine ⟨rfl, ?_⟩
    rw [show start + (n + 1) = start + 1 + n by omega]
    exact ih fun i hlo hhi => h i (by omega) (by omega)

variable [DecidableEq α]

theorem Chain.push_front {next : α → α} {start stop node : α} {nodes : List α}
    (h : Chain next start nodes stop) (hnode : node ∉ nodes) :
    Chain (Function.update next node start) node (node :: nodes) stop := by
  refine ⟨rfl, ?_⟩
  rw [Function.update_self]
  apply h.congr
  intro other hmem
  have hne : other ≠ node := fun he => hnode (he ▸ hmem)
  rw [Function.update_of_ne hne]

theorem Chain.push_back {next : α → α} {start stop last node : α} {nodes : List α}
    (h : Chain next start (nodes ++ [last]) stop) (hnodup : (nodes ++ [last]).Nodup)
    (hnode : node ∉ nodes ++ [last]) :
    Chain (Function.update (Function.update next last node) node stop) start
      ((nodes ++ [last]) ++ [node]) stop := by
  have hlast : last ∉ nodes := by
    have hd := List.nodup_append.mp hnodup
    exact fun hmem => hd.2.2 last hmem last (by simp) rfl
  have hne : last ≠ node := fun he => hnode (by simp [he])
  obtain ⟨middle, hfront, hend⟩ := chain_append.mp h
  have hfront' : Chain (Function.update (Function.update next last node) node stop) start nodes
      middle := by
    apply hfront.congr
    intro other hmem
    have hon : other ≠ node := fun he => hnode (by simp [← he, hmem])
    have hol : other ≠ last := fun he => hlast (he ▸ hmem)
    rw [Function.update_of_ne hon, Function.update_of_ne hol]
  rw [List.append_assoc]
  refine chain_append.mpr ⟨middle, hfront', ?_⟩
  refine ⟨hend.1, ?_, ?_⟩
  · rw [Function.update_of_ne hne, Function.update_self]
  · simp

end LinkedChain
