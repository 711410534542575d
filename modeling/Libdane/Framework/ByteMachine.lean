import Mathlib.Logic.Function.Basic
import Mathlib.Tactic

/-!
# A machine with byte memory

Programs read and write single bytes. A memory maps the addresses a program may touch, so that an
access outside of it is a fault, and loops run on fuel. A program converges when every large enough
amount of fuel gives the same answer.
-/

namespace ByteMachine

inductive Exec (ρ : Type) where
  | ret (r : ρ)
  | fault
  | outOfFuel
  deriving DecidableEq

namespace Exec

variable {ρ τ : Type}

def bind : Exec ρ → (ρ → Exec τ) → Exec τ
  | ret r, next => next r
  | fault, _ => fault
  | outOfFuel, _ => outOfFuel

/-- The same program with another form of its answer. -/
def map (f : ρ → τ) : Exec ρ → Exec τ
  | ret r => ret (f r)
  | fault => fault
  | outOfFuel => outOfFuel

instance : Monad Exec where
  pure := ret
  bind := bind

@[simp] theorem ret_bind (r : ρ) (next : ρ → Exec τ) : (ret r >>= next) = next r := rfl

@[simp] theorem fault_bind (next : ρ → Exec τ) : ((fault : Exec ρ) >>= next) = fault := rfl

@[simp] theorem map_ret (f : ρ → τ) (r : ρ) : map f (ret r) = ret (f r) := rfl

@[simp] theorem map_fault (f : ρ → τ) : map f fault = fault := rfl

theorem map_bind {υ : Type} (f : τ → υ) (first : Exec ρ) (next : ρ → Exec τ) :
    map f (first >>= next) = first >>= fun r => map f (next r) := by
  cases first <;> rfl

theorem map_congr_of_ret {f g : ρ → τ} {e : Exec ρ} (h : ∀ r, e = ret r → f r = g r) :
    map f e = map g e := by
  cases e with
  | ret r => rw [map_ret, map_ret, h r rfl]
  | fault | outOfFuel => rfl

theorem eq_ret_of_map {f : ρ → τ} {e : Exec ρ} {t : τ} (h : map f e = ret t) :
    ∃ r, e = ret r ∧ f r = t := by
  cases e with
  | ret r =>
    rw [map_ret] at h
    cases h
    exact ⟨r, rfl, rfl⟩
  | fault => cases h
  | outOfFuel => cases h

theorem eq_ret_of_bind {first : Exec ρ} {next : ρ → Exec τ} {t : τ}
    (h : (first >>= next) = ret t) : ∃ r, first = ret r ∧ next r = ret t := by
  cases first with
  | ret r => exact ⟨r, rfl, h⟩
  | fault => cases h
  | outOfFuel => cases h

theorem bind_congr_of_ret {first first' : Exec ρ} {next next' : ρ → Exec τ} (h : first' = first)
    (hnext : ∀ r, first = ret r → next' r = next r) : (first' >>= next') = (first >>= next) := by
  rw [h]
  cases first with
  | ret r => exact hnext r rfl
  | fault => rfl
  | outOfFuel => rfl

theorem bind_ne_outOfFuel {first : Exec ρ} {next : ρ → Exec τ} (h : first ≠ outOfFuel)
    (hnext : ∀ r, first = ret r → next r ≠ outOfFuel) : (first >>= next) ≠ outOfFuel := by
  cases first with
  | ret r => exact hnext r rfl
  | fault => simp
  | outOfFuel => exact absurd rfl h

end Exec

open Exec

abbrev Mem : Type := Nat → Option UInt8

namespace Mem

/-- The memory that holds exactly the given bytes from an address on. -/
def ofBytes (start : Nat) (bytes : List UInt8) : Mem := fun address =>
  if start ≤ address then bytes[address - start]? else none

def load (m : Mem) (address : Nat) : Exec UInt8 :=
  match m address with
  | some byte => ret byte
  | none => fault

/-- The byte in front of an address. -/
def loadBefore (m : Mem) : Nat → Exec UInt8
  | 0 => fault
  | address + 1 => m.load address

def store (m : Mem) (address : Nat) (byte : UInt8) : Exec Mem :=
  match m address with
  | some _ => ret (Function.update m address (some byte))
  | none => fault

/-- `memcpy` between two memories. -/
def copy (dst : Mem) (target : Nat) (src : Mem) (start : Nat) : Nat → Exec Mem
  | 0 => ret dst
  | n + 1 => do
    let byte ← src.load start
    let dst ← dst.store target byte
    copy dst (target + 1) src (start + 1) n

/-- `memcmp` between two memories, which may read all the bytes of both. -/
def compare (m : Mem) (start : Nat) (other : Mem) (target : Nat) : Nat → Exec Ordering
  | 0 => ret .eq
  | n + 1 => do
    let first ← m.load start
    let second ← other.load target
    let rest ← compare m (start + 1) other (target + 1) n
    ret ((Ord.compare first second).then rest)

/-- The memory holds the bytes from an address on. -/
def Holds (m : Mem) (start : Nat) (bytes : List UInt8) : Prop :=
  ∀ k byte, bytes[k]? = some byte → m (start + k) = some byte

def Writable (m : Mem) (start n : Nat) : Prop := ∀ k < n, (m (start + k)).isSome

variable {m dst src : Mem} {start target address n : Nat} {bytes more : List UInt8} {byte : UInt8}

@[simp] theorem holds_nil : m.Holds start [] := by
  intro k byte h
  simp at h

theorem holds_cons : m.Holds start (byte :: bytes) ↔
    m start = some byte ∧ m.Holds (start + 1) bytes := by
  constructor
  · intro h
    refine ⟨h 0 byte rfl, ?_⟩
    intro k b hb
    have hk := h (k + 1) b hb
    rwa [Nat.add_comm k 1, ← Nat.add_assoc] at hk
  · rintro ⟨hhead, htail⟩ k b hb
    cases k with
    | zero =>
      simp only [List.getElem?_cons_zero, Option.some.injEq] at hb
      rw [← hb]
      exact hhead
    | succ k =>
      have hk := htail k b hb
      rwa [Nat.add_assoc, Nat.add_comm 1 k] at hk

theorem holds_append : m.Holds start (bytes ++ more) ↔
    m.Holds start bytes ∧ m.Holds (start + bytes.length) more := by
  induction bytes generalizing start with
  | nil => simp
  | cons byte bytes ih =>
    rw [List.cons_append, holds_cons, ih, holds_cons, List.length_cons, Nat.add_assoc,
      Nat.add_comm 1 bytes.length, and_assoc]

theorem holds_ofBytes (start : Nat) (bytes : List UInt8) :
    (ofBytes start bytes).Holds start bytes := by
  intro k byte h
  simpa [ofBytes] using h

theorem ofBytes_eq_some (h : ofBytes start bytes address = some byte) :
    ∃ k < bytes.length, address = start + k ∧ bytes[k]? = some byte := by
  unfold ofBytes at h
  split at h
  · next hle =>
    obtain ⟨hlt, -⟩ := List.getElem?_eq_some_iff.mp h
    exact ⟨address - start, hlt, by omega, h⟩
  · cases h

@[simp] theorem load_eq_ret : m.load address = ret byte ↔ m address = some byte := by
  unfold load
  cases m address <;> simp

theorem loadBefore_eq_ret : m.loadBefore address = ret byte ↔
    ∃ previous, address = previous + 1 ∧ m previous = some byte := by
  cases address <;> simp [loadBefore]

theorem store_eq_ret (h : (m address).isSome) :
    m.store address byte = ret (Function.update m address (some byte)) := by
  obtain ⟨old, hold⟩ := Option.isSome_iff_exists.mp h
  simp [store, hold]

theorem store_eq_fault (h : m address = none) : m.store address byte = fault := by
  simp [store, h]

theorem holds_of_agree {other : Mem} (h : m.Holds start bytes)
    (hagree : ∀ x, start ≤ x → x < start + bytes.length → other x = m x) :
    other.Holds start bytes := by
  intro k byte hk
  have hlt := (List.getElem?_eq_some_iff.mp hk).1
  rw [hagree _ (by omega) (by omega)]
  exact h k byte hk

theorem copy_holds (hsrc : src.Holds start bytes) (hdst : dst.Writable target bytes.length) :
    ∃ after, copy dst target src start bytes.length = ret after ∧ after.Holds target bytes ∧
      (∀ x, x < target ∨ target + bytes.length ≤ x → after x = dst x) ∧
      ∀ x, (after x).isSome = (dst x).isSome := by
  induction bytes generalizing dst start target with
  | nil => exact ⟨dst, rfl, holds_nil, fun x _ => rfl, fun x => rfl⟩
  | cons byte bytes ih =>
    obtain ⟨hbyte, hrest⟩ := holds_cons.mp hsrc
    have hto : (dst target).isSome := hdst 0 (Nat.succ_pos _)
    have hsome : ∀ x, (Function.update dst target (some byte) x).isSome = (dst x).isSome := by
      intro x
      by_cases hx : x = target
      · rw [hx, Function.update_self, hto]
        rfl
      · rw [Function.update_of_ne hx]
    have hdst' : Writable (Function.update dst target (some byte)) (target + 1) bytes.length := by
      intro k hk
      rw [hsome, Nat.add_assoc, Nat.add_comm 1 k]
      exact hdst (k + 1) (Nat.succ_lt_succ hk)
    obtain ⟨after, hcopy, hholds, hframe, hafter⟩ := ih hrest hdst'
    refine ⟨after, ?_, ?_, ?_, fun x => (hafter x).trans (hsome x)⟩
    · rw [List.length_cons, copy, load_eq_ret.mpr hbyte, ret_bind, store_eq_ret hto, ret_bind]
      exact hcopy
    · refine holds_cons.mpr ⟨?_, hholds⟩
      rw [hframe target (Or.inl (Nat.lt_succ_self target)), Function.update_self]
    · intro x hx
      rw [List.length_cons] at hx
      rw [hframe x (by omega), Function.update_of_ne (by omega)]

theorem copy_cases (dst : Mem) (target : Nat) (src : Mem) (start n : Nat) :
    (∃ bytes : List UInt8, bytes.length = n ∧ src.Holds start bytes ∧ dst.Writable target n) ∨
      copy dst target src start n = fault := by
  induction n generalizing dst target start with
  | zero => exact Or.inl ⟨[], rfl, holds_nil, fun k hk => absurd hk (Nat.not_lt_zero k)⟩
  | succ n ih =>
    cases hbyte : src start with
    | none =>
      right
      simp [copy, load, hbyte]
    | some byte =>
      cases hto : dst target with
      | none =>
        right
        rw [copy, load_eq_ret.mpr hbyte, ret_bind, store_eq_fault hto, fault_bind]
      | some old =>
        have hsome : (dst target).isSome := by rw [hto]; rfl
        rcases ih (Function.update dst target (some byte)) (target + 1) (start + 1) with
          ⟨bytes, hlen, hholds, hwritable⟩ | hfault
        · refine Or.inl ⟨byte :: bytes, by simp [hlen], holds_cons.mpr ⟨hbyte, hholds⟩, ?_⟩
          intro k hk
          cases k with
          | zero => exact hsome
          | succ k =>
            have hk' := hwritable k (Nat.lt_of_succ_lt_succ hk)
            rw [Function.update_of_ne (by omega)] at hk'
            rwa [Nat.add_assoc, Nat.add_comm 1 k] at hk'
        · right
          rw [copy, load_eq_ret.mpr hbyte, ret_bind, store_eq_ret hsome, ret_bind]
          exact hfault

theorem load_ne_outOfFuel (m : Mem) (address : Nat) : m.load address ≠ outOfFuel := by
  unfold load
  cases m address <;> simp

theorem loadBefore_ne_outOfFuel (m : Mem) (address : Nat) : m.loadBefore address ≠ outOfFuel := by
  cases address with
  | zero => simp [loadBefore]
  | succ previous => exact m.load_ne_outOfFuel previous

theorem store_ne_outOfFuel (m : Mem) (address : Nat) (byte : UInt8) :
    m.store address byte ≠ outOfFuel := by
  unfold store
  cases m address <;> simp

theorem copy_ne_outOfFuel (dst : Mem) (target : Nat) (src : Mem) (start n : Nat) :
    dst.copy target src start n ≠ outOfFuel := by
  induction n generalizing dst target start with
  | zero => simp [copy]
  | succ n ih =>
    apply bind_ne_outOfFuel (src.load_ne_outOfFuel start)
    intro byte _
    exact bind_ne_outOfFuel (dst.store_ne_outOfFuel target byte) fun after _ => ih _ _ _

theorem copy_congr {other : Mem} (dst : Mem) (target : Nat)
    (h : ∀ x, start ≤ x → x < start + n → other x = src x) :
    dst.copy target other start n = dst.copy target src start n := by
  induction n generalizing dst target start with
  | zero => rfl
  | succ n ih =>
    have hload : other.load start = src.load start := by
      rw [load, load, h start le_rfl (by omega)]
    rw [copy, copy, hload]
    congr 1
    funext byte
    congr 1
    funext after
    exact ih after (target + 1) fun x hlo hhi => h x (by omega) (by omega)

theorem copy_run {after : Mem} (h : dst.copy target src start n = ret after) :
    ∃ bytes, bytes.length = n ∧ src.Holds start bytes ∧ after.Holds target bytes ∧
      (∀ x, x < target ∨ target + n ≤ x → after x = dst x) ∧
      ∀ x, (after x).isSome = (dst x).isSome := by
  cases copy_cases dst target src start n with
  | inl hmoves =>
    obtain ⟨bytes, rfl, hholds, hwritable⟩ := hmoves
    obtain ⟨after', hcopy, hafter, hframe, hsome⟩ := copy_holds hholds hwritable
    rw [h] at hcopy
    cases hcopy
    exact ⟨bytes, rfl, hholds, hafter, hframe, hsome⟩
  | inr hfault =>
    rw [h] at hfault
    cases hfault

theorem copy_update {x : Nat} (b : UInt8) (hx : x < target) :
    copy (Function.update dst x (some b)) target src start n =
      map (fun after => Function.update after x (some b)) (copy dst target src start n) := by
  induction n generalizing dst start target with
  | zero => rfl
  | succ n ih =>
    rw [copy, copy]
    cases hbyte : src start with
    | none => simp [load, hbyte]
    | some byte =>
      rw [load_eq_ret.mpr hbyte, ret_bind, ret_bind]
      have hne : target ≠ x := by omega
      cases hto : dst target with
      | none =>
        have hto' : Function.update dst x (some b) target = none := by
          rw [Function.update_of_ne hne, hto]
        rw [store_eq_fault hto, store_eq_fault hto', fault_bind, map_fault]
      | some old =>
        have hsome : (dst target).isSome := by rw [hto]; rfl
        have hsome' : (Function.update dst x (some b) target).isSome := by
          rw [Function.update_of_ne hne]
          exact hsome
        rw [store_eq_ret hsome, store_eq_ret hsome', ret_bind, ret_bind,
          Function.update_comm hne.symm]
        exact ih (by omega)

theorem compare_holds {other : Mem} {bytes' : List UInt8} (hlen : bytes.length = bytes'.length)
    (h : m.Holds start bytes) (h' : other.Holds target bytes') :
    ∃ order, m.compare start other target bytes.length = ret order ∧
      (order = .eq ↔ bytes = bytes') := by
  induction bytes generalizing start target bytes' with
  | nil =>
    rw [List.length_nil, eq_comm, List.length_eq_zero_iff] at hlen
    exact ⟨.eq, rfl, iff_of_true rfl hlen.symm⟩
  | cons byte bytes ih =>
    cases bytes' with
    | nil => simp at hlen
    | cons byte' bytes' =>
      obtain ⟨hbyte, hrest⟩ := holds_cons.mp h
      obtain ⟨hbyte', hrest'⟩ := holds_cons.mp h'
      obtain ⟨order, hcompare, horder⟩ := ih (by simpa using hlen) hrest hrest'
      refine ⟨(Ord.compare byte byte').then order, ?_, ?_⟩
      · rw [List.length_cons, compare, load_eq_ret.mpr hbyte, ret_bind, load_eq_ret.mpr hbyte',
          ret_bind, hcompare, ret_bind]
      · rw [Ordering.then_eq_eq, Std.LawfulEqOrd.compare_eq_iff_eq, horder, List.cons.injEq]

theorem compare_fault {other : Mem} {k : Nat} (hk : k < n) (h : other (target + k) = none) :
    m.compare start other target n = fault := by
  induction n generalizing start target k with
  | zero => omega
  | succ n ih =>
    rw [compare]
    cases hfirst : m start with
    | none => simp [load, hfirst]
    | some first =>
      rw [load_eq_ret.mpr hfirst, ret_bind]
      cases hsecond : other target with
      | none => simp [load, hsecond]
      | some second =>
        cases k with
        | zero =>
          rw [Nat.add_zero, hsecond] at h
          cases h
        | succ k =>
          have hrest : m.compare (start + 1) other (target + 1) n = fault := by
            apply ih (Nat.lt_of_succ_lt_succ hk)
            rwa [Nat.add_assoc, Nat.add_comm 1 k]
          rw [load_eq_ret.mpr hsecond, ret_bind, hrest, fault_bind]

end Mem

variable {σ ρ : Type}

/-- A loop whose body goes on with a state or leaves with an answer. -/
def loop (body : σ → Exec (σ ⊕ ρ)) : Nat → σ → Exec ρ
  | 0, _ => outOfFuel
  | fuel + 1, s => do
    match ← body s with
    | .inl next => loop body fuel next
    | .inr r => ret r

theorem loop_next {body : σ → Exec (σ ⊕ ρ)} {s next : σ} (fuel : Nat)
    (h : body s = ret (.inl next)) : loop body (fuel + 1) s = loop body fuel next := by
  simp [loop, h]

theorem loop_done {body : σ → Exec (σ ⊕ ρ)} {s : σ} {r : ρ} (fuel : Nat)
    (h : body s = ret (.inr r)) : loop body (fuel + 1) s = ret r := by
  simp [loop, h]

theorem loop_fault {body : σ → Exec (σ ⊕ ρ)} {s : σ} (fuel : Nat) (h : body s = fault) :
    loop body (fuel + 1) s = fault := by
  simp [loop, h]

theorem loop_stuck {body : σ → Exec (σ ⊕ ρ)} {s : σ} (h : body s = ret (.inl s)) (fuel : Nat) :
    loop body fuel s = outOfFuel := by
  induction fuel with
  | zero => rfl
  | succ fuel ih => rw [loop_next fuel h, ih]

/-- Every large enough amount of fuel gives the answer. -/
def Converges (program : Nat → Exec ρ) (r : ρ) : Prop :=
  ∃ enough, ∀ fuel, enough ≤ fuel → program fuel = ret r

theorem Converges.ret (r : ρ) : Converges (fun _ => ret r) r := ⟨0, fun _ _ => rfl⟩

theorem Converges.unique {program : Nat → Exec ρ} {r r' : ρ} (h : Converges program r)
    (h' : Converges program r') : r = r' := by
  obtain ⟨enough, hr⟩ := h
  obtain ⟨enough', hr'⟩ := h'
  have hboth := (hr (max enough enough') (le_max_left _ _)).symm.trans
    (hr' (max enough enough') (le_max_right _ _))
  cases hboth
  rfl

theorem Converges.bind {τ : Type} {program : Nat → Exec ρ} {next : ρ → Nat → Exec τ} {r : ρ} {t : τ}
    (hr : Converges program r) (ht : Converges (next r) t) :
    Converges (fun fuel => program fuel >>= fun r => next r fuel) t := by
  obtain ⟨enough, hr⟩ := hr
  obtain ⟨enough', ht⟩ := ht
  refine ⟨max enough enough', ?_⟩
  intro fuel hfuel
  show (program fuel >>= fun r => next r fuel) = Exec.ret t
  rw [hr fuel ((le_max_left _ _).trans hfuel), ret_bind, ht fuel ((le_max_right _ _).trans hfuel)]

end ByteMachine
