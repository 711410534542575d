import Mathlib.Tactic

/-!
# Little-endian words in a byte memory

A memory maps addresses to bytes. A word of `n` bytes is stored with its low byte first; loading
it back gives the word modulo `256 ^ n`, and a store changes no byte outside its `n` addresses.
-/

namespace LittleEndian

/-- Store the low `n` bytes of `value` from `addr` on. -/
def store (mem : Nat → UInt8) (addr : Nat) : Nat → Nat → Nat → UInt8
  | 0, _ => mem
  | n + 1, value =>
    Function.update (store mem (addr + 1) n (value / 256)) addr (UInt8.ofNat value)

/-- The word of `n` bytes that starts at `addr`. -/
def load (mem : Nat → UInt8) : Nat → Nat → Nat
  | _, 0 => 0
  | addr, n + 1 => (mem addr).toNat + 256 * load mem (addr + 1) n

theorem store_outside (mem : Nat → UInt8) {addr n probe : Nat} (value : Nat)
    (h : probe < addr ∨ addr + n ≤ probe) : store mem addr n value probe = mem probe := by
  induction n generalizing addr value with
  | zero => rfl
  | succ n ih =>
    have hne : probe ≠ addr := by omega
    rw [store, Function.update_of_ne hne]
    exact ih (value / 256) (by omega)

theorem load_congr {mem other : Nat → UInt8} {addr n : Nat}
    (h : ∀ k < n, mem (addr + k) = other (addr + k)) : load mem addr n = load other addr n := by
  induction n generalizing addr with
  | zero => rfl
  | succ n ih =>
    have hhead := h 0 (by omega)
    have htail : load mem (addr + 1) n = load other (addr + 1) n := by
      apply ih
      intro k hk
      have := h (k + 1) (by omega)
      rwa [show addr + (k + 1) = addr + 1 + k by omega] at this
    simp only [Nat.add_zero] at hhead
    rw [load, load, hhead, htail]

theorem load_lt (mem : Nat → UInt8) (addr n : Nat) : load mem addr n < 256 ^ n := by
  induction n generalizing addr with
  | zero => simp [load]
  | succ n ih =>
    have hbyte := (mem addr).toNat_lt
    have hrest := ih (addr + 1)
    rw [load, pow_succ]
    omega

theorem load_store (mem : Nat → UInt8) (addr n value : Nat) :
    load (store mem addr n value) addr n = value % 256 ^ n := by
  induction n generalizing addr value with
  | zero => simp [load, Nat.mod_one]
  | succ n ih =>
    have htail : load (store mem addr (n + 1) value) (addr + 1) n = value / 256 % 256 ^ n := by
      rw [← ih (addr + 1) (value / 256)]
      apply load_congr
      intro k _
      rw [store, Function.update_of_ne (by omega)]
    have hhead : (store mem addr (n + 1) value addr).toNat = value % 256 := by
      rw [store, Function.update_self]
      simp
    rw [load, htail, hhead, pow_succ, Nat.mul_comm (256 ^ n) 256, Nat.mod_mul]

theorem load_store_outside (mem : Nat → UInt8) {addr n probe : Nat} (value : Nat)
    (h : probe + n ≤ addr ∨ addr + n ≤ probe) : load (store mem addr n value) probe n = load mem probe n :=
  load_congr fun _ _ => store_outside mem value (by omega)

end LittleEndian
