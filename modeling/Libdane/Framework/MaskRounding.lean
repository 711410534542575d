import Mathlib.Algebra.Order.Floor.Div
import Mathlib.Tactic

/-!
# Rounding by a bit mask

Systems code rounds `value` up to `unit` by adding `unit - 1` and clearing the bits of
`unit - 1`. The bounds hold for every unit, the least multiple comes out for every power of two and
for the other pairs that `MaskFits` names.
Rounding up to a multiple is the least-multiple operation `roundUp`, used at every width.
-/

namespace MaskRounding

/-- The least multiple of `unit` that is at least `value`. -/
def roundUp (value unit : Nat) : Nat := unit * (value ⌈/⌉ unit)

theorem le_roundUp {unit : Nat} (hunit : 0 < unit) (value : Nat) :
    value ≤ roundUp value unit := by
  have h : value ≤ unit • (value ⌈/⌉ unit) := le_smul_ceilDiv hunit
  simpa [roundUp] using h

theorem dvd_roundUp (value unit : Nat) : unit ∣ roundUp value unit := Dvd.intro _ rfl

theorem roundUp_le_iff {unit bound : Nat} (hunit : 0 < unit) (value : Nat) (hb : unit ∣ bound) :
    roundUp value unit ≤ bound ↔ value ≤ bound := by
  obtain ⟨k, rfl⟩ := hb
  rw [roundUp, Nat.mul_le_mul_left_iff hunit, ceilDiv_le_iff_le_mul hunit]

theorem roundUp_le {unit bound value : Nat} (hunit : 0 < unit) (hb : unit ∣ bound)
    (hv : value ≤ bound) : roundUp value unit ≤ bound :=
  (roundUp_le_iff hunit value hb).mpr hv

theorem isLeast_roundUp {unit : Nat} (hunit : 0 < unit) (value : Nat) :
    IsLeast {m | unit ∣ m ∧ value ≤ m} (roundUp value unit) := by
  constructor
  · exact ⟨dvd_roundUp value unit, le_roundUp hunit value⟩
  · intro m hm
    exact roundUp_le hunit hm.1 hm.2

theorem roundUp_lt_add {unit : Nat} (hunit : 0 < unit) (value : Nat) :
    roundUp value unit < value + unit := by
  have hdiv : unit * ((value + unit - 1) / unit) ≤ value + unit - 1 := Nat.mul_div_le _ _
  rw [roundUp, Nat.ceilDiv_eq_add_pred_div]
  omega

theorem roundUp_pos {unit value : Nat} (hunit : 0 < unit) (hv : 0 < value) :
    unit ≤ roundUp value unit :=
  Nat.le_of_dvd (hv.trans_le (le_roundUp hunit value)) (dvd_roundUp value unit)

theorem lt_roundUp_iff {unit bound : Nat} (hunit : 0 < unit) (value : Nat) (hb : unit ∣ bound) :
    bound < roundUp value unit ↔ bound < value := by
  simpa only [not_le] using not_congr (roundUp_le_iff hunit value hb)

/-- Rounding up by a mask, at any width. -/
def maskUp {w : Nat} (value unit : BitVec w) : BitVec w := (value + unit - 1) &&& ~~~(unit - 1)

private theorem toNat_mask_split {w : Nat} (x mask : BitVec w) :
    (x &&& ~~~mask).toNat + (x &&& mask).toNat = x.toNat := by
  have hdisjoint : (x &&& ~~~mask) &&& (x &&& mask) = 0#w := by
    ext i hi
    by_cases hm : mask[i] <;> simp [hm]
  have hsum : (x &&& ~~~mask) + (x &&& mask) = x := by
    rw [BitVec.add_eq_or_of_and_eq_zero _ _ hdisjoint]
    ext i hi
    by_cases hm : mask[i] <;> simp [hm]
  have hor : (x &&& ~~~mask).toNat + (x &&& mask).toNat =
      ((x &&& ~~~mask) + (x &&& mask)).toNat := by
    rw [BitVec.toNat_add_of_and_eq_zero hdisjoint]
  rw [hor, hsum]

private theorem toNat_pred {w : Nat} {unit : BitVec w} (hunit : 0 < unit.toNat) :
    (unit - 1).toNat = unit.toNat - 1 := by
  have hone : (1 : BitVec w).toNat ≤ unit.toNat := by
    simpa using (Nat.mod_le 1 (2 ^ w)).trans hunit
  have hw : 0 < w := by
    rcases Nat.eq_zero_or_pos w with rfl | h
    · have := unit.isLt
      omega
    · exact h
  rw [BitVec.toNat_sub_of_le (by simpa [BitVec.le_def] using hone)]
  simp [Nat.mod_eq_of_lt (Nat.one_lt_two_pow hw.ne')]

private theorem toNat_add_pred {w : Nat} {value unit : BitVec w} (hunit : 0 < unit.toNat)
    (hfit : value.toNat + unit.toNat - 1 < 2 ^ w) :
    (value + unit - 1).toNat = value.toNat + unit.toNat - 1 := by
  have hassoc : value + unit - 1 = value + (unit - 1) := by
    rw [BitVec.sub_eq_add_neg, BitVec.add_assoc, ← BitVec.sub_eq_add_neg]
  rw [hassoc, BitVec.toNat_add, toNat_pred hunit, Nat.mod_eq_of_lt (by omega)]
  omega

theorem toNat_maskUp {w : Nat} {value unit : BitVec w} (hunit : 0 < unit.toNat)
    (hfit : value.toNat + unit.toNat - 1 < 2 ^ w) :
    (maskUp value unit).toNat + ((value.toNat + unit.toNat - 1) &&& (unit.toNat - 1)) =
      value.toNat + unit.toNat - 1 := by
  have hsplit := toNat_mask_split (value + unit - 1) (unit - 1)
  rwa [BitVec.toNat_and (value + unit - 1) (unit - 1), toNat_add_pred hunit hfit,
    toNat_pred hunit] at hsplit

theorem le_toNat_maskUp {w : Nat} {value unit : BitVec w} (hunit : 0 < unit.toNat)
    (hfit : value.toNat + unit.toNat - 1 < 2 ^ w) : value.toNat ≤ (maskUp value unit).toNat := by
  have h := toNat_maskUp hunit hfit
  have hand : (value.toNat + unit.toNat - 1) &&& (unit.toNat - 1) ≤ unit.toNat - 1 :=
    Nat.and_le_right
  omega

theorem toNat_maskUp_le {w : Nat} {value unit : BitVec w} (hunit : 0 < unit.toNat)
    (hfit : value.toNat + unit.toNat - 1 < 2 ^ w) :
    (maskUp value unit).toNat ≤ value.toNat + unit.toNat - 1 := by
  have h := toNat_maskUp hunit hfit
  omega

theorem toNat_maskUp_two_pow {w k : Nat} {value unit : BitVec w} (hunit : unit.toNat = 2 ^ k)
    (hfit : value.toNat + unit.toNat - 1 < 2 ^ w) :
    (maskUp value unit).toNat = roundUp value.toNat unit.toNat := by
  have hpos : 0 < unit.toNat := hunit ▸ Nat.two_pow_pos k
  have h := toNat_maskUp hpos hfit
  have hmod : (value.toNat + unit.toNat - 1) &&& (unit.toNat - 1) =
      (value.toNat + unit.toNat - 1) % unit.toNat := by
    rw [hunit, Nat.and_two_pow_sub_one_eq_mod]
  have hdiv := Nat.div_add_mod (value.toNat + unit.toNat - 1) unit.toNat
  rw [roundUp, Nat.ceilDiv_eq_add_pred_div]
  omega

/-- When the mask rounds to the least multiple: that multiple has no bit of the mask, and what
separates it from the sum has no other bits. -/
def MaskFits (value unit : Nat) : Prop :=
  roundUp value unit &&& (unit - 1) = 0 ∧
    (value + unit - 1) % unit &&& (unit - 1) = (value + unit - 1) % unit

instance (value unit : Nat) : Decidable (MaskFits value unit) :=
  inferInstanceAs (Decidable (_ ∧ _))

theorem roundUp_add_mod {unit : Nat} (value : Nat) :
    roundUp value unit + (value + unit - 1) % unit = value + unit - 1 := by
  rw [roundUp, Nat.ceilDiv_eq_add_pred_div]
  exact Nat.div_add_mod _ _

private theorem add_and_of_disjoint {w multiple rest mask : Nat}
    (hw : multiple + rest < 2 ^ w) (hmultiple : multiple &&& mask = 0)
    (hrest : rest &&& mask = rest) : (multiple + rest) &&& mask = rest := by
  have hdisjoint : multiple &&& rest = 0 := by
    rw [← hrest, Nat.and_comm rest, ← Nat.and_assoc, hmultiple, Nat.zero_and]
  have hbits : BitVec.ofNat w multiple &&& BitVec.ofNat w rest = 0#w := by
    rw [← BitVec.ofNat_and, hdisjoint]
  have hor := congrArg BitVec.toNat (BitVec.add_eq_or_of_and_eq_zero _ _ hbits)
  rw [← BitVec.ofNat_add, BitVec.toNat_ofNat, Nat.mod_eq_of_lt hw, BitVec.toNat_or,
    BitVec.toNat_ofNat, BitVec.toNat_ofNat, Nat.mod_eq_of_lt (by omega),
    Nat.mod_eq_of_lt (by omega)] at hor
  rw [hor, Nat.and_or_distrib_right, hmultiple, hrest, Nat.zero_or]

theorem toNat_maskUp_eq_roundUp_iff {w : Nat} {value unit : BitVec w} (hunit : 0 < unit.toNat)
    (hfit : value.toNat + unit.toNat - 1 < 2 ^ w) :
    (maskUp value unit).toNat = roundUp value.toNat unit.toNat ↔
      MaskFits value.toNat unit.toNat := by
  have h := toNat_maskUp hunit hfit
  have hsum := @roundUp_add_mod unit.toNat value.toNat
  constructor
  · intro hround
    have hmod : (value.toNat + unit.toNat - 1) &&& (unit.toNat - 1) =
        (value.toNat + unit.toNat - 1) % unit.toNat := by omega
    have hclear : maskUp value unit &&& (unit - 1) = 0#w := by
      ext i hi
      simp [maskUp]
    constructor
    · have hnat := congrArg BitVec.toNat hclear
      rwa [BitVec.toNat_and, hround, toNat_pred hunit] at hnat
    · rw [← hmod, Nat.and_assoc, Nat.and_self]
  · intro hfits
    have hmask := add_and_of_disjoint (by rwa [hsum]) hfits.1 hfits.2
    rw [hsum] at hmask
    omega

end MaskRounding
