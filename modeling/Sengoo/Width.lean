import Mathlib.Data.BitVec
import Mathlib.Tactic

/-!
Fixed-width integers read as mathematical ones. A signed or unsigned reading of
`w` bits is an integer in the range of the width, every bit vector is the image
of its reading, and widening keeps the reading. An operation at two widths can
then be compared through the one exact integer that both represent.
-/

namespace Sengoo.Width

open BitVec

variable {w v : Nat} {signed : Bool}

/-- The integer that `w` bits stand for. -/
def toInteger (signed : Bool) (x : BitVec w) : Int :=
  if signed then x.toInt else x.toNat

def InRange (signed : Bool) (w : Nat) (z : Int) : Prop :=
  if signed then -2 ^ (w - 1) ≤ z ∧ z < 2 ^ (w - 1) else 0 ≤ z ∧ z < 2 ^ w

instance (signed : Bool) (w : Nat) (z : Int) : Decidable (InRange signed w z) := by
  unfold InRange
  infer_instance

/-- Sign extension or zero extension. -/
def extend (signed : Bool) (v : Nat) (x : BitVec w) : BitVec v :=
  if signed then x.signExtend v else x.setWidth v

@[simp] theorem ofInt_toInteger (x : BitVec w) : BitVec.ofInt w (toInteger signed x) = x := by
  cases signed with
  | false | true => simp [toInteger]

theorem inRange_toInteger (x : BitVec w) : InRange signed w (toInteger signed x) := by
  cases signed with
  | false =>
    have hlt : (x.toNat : Int) < 2 ^ w := by exact_mod_cast x.isLt
    exact ⟨Int.natCast_nonneg _, hlt⟩
  | true => exact ⟨le_toInt x, toInt_lt⟩

theorem toInteger_ofInt {z : Int} (hw : 0 < w) (h : InRange signed w z) :
    toInteger signed (BitVec.ofInt w z) = z := by
  cases signed with
  | false =>
    obtain ⟨hnonneg, hlt⟩ := h
    have hmod : z % 2 ^ w = z := Int.emod_eq_of_lt hnonneg hlt
    simp [toInteger, hmod, hnonneg]
  | true =>
    obtain ⟨hlow, hhigh⟩ := h
    have hpow : (2 : Int) ^ w = 2 * 2 ^ (w - 1) := by
      obtain ⟨k, rfl⟩ : ∃ k, w = k + 1 := ⟨w - 1, by omega⟩
      rw [Nat.add_sub_cancel]
      ring
    simp only [toInteger, toInt_ofInt]
    apply Int.bmod_eq_of_le_mul_two <;> push_cast <;> omega

theorem InRange.mono {z : Int} (hw : 0 < w) (hwv : w ≤ v) (h : InRange signed w z) :
    InRange signed v z := by
  cases signed with
  | false =>
    have hpow : (2 : Int) ^ w ≤ 2 ^ v := pow_le_pow_right₀ (by norm_num) hwv
    exact ⟨h.1, lt_of_lt_of_le h.2 hpow⟩
  | true =>
    have hpow : (2 : Int) ^ (w - 1) ≤ 2 ^ (v - 1) :=
      pow_le_pow_right₀ (by norm_num) (by omega)
    exact ⟨le_trans (neg_le_neg hpow) h.1, lt_of_lt_of_le h.2 hpow⟩

theorem extend_eq_ofInt (x : BitVec w) :
    extend signed v x = BitVec.ofInt v (toInteger signed x) := by
  cases signed with
  | false => simp [extend, toInteger]
  | true => rfl

theorem setWidth_ofInt (hvw : v ≤ w) (z : Int) :
    (BitVec.ofInt w z).setWidth v = BitVec.ofInt v z := by
  have hdvd : (2 : Int) ^ v ∣ 2 ^ w := pow_dvd_pow 2 hvw
  have hnonneg : 0 ≤ z % 2 ^ w := Int.emod_nonneg _ (by positivity)
  apply eq_of_toNat_eq
  zify
  simp only [toNat_setWidth, toNat_ofInt]
  push_cast
  rw [Int.toNat_of_nonneg hnonneg, Int.emod_emod_of_dvd z hdvd,
    Int.toNat_of_nonneg (Int.emod_nonneg _ (by positivity))]

/-- A value in range of the narrow width is the extension of its low bits. -/
theorem extend_ofInt {z : Int} (hw : 0 < w) (h : InRange signed w z) :
    extend signed v (BitVec.ofInt w z) = BitVec.ofInt v z := by
  rw [extend_eq_ofInt, toInteger_ofInt hw h]

/-- The wide reading of an extended value is the narrow reading of its bits. -/
theorem toInteger_extend (hw : 0 < w) (hwv : w ≤ v) (x : BitVec w) :
    toInteger signed (extend signed v x) = toInteger signed x := by
  rw [extend_eq_ofInt, toInteger_ofInt (by omega)]
  exact (inRange_toInteger x).mono hw hwv

/-- Below the top bit both readings agree. -/
theorem toInt_extend_unsigned (hwv : w < v) (x : BitVec w) :
    (extend false v x).toInt = x.toNat := by
  have hrange : InRange true v (x.toNat : Int) := by
    have hlt : (x.toNat : Int) < 2 ^ w := by exact_mod_cast x.isLt
    have hpow : (2 : Int) ^ w ≤ 2 ^ (v - 1) := pow_le_pow_right₀ (by norm_num) (by omega)
    exact ⟨by omega, by omega⟩
  rw [extend_eq_ofInt]
  exact toInteger_ofInt (by omega) hrange

section Operators

theorem toInteger_inj {x y : BitVec w} : toInteger signed x = toInteger signed y ↔ x = y := by
  constructor
  · intro h
    rw [← @ofInt_toInteger w signed x, h, ofInt_toInteger]
  · rintro rfl
    rfl

theorem toInteger_eq_zero {x : BitVec w} : toInteger signed x = 0 ↔ x = 0 := by
  have hzero : toInteger signed (0 : BitVec w) = 0 := by
    cases signed <;> simp [toInteger]
  rw [← hzero, toInteger_inj]

theorem decide_toInteger_lt (x y : BitVec w) :
    decide (toInteger signed x < toInteger signed y) = if signed then x.slt y else x.ult y := by
  cases signed <;> simp [toInteger, BitVec.slt, BitVec.ult]

theorem decide_toInteger_le (x y : BitVec w) :
    decide (toInteger signed x ≤ toInteger signed y) = if signed then x.sle y else x.ule y := by
  cases signed <;> simp [toInteger, BitVec.sle, BitVec.ule]

theorem ofInt_sub (x y : Int) : BitVec.ofInt w (x - y) = BitVec.ofInt w x - BitVec.ofInt w y := by
  rw [Int.sub_eq_add_neg, ofInt_add, ofInt_neg, sub_eq_add_neg]

theorem ofInt_tdiv (x y : BitVec w) :
    BitVec.ofInt w ((toInteger signed x).tdiv (toInteger signed y)) =
      if signed then x.sdiv y else x / y := by
  cases signed with
  | false =>
    have hread : toInteger false (x / y) = (toInteger false x).tdiv (toInteger false y) := by
      simp [toInteger]
    rw [← hread, ofInt_toInteger]
    rfl
  | true =>
    apply eq_of_toInt_eq
    simp [toInteger, toInt_sdiv]

theorem ofInt_tmod (x y : BitVec w) :
    BitVec.ofInt w ((toInteger signed x).tmod (toInteger signed y)) =
      if signed then x.srem y else x % y := by
  have hread : toInteger signed (if signed then x.srem y else x % y) =
      (toInteger signed x).tmod (toInteger signed y) := by
    cases signed with
    | false => simp [toInteger, Int.tmod_eq_emod_of_nonneg]
    | true => simp [toInteger]
  rw [← hread, ofInt_toInteger]

theorem ofInt_mul_two_pow (x : Int) (k : Nat) :
    BitVec.ofInt w (x * 2 ^ k) = BitVec.ofInt w x <<< k := by
  have hpow : BitVec.ofInt w (2 ^ k) = BitVec.twoPow w k := by
    rw [show (2 : Int) ^ k = ((2 ^ k : Nat) : Int) by push_cast; rfl, ofInt_natCast]
    apply eq_of_toNat_eq
    rw [toNat_ofNat, toNat_twoPow]
  rw [ofInt_mul, shiftLeft_eq_mul_twoPow, hpow]

theorem ofInt_div_two_pow (x : BitVec w) (k : Nat) : BitVec.ofInt w (toInteger signed x / 2 ^ k) =
      if signed then x.sshiftRight k else x >>> k := by
  have hread : toInteger signed (if signed then x.sshiftRight k else x >>> k) =
      toInteger signed x / 2 ^ k := by
    cases signed with
    | false => simp [toInteger, Nat.shiftRight_eq_div_pow]
    | true => simp [toInteger, Int.shiftRight_eq_div_pow]
  rw [← hread, ofInt_toInteger]

/-- A small shift amount has the same signed and unsigned reading. -/
theorem toInteger_of_lt_width {y : BitVec w} (h : y.toNat < w) : toInteger signed y = y.toNat := by
  cases signed with
  | false => rfl
  | true =>
    have hpow : w ≤ 2 ^ (w - 1) := by
      have hself := @Nat.lt_two_pow_self (w - 1)
      omega
    have hlow : 2 * y.toNat < 2 ^ w := by
      obtain ⟨k, rfl⟩ : ∃ k, w = k + 1 := ⟨w - 1, by omega⟩
      rw [Nat.add_sub_cancel] at hpow
      omega
    simp [toInteger, toInt_eq_toNat_of_lt hlow]

/-- A bitwise operator at a wide width, cut to a narrow one. -/
theorem bitwise_eq_ofInt (hvw : v ≤ w) (f : ∀ n, BitVec n → BitVec n → BitVec n)
    (hf : ∀ a b : BitVec w, (f w a b).setWidth v = f v (a.setWidth v) (b.setWidth v))
    (signed : Bool) (x y : BitVec v) : f v x y = BitVec.ofInt v (f w
      (BitVec.ofInt w (toInteger signed x)) (BitVec.ofInt w (toInteger signed y))).toInt := by
  rw [← setWidth_ofInt hvw, ofInt_toInt, hf, setWidth_ofInt hvw, setWidth_ofInt hvw,
    ofInt_toInteger, ofInt_toInteger]

end Operators

end Sengoo.Width
