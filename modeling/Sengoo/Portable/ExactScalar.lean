import Sengoo.Codegen.Scalar
import Sengoo.Portable.FromMir
import Sengoo.Portable.WasmScalar

/-!
The integer that a scalar operator stands for. The VM computes it on 64 bits
and the native instruction on the width of its operands; each of them is the
exact integer cut to its own width.
-/

namespace Sengoo.Portable

open Sengoo.Mir Sengoo.Width Sengoo.Codegen Sengoo.Fallible BitVec

def exactUnary (op : PortableUnary) (x : Int) : Int :=
  match op with
  | .neg => -x
  | .not => if x = 0 then 1 else 0
  | .bitNot => -x - 1

variable {result : NativeValue}

/-- The shift amount counts modulo 64, and the bitwise operators act on 64 bits
in two's complement. -/
def exactBinary (op : PortableBinary) (x y : Int) : Int :=
  match op with
  | .add => x + y
  | .sub => x - y
  | .mul => x * y
  | .div => x.tdiv y
  | .rem => x.tmod y
  | .bitAnd => (BitVec.ofInt 64 x &&& BitVec.ofInt 64 y).toInt
  | .bitOr => (BitVec.ofInt 64 x ||| BitVec.ofInt 64 y).toInt
  | .bitXor => (BitVec.ofInt 64 x ^^^ BitVec.ofInt 64 y).toInt
  | .shl => x * 2 ^ (y % 64).toNat
  | .shr => x / 2 ^ (y % 64).toNat
  | .logAnd => if x ≠ 0 ∧ y ≠ 0 then 1 else 0
  | .logOr => if x ≠ 0 ∨ y ≠ 0 then 1 else 0
  | .eq => if x = y then 1 else 0
  | .ne => if x ≠ y then 1 else 0
  | .lt => if x < y then 1 else 0
  | .gt => if y < x then 1 else 0
  | .le => if x ≤ y then 1 else 0
  | .ge => if y ≤ x then 1 else 0

def PortableBinary.isOrdered : PortableBinary → Bool
  | .lt | .gt | .le | .ge => true
  | _ => false

section Vm

theorem i64OfBool_decide (p : Prop) [Decidable p] :
    i64OfBool (decide p) = BitVec.ofInt 64 (if p then 1 else 0) := by
  by_cases h : p <;> simp [h, i64OfBool]

theorem evalUnary_exact (op : PortableUnary) (x : I64) :
    evalUnary op x = BitVec.ofInt 64 (exactUnary op x.toInt) := by
  cases op with
  | neg => simp [evalUnary, exactUnary, ofInt_neg]
  | not =>
    have hzero : x.toInt = 0 ↔ x = 0 := @toInteger_eq_zero 64 true x
    simp only [exactUnary, hzero, ← i64OfBool_decide]
    rfl
  | bitNot =>
    simp only [evalUnary, exactUnary, ofInt_sub, ofInt_neg, ofInt_toInt]
    rw [not_eq_neg_add]
    rfl

theorem toInteger_emod_64 {signed : Bool} (y : I64) :
    (toInteger signed y % 64).toNat = shiftAmount y := by
  rw [shiftAmount_eq]
  cases signed with
  | false => simp only [toInteger, Bool.false_eq_true, if_false]; omega
  | true => simp only [toInteger, toInt_eq_toNat_cond]; split <;> omega

theorem evalBinary_exact {op : PortableBinary} {unsigned : Bool} {x y result : I64}
    (h : evalBinary op unsigned x y = .ok result) :
    result = BitVec.ofInt 64
      (exactBinary op (toInteger (!unsigned) x) (toInteger (!unsigned) y)) := by
  cases op with
  | add =>
    cases h
    simp [exactBinary, ofInt_add]
  | sub =>
    cases h
    simp [exactBinary, ofInt_sub]
  | mul =>
    cases h
    simp [exactBinary, ofInt_mul]
  | div =>
    rw [exactBinary, ofInt_tdiv]
    simp only [evalBinary] at h
    cases unsigned with
    | false | true =>
      obtain ⟨-, h⟩ := of_guard h
      cases h
      rfl
  | rem =>
    rw [exactBinary, ofInt_tmod]
    simp only [evalBinary] at h
    cases unsigned with
    | false | true =>
      obtain ⟨-, h⟩ := of_guard h
      cases h
      rfl
  | bitAnd | bitOr | bitXor =>
    cases h
    rw [exactBinary, ofInt_toInt, ofInt_toInteger, ofInt_toInteger]
  | shl =>
    cases h
    rw [exactBinary, toInteger_emod_64, ofInt_mul_two_pow, ofInt_toInteger]
  | shr =>
    rw [exactBinary, toInteger_emod_64, ofInt_div_two_pow]
    cases unsigned <;> cases h <;> rfl
  | logAnd | logOr =>
    cases h
    simp only [exactBinary, ne_eq, toInteger_eq_zero, ← i64OfBool_decide]
    congr 1
    rw [Bool.eq_iff_iff]
    simp
  | eq =>
    cases h
    simp only [exactBinary, toInteger_inj, ← i64OfBool_decide]
    rfl
  | ne =>
    cases h
    simp only [exactBinary, ne_eq, toInteger_inj, ← i64OfBool_decide]
    congr 1
    rw [Bool.eq_iff_iff]
    simp
  | lt | gt =>
    cases h
    rw [exactBinary, ← i64OfBool_decide, decide_toInteger_lt]
    cases unsigned <;> rfl
  | le | ge =>
    cases h
    rw [exactBinary, ← i64OfBool_decide, decide_toInteger_le]
    cases unsigned <;> rfl

end Vm

section Native

theorem ofInt_one_ite (p : Prop) [Decidable p] :
    BitVec.ofInt 1 (if p then 1 else 0) = BitVec.ofBool (decide p) := by
  by_cases h : p <;> simp [h]

/-- A shift amount below the width is the amount modulo 64 of its reading. -/
theorem exact_shiftAmount {w : Nat} {signed : Bool} (hw : w ≤ 64) {y : BitVec w}
    (hy : y.toNat < w) :
    (toInteger signed y % 64).toNat = y.toNat := by
  rw [toInteger_of_lt_width hy]
  omega

/-- An LLVM instruction computes the exact integer of its operator, cut to the
width of its result. -/
theorem llvmBinary_exact {w : Nat} {unsigned : Bool} {op : MirBinOp} {x y : BitVec w} (hw : w ≤ 64)
    (h : llvmBinary op unsigned x y = some result) :
    result.bits = BitVec.ofInt result.width
      (exactBinary (.ofMir op) (toInteger (!unsigned) x) (toInteger (!unsigned) y)) := by
  cases op with
  | add =>
    cases h
    simp [PortableBinary.ofMir, exactBinary, ofInt_add]
  | sub =>
    cases h
    simp [PortableBinary.ofMir, exactBinary, ofInt_sub]
  | mul =>
    cases h
    simp [PortableBinary.ofMir, exactBinary, ofInt_mul]
  | div =>
    obtain ⟨-, h⟩ := Option.ite_none_right_eq_some.mp h
    cases h
    rw [PortableBinary.ofMir, exactBinary, ofInt_tdiv]
    cases unsigned <;> rfl
  | rem =>
    obtain ⟨-, h⟩ := Option.ite_none_right_eq_some.mp h
    cases h
    rw [PortableBinary.ofMir, exactBinary, ofInt_tmod]
    cases unsigned <;> rfl
  | bitAnd =>
    cases h
    exact bitwise_eq_ofInt hw (fun _ a b => a &&& b) (by simp) _ x y
  | bitOr =>
    cases h
    exact bitwise_eq_ofInt hw (fun _ a b => a ||| b) (by simp) _ x y
  | bitXor =>
    cases h
    exact bitwise_eq_ofInt hw (fun _ a b => a ^^^ b) (by simp) _ x y
  | shl =>
    obtain ⟨hamount, h⟩ := Option.ite_none_right_eq_some.mp h
    cases h
    rw [PortableBinary.ofMir, exactBinary, exact_shiftAmount hw hamount, ofInt_mul_two_pow,
      ofInt_toInteger]
  | shr =>
    obtain ⟨hamount, h⟩ := Option.ite_none_right_eq_some.mp h
    cases h
    rw [PortableBinary.ofMir, exactBinary, exact_shiftAmount hw hamount, ofInt_div_two_pow]
    cases unsigned <;> rfl
  | logAnd | logOr =>
    simp only [llvmBinary] at h
    split at h
    case isTrue hone =>
      subst hone
      cases h
      simp only [PortableBinary.ofMir, exactBinary, ne_eq, toInteger_eq_zero]
      revert x y
      decide
    case isFalse => cases h
  | eq =>
    cases h
    simp only [PortableBinary.ofMir, exactBinary, toInteger_inj, ofInt_one_ite]
    rfl
  | ne =>
    cases h
    simp only [PortableBinary.ofMir, exactBinary, ne_eq, toInteger_inj, ofInt_one_ite]
    congr 1
    rw [Bool.eq_iff_iff]
    simp
  | lt | gt =>
    cases h
    rw [PortableBinary.ofMir, exactBinary, ofInt_one_ite, decide_toInteger_lt]
    cases unsigned <;> rfl
  | le | ge =>
    cases h
    rw [PortableBinary.ofMir, exactBinary, ofInt_one_ite, decide_toInteger_le]
    cases unsigned <;> rfl

/-- Booleans are compared as signed one-bit integers, where the order of the
VM is reversed; everything else agrees. -/
theorem llvmBinary_bool {op : MirBinOp} {x y : BitVec 1}
    (h : llvmBinary op false x y = some result)
    (hordered : (PortableBinary.ofMir op).isOrdered = true → x = y) :
    result.bits = BitVec.ofInt result.width (exactBinary (.ofMir op) x.toNat y.toNat) := by
  have htable : ∀ a b : BitVec 1, ((PortableBinary.ofMir op).isOrdered = true → a = b) →
      ∀ r ∈ llvmBinary op false a b,
        r.bits = BitVec.ofInt r.width (exactBinary (.ofMir op) a.toNat b.toNat) := by
    cases op <;> decide
  exact htable x y hordered result h

theorem nativeUnary_exact {op : MirUnOp} {operand result : NativeValue} {z : Int}
    (hoperand : operand.bits = BitVec.ofInt operand.width z)
    (hzero : operand.bits = 0 ↔ z = 0)
    (h : nativeUnary op operand = some result) :
    result.bits = BitVec.ofInt result.width (exactUnary (.ofMir op) z) := by
  obtain ⟨w, x⟩ := operand
  cases op with
  | neg =>
    cases h
    simp only [PortableUnary.ofMir, exactUnary, ofInt_neg, ← hoperand]
    simp
  | not =>
    simp only [nativeUnary] at h
    split at h
    case isTrue hone =>
      subst hone
      cases h
      simp only [PortableUnary.ofMir, exactUnary, ← hzero]
      clear hzero hoperand
      revert x
      decide
    case isFalse => cases h
  | bitNot =>
    cases h
    simp only [PortableUnary.ofMir, exactUnary, ofInt_sub, ofInt_neg]
    rw [← hoperand, xor_allOnes, not_eq_neg_add]
    simp [sub_eq_add_neg]

/-- Every cast of a normalised slot yields the low bits of the slot. -/
theorem nativeCast_exact {srcTy toTy : MIRType} {ty : IntType} {value : I64}
    (hsource : integerType srcTy = some ty) (hpos : 0 < ty.bits)
    (hvalue : value = extend ty.signed 64 (value.setWidth ty.bits))
    (hresult : result.width ≤ 64)
    (h : nativeCast srcTy toTy ⟨ty.bits, value.setWidth ty.bits⟩ = some result) :
    result.bits = value.setWidth result.width := by
  have hcut : ∀ {n : Nat}, n ≤ ty.bits →
      (value.setWidth ty.bits).setWidth n = value.setWidth n :=
    fun hn => setWidth_setWidth_of_le value hn
  have hwiden : ∀ {n : Nat}, n ≤ 64 →
      extend ty.signed n (value.setWidth ty.bits) = value.setWidth n := by
    intro n hn
    conv_rhs => rw [hvalue, extend_eq_ofInt, setWidth_ofInt hn]
    rw [extend_eq_ofInt]
  have hsigned : ∀ {a b : UInt8} {r : NativeValue}, ty = ⟨a.toNat, true⟩ →
      r = ⟨b.toNat, if a < b then (value.setWidth ty.bits).signExtend b.toNat
        else (value.setWidth ty.bits).setWidth b.toNat⟩ → r.width ≤ 64 →
      r.bits = value.setWidth r.width := by
    rintro a b r rfl rfl hr
    by_cases hlt : a < b
    · simp only [if_pos hlt]
      exact hwiden hr
    · simp only [if_neg hlt]
      exact hcut (UInt8.le_iff_toNat_le.mp (UInt8.not_lt.mp hlt))
  cases srcTy <;> cases hsource <;> cases toTy <;> cases h
  case int.refl.int.refl => exact hsigned rfl rfl hresult
  case int.refl.uint.refl => exact hsigned rfl rfl hresult
  case int.refl.bool.refl => exact hcut hpos
  all_goals exact hwiden hresult

theorem nativeBitcast_eq {srcTy toTy : MIRType} {value result : NativeValue}
    (h : nativeBitcast srcTy toTy value = some result) : result = value := by
  unfold nativeBitcast at h
  split at h
  · cases h
    rfl
  all_goals first
    | (split at h <;> cases h; rfl)
    | cases h

end Native

end Sengoo.Portable
