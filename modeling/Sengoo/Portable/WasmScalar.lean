import Sengoo.Portable.RoundTrip
import Sengoo.Portable.WasmEncode

/-!
Agreement of the VM and the emitted WebAssembly on one instruction. The locals
of the WebAssembly function are the parameters, the VM's locals, the current
block and the previous block, in this order; the code of an instruction then
computes what the VM computes on the slots.
-/

namespace Sengoo.Portable

open BitVec Sengoo.Wasm

/-- The WebAssembly locals of a function. -/
def wasmLocals (args locals : List I64) (block previous : I64) : List I64 :=
  args ++ (locals ++ [block, previous])

/-- The sizes under which no local index wraps in `u32`. -/
def PortableFunction.SlotsFit (function : PortableFunction) : Prop :=
  function.paramCount.toNat + function.localCount.toNat + 2 < 2 ^ 32

instance (function : PortableFunction) : Decidable function.SlotsFit :=
  inferInstanceAs (Decidable (_ < _))

/-- The slots of a running function have the sizes the function declares. -/
structure Layout (function : PortableFunction) (args locals : List I64) : Prop where
  slotsFit : function.SlotsFit
  args_length : args.length = function.paramCount.toNat
  locals_length : locals.length = function.localCount.toNat

variable {value : I64}

section Slots

variable {function : PortableFunction} {args locals locals' : List I64} {block previous : I64}
  {stack : List WasmValue}

variable {slot : UInt32}

section

variable (layout : Layout function args locals)
include layout

theorem Layout.of_setLocal
    (h : setLocal locals slot value = .ok locals') :
    Layout function args locals' := by
  obtain ⟨-, rfl⟩ := setLocal_ok h
  exact ⟨layout.slotsFit, layout.args_length, by simpa using layout.locals_length⟩

theorem Layout.toNat_wasmLocal
    (hslot : slot.toNat < locals.length) :
    (wasmLocal function slot).toNat = args.length + slot.toNat := by
  have hfit := layout.slotsFit
  have hargs := layout.args_length
  have hlocals := layout.locals_length
  unfold PortableFunction.SlotsFit at hfit
  rw [wasmLocal, UInt32.toNat_add, Nat.mod_eq_of_lt (by omega), hargs]

theorem Layout.toNat_blockLocal : (blockLocal function).toNat = args.length + locals.length := by
  have hfit := layout.slotsFit
  unfold PortableFunction.SlotsFit at hfit
  rw [blockLocal, UInt32.toNat_add, Nat.mod_eq_of_lt (by omega), layout.args_length,
    layout.locals_length]

theorem Layout.toNat_previousBlockLocal :
    (previousBlockLocal function).toNat = args.length + locals.length + 1 := by
  have hfit := layout.slotsFit
  have hblock := layout.toNat_blockLocal
  have hargs := layout.args_length
  have hlocals := layout.locals_length
  unfold PortableFunction.SlotsFit at hfit
  rw [previousBlockLocal, UInt32.toNat_add, hblock]
  exact Nat.mod_eq_of_lt (by simp only [UInt32.reduceToNat]; omega)

end

/-- Behind the parameters stand the VM's locals and the two blocks. -/
theorem execPlain_getBehind {index : UInt32} {offset : Nat}
    (hindex : index.toNat = args.length + offset)
    (h : (locals ++ [block, previous])[offset]? = some value) :
    execPlain (.localGet index) stack (wasmLocals args locals block previous) =
      .ok (.i64 value :: stack, wasmLocals args locals block previous) := by
  apply execPlain_localGet
  rw [hindex, wasmLocals, List.getElem?_append_right (Nat.le_add_right _ _),
    Nat.add_sub_cancel_left, h]

theorem execPlain_setBehind {index : UInt32} {offset : Nat}
    (hindex : index.toNat = args.length + offset)
    (h : offset < (locals ++ [block, previous]).length) :
    execPlain (.localSet index) (.i64 value :: stack) (wasmLocals args locals block previous) =
      .ok (stack, args ++ (locals ++ [block, previous]).set offset value) := by
  have hbound : index.toNat < (wasmLocals args locals block previous).length := by
    rw [wasmLocals, List.length_append]
    omega
  rw [execPlain_localSet stack _ _ hbound, hindex, wasmLocals,
    List.set_append_right _ _ (Nat.le_add_right _ _), Nat.add_sub_cancel_left]

section

variable (layout : Layout function args locals)
include layout

theorem execPlain_getSlot
    (h : getLocal locals slot = .ok value) :
    execPlain (.localGet (wasmLocal function slot)) stack
      (wasmLocals args locals block previous) =
      .ok (.i64 value :: stack, wasmLocals args locals block previous) := by
  have hvalue := getLocal_ok h
  have hslot : slot.toNat < locals.length := (List.getElem?_eq_some_iff.mp hvalue).1
  apply execPlain_getBehind (layout.toNat_wasmLocal hslot)
  rw [List.getElem?_append_left hslot, hvalue]

theorem execPlain_setSlot
    (h : setLocal locals slot value = .ok locals') :
    execPlain (.localSet (wasmLocal function slot)) (.i64 value :: stack)
      (wasmLocals args locals block previous) =
      .ok (stack, wasmLocals args locals' block previous) := by
  obtain ⟨hslot, rfl⟩ := setLocal_ok h
  rw [execPlain_setBehind (layout.toNat_wasmLocal hslot) (by rw [List.length_append]; omega),
    List.set_append_left _ _ hslot]
  rfl

theorem execPlain_getBlock : execPlain (.localGet (blockLocal function)) stack
      (wasmLocals args locals block previous) =
      .ok (.i64 block :: stack, wasmLocals args locals block previous) :=
  execPlain_getBehind layout.toNat_blockLocal (by simp)

theorem execPlain_setBlock (value : I64) :
    execPlain (.localSet (blockLocal function)) (.i64 value :: stack)
      (wasmLocals args locals block previous) =
      .ok (stack, wasmLocals args locals value previous) := by
  rw [execPlain_setBehind layout.toNat_blockLocal (by simp)]
  simp [wasmLocals]

theorem execPlain_getPrevious : execPlain (.localGet (previousBlockLocal function)) stack
      (wasmLocals args locals block previous) =
      .ok (.i64 previous :: stack, wasmLocals args locals block previous) :=
  execPlain_getBehind (layout.toNat_previousBlockLocal.trans (Nat.add_assoc _ _ _)) (by simp)

theorem execPlain_setPrevious (value : I64) :
    execPlain (.localSet (previousBlockLocal function)) (.i64 value :: stack)
      (wasmLocals args locals block previous) =
      .ok (stack, wasmLocals args locals block value) := by
  rw [execPlain_setBehind (layout.toNat_previousBlockLocal.trans (Nat.add_assoc _ _ _)) (by simp)]
  simp [wasmLocals]

end

end Slots

variable {ty : PortableScalarType}

section Normalize

variable {n : Nat}

theorem getLsbD_lowMask (hn : n < 64) (i : Nat) :
    ((1#64 <<< n) - 1#64).getLsbD i = decide (i < n) := by
  have hmask : (1#64 <<< n) - 1#64 = BitVec.ofNat 64 (2 ^ n - 1) := by
    have hpos : 0 < 2 ^ n := Nat.two_pow_pos n
    apply eq_of_toNat_eq
    rw [toNat_sub, ← twoPow_eq, toNat_twoPow]
    simp only [toNat_ofNat]
    omega
  rw [hmask, getLsbD_ofNat, Nat.testBit_two_pow_sub_one]
  by_cases hi : i < n
  · simp only [hi, decide_true, Bool.and_true, decide_eq_true_eq]
    omega
  · simp [hi]

theorem and_lowMask (hn : n < 64) (x : I64) :
    x &&& ((1#64 <<< n) - 1#64) = (x.setWidth n).setWidth 64 := by
  apply eq_of_getLsbD_eq
  intro i hi
  rw [getLsbD_and, getLsbD_lowMask hn]
  by_cases h : i < n <;> simp [h, hi]

/-- Shifting up and arithmetically down again extends the sign of the low bits. -/
theorem sshiftRight_shiftLeft (hpos : 0 < n) (hn : n < 64) (x : I64) :
    (x <<< (64 - n)).sshiftRight (64 - n) = (x.setWidth n).signExtend 64 := by
  apply eq_of_getLsbD_eq
  intro i hi
  rw [getLsbD_sshiftRight, getLsbD_signExtend, getLsbD_shiftLeft,
    msb_shiftLeft, msb_setWidth]
  by_cases h : i < n
  · have hinside : 64 - n + i < 64 := by omega
    simp [h, hinside, hi]
  · have houtside : ¬ 64 - n + i < 64 := by omega
    have hsign : 64 - 1 - (64 - n) = n - 1 := by omega
    have hlow : 64 - n < 64 := by omega
    have hbound : ¬ 64 ≤ i := by omega
    simp only [h, houtside, hi, BitVec.getMsbD, hsign, hlow, hpos, hbound, if_false,
      decide_true, Bool.true_and, decide_false, Bool.not_false]

theorem or_not_lowMask (hpos : 0 < n) (hn : n < 64) (x : I64)
    (hsign : x.getLsbD (n - 1) = true) :
    x &&& ((1#64 <<< n) - 1#64) ||| ~~~((1#64 <<< n) - 1#64) = (x.setWidth n).signExtend 64 := by
  apply eq_of_getLsbD_eq
  intro i hi
  rw [getLsbD_or, getLsbD_and, getLsbD_not, getLsbD_lowMask hn,
    getLsbD_signExtend, msb_setWidth, hsign]
  by_cases h : i < n <;> simp [h, hi, hpos]

theorem signExtend_of_nonneg (x : I64) (hsign : x.getLsbD (n - 1) = false) :
    (x.setWidth n).signExtend 64 = (x.setWidth n).setWidth 64 := by
  apply eq_of_getLsbD_eq
  intro i hi
  rw [getLsbD_signExtend, msb_setWidth, hsign, getLsbD_setWidth,
    getLsbD_setWidth]
  by_cases h : i < n <;> simp [h]

theorem and_signBit (hpos : 0 < n) (hn : n < 64) (x : I64) :
    (x &&& ((1#64 <<< n) - 1#64)) &&& (1#64 <<< (n - 1)) ≠ 0#64 ↔ x.getLsbD (n - 1) = true := by
  have hlt : n - 1 < n := by omega
  rw [← twoPow_eq 64 (n - 1), and_twoPow, getLsbD_and, getLsbD_lowMask hn]
  cases hbit : x.getLsbD (n - 1) with
  | false => simp
  | true =>
    have hne : BitVec.twoPow 64 (n - 1) ≠ 0#64 := by
      intro hzero
      have hnat := congrArg BitVec.toNat hzero
      have hlt' : 2 ^ (n - 1) < 2 ^ 64 := Nat.pow_lt_pow_right (by omega) (by omega)
      rw [toNat_twoPow, Nat.mod_eq_of_lt hlt'] at hnat
      exact absurd hnat (Nat.two_pow_pos _).ne'
    simp [hlt, hne]

/-- The scalar type of a normalised slot: the low bits, extended by its sign. -/
def extendScalar (value : I64) (ty : PortableScalarType) : I64 :=
  if ty.signed then (value.setWidth ty.bits.toNat).signExtend 64
  else (value.setWidth ty.bits.toNat).setWidth 64

theorem scalar_width_cases (hty : ty.Fits) : ty.bits = 0 ∨ ty.bits = 64 ∨
      (ty.bits ≠ 0 ∧ ty.bits ≠ 64 ∧ 0 < ty.bits.toNat ∧ ty.bits.toNat < 64) := by
  unfold PortableScalarType.Fits at hty
  generalize ty.bits = bits at hty ⊢
  simp only [List.mem_cons, List.not_mem_nil, or_false] at hty
  rcases hty with rfl | rfl | rfl | rfl | rfl | rfl <;> decide

theorem normalizePortableScalar_eq (value : I64)
    (hty : ty.Fits) : normalizePortableScalar value ty = extendScalar value ty := by
  rcases scalar_width_cases hty with hzero | hfull | ⟨hzero, hfull, hpos, hlt⟩
  · have hempty : value.setWidth 0 = 0#0 := of_length_zero
    obtain ⟨bits, signed⟩ := ty
    obtain rfl : bits = 0 := hzero
    simp only [extendScalar, UInt8.reduceToNat, hempty]
    cases signed <;> rfl
  · obtain ⟨bits, signed⟩ := ty
    obtain rfl : bits = 64 := hfull
    simp [normalizePortableScalar, extendScalar]
  · simp only [normalizePortableScalar, extendScalar, if_neg hzero, if_neg hfull]
    cases ty.signed with
    | false => simp [and_lowMask hlt]
    | true =>
      simp only [and_signBit hpos hlt]
      cases hsign : value.getLsbD (ty.bits.toNat - 1) with
      | false => simp [signExtend_of_nonneg value hsign, and_lowMask hlt]
      | true => simpa using or_not_lowMask hpos hlt value hsign

end Normalize

section Scalar

variable {function : PortableFunction} {args locals : List I64} {block previous : I64}
  {stack : List WasmValue}

theorem shiftAmount_eq (right : I64) : shiftAmount right = right.toNat % 64 := by
  have hmask : (63 : BitVec 32).toNat = 2 ^ 6 - 1 := rfl
  rw [shiftAmount, toNat_and, toNat_setWidth, hmask, Nat.and_two_pow_sub_one_eq_mod]
  omega

theorem execOps_unary (layout : Layout function args locals) (op : PortableUnary)
    {operand : UInt32} (h : getLocal locals operand = .ok value) :
    execOps (encodeWasmUnary function op operand) stack
      (wasmLocals args locals block previous) =
      .ok (.i64 (evalUnary op value) :: stack, wasmLocals args locals block previous) := by
  cases op with
  | neg =>
    have hneg : (0 : I64) - value = -value := zero_sub value
    simp only [encodeWasmUnary, execOps, execPlain_i64Const, execPlain_getSlot layout h,
      execPlain_i64Bin, I64Binop.eval, evalUnary, hneg]
  | not =>
    simp only [encodeWasmUnary, execOps, execPlain_getSlot layout h, execPlain_i64Eqz,
      execPlain_i64ExtendI32U_bool, evalUnary, i64OfBool]
  | bitNot =>
    have hnot : value ^^^ -1 = ~~~value := by
      rw [show (-1 : I64) = BitVec.allOnes 64 from rfl, xor_allOnes]
    simp only [encodeWasmUnary, execOps, execPlain_getSlot layout h, execPlain_i64Const,
      execPlain_i64Bin, I64Binop.eval, evalUnary, hnot]

/-- The one binary operation on which the two backends differ: the signed
remainder of the least integer by `-1`. -/
def RemainderAgrees (op : PortableBinary) (unsigned : Bool) (left right : I64) : Prop :=
  op = .rem → unsigned = false → ¬ (left = BitVec.intMin 64 ∧ right = -1)

theorem divisionOverflows_iff (x y : I64) :
    divisionOverflows x y = true ↔ y = 0 ∨ (x = BitVec.intMin 64 ∧ y = -1) := by
  simp [divisionOverflows]

/-- A guarded operation: the trap of the code is the error of the VM. -/
theorem trap_or_value {trap : Prop} [Decidable trap] (value : I64) (e : VmError)
    (slots : List I64) :
    (match if trap then none else some value with
      | some value => Except.ok (WasmValue.i64 value :: stack, slots)
      | none => .error WasmFault.trap) =
      match if trap then Except.error e else .ok value with
      | .ok value => .ok (.i64 value :: stack, slots)
      | .error _ => .error .trap := by
  by_cases h : trap <;> simp [h]

section Operands

variable {left right : UInt32} {x y : I64}

section

variable (layout : Layout function args locals) (hleft : getLocal locals left = .ok x)
  (hright : getLocal locals right = .ok y)
include layout hleft hright

theorem execOps_binop (op : I64Binop) :
    execOps [.localGet (wasmLocal function left), .localGet (wasmLocal function right),
      .i64Bin op] stack (wasmLocals args locals block previous) =
      match op.eval x y with
      | some value => .ok (.i64 value :: stack, wasmLocals args locals block previous)
      | none => .error .trap := by
  simp only [execOps, execPlain_getSlot layout hleft, execPlain_getSlot layout hright,
    execPlain_i64Bin]
  cases op.eval x y <;> rfl

theorem execOps_relop (op : I64Relop) :
    execOps [.localGet (wasmLocal function left), .localGet (wasmLocal function right),
      .i64Rel op, .i64ExtendI32U] stack (wasmLocals args locals block previous) =
      .ok (.i64 (i64OfBool (op.eval x y)) :: stack, wasmLocals args locals block previous) := by
  simp only [execOps, execPlain_getSlot layout hleft, execPlain_getSlot layout hright,
    execPlain_i64Rel, execPlain_i64ExtendI32U_bool, i64OfBool]

end

/-- The code of a binary operation computes what the VM computes, and traps
where the VM traps. -/
theorem execOps_binary (layout : Layout function args locals) (op : PortableBinary)
    (unsigned : Bool) (hleft : getLocal locals left = .ok x)
    (hright : getLocal locals right = .ok y) (hagrees : RemainderAgrees op unsigned x y) :
    execOps (encodeWasmBinary function op unsigned left right) stack
      (wasmLocals args locals block previous) =
      match evalBinary op unsigned x y with
      | .ok value => .ok (.i64 value :: stack, wasmLocals args locals block previous)
      | .error _ => .error .trap := by
  have hbinop := @execOps_binop function args locals block previous stack left right x y
    layout hleft hright
  have hrelop := @execOps_relop function args locals block previous stack left right x y
    layout hleft hright
  cases op with
  | add => exact hbinop .add
  | sub => exact hbinop .sub
  | mul => exact hbinop .mul
  | bitAnd => exact hbinop .and
  | bitOr => exact hbinop .or
  | bitXor => exact hbinop .xor
  | shl =>
    simp only [evalBinary, shiftAmount_eq]
    exact hbinop .shl
  | shr =>
    cases unsigned with
    | false =>
      simp only [evalBinary, shiftAmount_eq]
      exact hbinop .shrS
    | true =>
      simp only [evalBinary, shiftAmount_eq]
      exact hbinop .shrU
  | div =>
    cases unsigned with
    | false =>
      simp only [evalBinary, divisionOverflows_iff]
      exact (hbinop .divS).trans (trap_or_value _ _ _)
    | true => exact (hbinop .divU).trans (trap_or_value _ _ _)
  | rem =>
    cases unsigned with
    | false =>
      have hnot := hagrees rfl rfl
      simp only [evalBinary, divisionOverflows_iff, hnot, or_false]
      exact (hbinop .remS).trans (trap_or_value _ _ _)
    | true => exact (hbinop .remU).trans (trap_or_value _ _ _)
  | eq => exact hrelop .eq
  | ne => exact hrelop .ne
  | lt => cases unsigned with
      | false => exact hrelop .ltS
      | true => exact hrelop .ltU
  | gt => cases unsigned with
      | false => exact hrelop .gtS
      | true => exact hrelop .gtU
  | le => cases unsigned with
      | false => exact hrelop .leS
      | true => exact hrelop .leU
  | ge => cases unsigned with
      | false => exact hrelop .geS
      | true => exact hrelop .geU
  | logAnd | logOr =>
    simp [encodeWasmBinary, wasmBinaryOpcode, execOps, execPlain_getSlot layout hleft,
      execPlain_getSlot layout hright, evalBinary, i64OfBool, bne]

end Operands

theorem execOps_normalize (hty : ty.Fits) (value : I64)
    (slots : List I64) :
    execOps (encodeWasmScalarNormalize ty) (.i64 value :: stack) slots =
      .ok (.i64 (normalizePortableScalar value ty) :: stack, slots) := by
  rcases scalar_width_cases hty with hzero | hfull | ⟨hzero, hfull, hpos, hlt⟩
  · simp only [encodeWasmScalarNormalize, normalizePortableScalar, hzero, if_true, execOps,
      execPlain_drop, execPlain_i64Const]
  · simp [encodeWasmScalarNormalize, normalizePortableScalar, hfull, execOps]
  · rw [normalizePortableScalar_eq value hty]
    simp only [encodeWasmScalarNormalize, if_neg hzero, if_neg hfull]
    cases hsigned : ty.signed with
    | false =>
      simp only [Bool.false_eq_true, if_false, execOps, execPlain_i64Const,
        execPlain_i64Bin, I64Binop.eval, extendScalar, hsigned, and_lowMask hlt]
    | true =>
      have hshift : (BitVec.ofNat 64 (64 - ty.bits).toNat).toNat % 64 = 64 - ty.bits.toNat := by
        have hsub : (64 - ty.bits).toNat = 64 - ty.bits.toNat := by
          rw [UInt8.toNat_sub]
          simp only [UInt8.reduceToNat]
          omega
        rw [toNat_ofNat]
        omega
      simp only [if_true, execOps, execPlain_i64Const, execPlain_i64Bin, I64Binop.eval,
        extendScalar, hsigned, hshift, sshiftRight_shiftLeft hpos hlt]

end Scalar

end Sengoo.Portable
