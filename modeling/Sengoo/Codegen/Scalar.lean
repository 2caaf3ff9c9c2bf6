import Sengoo.Mir.Syntax
import Sengoo.Width

/-!
What the native code generator's instructions compute on scalar locals. A local
of type `Bool`, `Int(n)` or `UInt(n)` is an LLVM integer of that width, and each
MIR instruction becomes one LLVM instruction at the width of its operands, in a
build without debug checks. `none` stands for an instruction that has no value:
undefined behaviour, poison, or operands whose LLVM types do not agree.
-/

namespace Sengoo.Codegen

open Sengoo.Mir Sengoo.Width

/-- The LLVM width of an integer type, with the signedness that MIR declares. -/
structure IntType where
  bits : Nat
  signed : Bool
  deriving DecidableEq

def integerType : MIRType → Option IntType
  | .bool => some ⟨1, false⟩
  | .int bits => some ⟨bits.toNat, true⟩
  | .uint bits => some ⟨bits.toNat, false⟩
  | _ => none

/-- A local outside the table counts as an `i64`. -/
def getLocalType (function : MirFunction) (slot : Local) : MIRType :=
  match function.locals[slot.id.toNat]? with
  | some (_, ty) => ty
  | none => .int 64

structure NativeValue where
  width : Nat
  bits : BitVec width

/-- A decimal literal is cut to the type it is written at. -/
def nativeConstant (destTy : MIRType) : MirConstant → Option NativeValue
  | .int value | .uint value =>
    (integerType destTy).map (fun ty => ⟨ty.bits, value.setWidth ty.bits⟩)
  | .bool value => some ⟨1, BitVec.ofBool value⟩
  | .char value =>
    (integerType destTy).map (fun ty => ⟨ty.bits, BitVec.ofNat ty.bits value.toNat⟩)
  | _ => none

def nativeUnary (op : MirUnOp) (operand : NativeValue) : Option NativeValue :=
  match op with
  | .neg => some ⟨operand.width, 0 - operand.bits⟩
  | .not =>
    if operand.width = 1 then some ⟨operand.width, operand.bits ^^^ 1⟩ else none
  | .bitNot => some ⟨operand.width, operand.bits ^^^ BitVec.allOnes operand.width⟩

section Binary

variable {w : Nat}

/-- `sdiv` and `srem` are undefined for a zero divisor and for the quotient that
does not fit; `udiv` and `urem` for a zero divisor. -/
def divides (unsigned : Bool) (x y : BitVec w) : Bool :=
  y ≠ 0 && (unsigned || ¬ (x = BitVec.intMin w ∧ y = -1))

def icmp (holds : Bool) : Option NativeValue := some ⟨1, BitVec.ofBool holds⟩

def llvmBinary (op : MirBinOp) (unsigned : Bool) (x y : BitVec w) : Option NativeValue :=
  match op with
  | .add => some ⟨w, x + y⟩
  | .sub => some ⟨w, x - y⟩
  | .mul => some ⟨w, x * y⟩
  | .div =>
    if divides unsigned x y then some ⟨w, if unsigned then x / y else x.sdiv y⟩ else none
  | .rem =>
    if divides unsigned x y then some ⟨w, if unsigned then x % y else x.srem y⟩ else none
  | .bitAnd => some ⟨w, x &&& y⟩
  | .bitOr => some ⟨w, x ||| y⟩
  | .bitXor => some ⟨w, x ^^^ y⟩
  | .shl => if y.toNat < w then some ⟨w, x <<< y.toNat⟩ else none
  | .shr =>
    if y.toNat < w then
      some ⟨w, if unsigned then x >>> y.toNat else x.sshiftRight y.toNat⟩
    else none
  | .logAnd => if w = 1 then some ⟨w, x &&& y⟩ else none
  | .logOr => if w = 1 then some ⟨w, x ||| y⟩ else none
  | .eq => icmp (x == y)
  | .ne => icmp (x != y)
  | .lt => icmp (if unsigned then x.ult y else x.slt y)
  | .gt => icmp (if unsigned then y.ult x else y.slt x)
  | .le => icmp (if unsigned then x.ule y else x.sle y)
  | .ge => icmp (if unsigned then y.ule x else y.sle x)

end Binary

def isUnsigned : MIRType → Bool
  | .uint _ => true
  | _ => false

/-- The opcode is chosen by the type of the left operand, and both operands are
written at that type. -/
def nativeBinary (op : MirBinOp) (leftTy : MIRType) (left right : NativeValue) :
    Option NativeValue :=
  if right.width = left.width then
    llvmBinary op (isUnsigned leftTy) left.bits (right.bits.setWidth left.width)
  else none

def nativeCast (srcTy toTy : MIRType) (value : NativeValue) : Option NativeValue :=
  match srcTy, toTy with
  | .int a, .int b | .int a, .uint b =>
    some ⟨b.toNat, if a < b then value.bits.signExtend b.toNat
      else value.bits.setWidth b.toNat⟩
  | .uint _, .int b | .uint _, .uint b | .bool, .int b | .bool, .uint b =>
    some ⟨b.toNat, value.bits.setWidth b.toNat⟩
  | .int _, .bool | .uint _, .bool | .bool, .bool => some ⟨1, value.bits.setWidth 1⟩
  | _, _ => none

/-- Bitcasts between integers are accepted only from a type to itself. -/
def nativeBitcast (srcTy toTy : MIRType) (value : NativeValue) : Option NativeValue :=
  match srcTy, toTy with
  | .bool, .bool => some value
  | .int a, .int b | .uint a, .uint b => if a = b then some value else none
  | _, _ => none

/-- The value that the instruction's destination receives, from the values that
the locals hold. Calls have no value of their own here. -/
def nativeInstruction (function : MirFunction) (previousBlock : Option Nat)
    (values : Local → Option NativeValue) : Instruction → Option NativeValue
  | .assign destination value => nativeConstant (getLocalType function destination) value
  | .unary _ op operand => do
      let operand ← values operand
      nativeUnary op operand
  | .binary _ op left right => do
      let leftValue ← values left
      let rightValue ← values right
      nativeBinary op (getLocalType function left) leftValue rightValue
  | .cast _ value toTy => do
      let source ← values value
      nativeCast (getLocalType function value) toTy source
  | .bitcast _ value toTy => do
      let source ← values value
      nativeBitcast (getLocalType function value) toTy source
  | .phi _ incoming => do
      let previous ← previousBlock
      let entry ← incoming.find? (fun entry => entry.2 = previous)
      values entry.1
  | _ => none

/-- The local that a scalar instruction writes. -/
def scalarDestination : Instruction → Option Local
  | .assign destination _ | .unary destination _ _ | .binary destination _ _ _
  | .cast destination _ _ | .bitcast destination _ _ | .phi destination _ => some destination
  | _ => none

end Sengoo.Codegen
