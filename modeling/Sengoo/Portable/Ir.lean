import Mathlib.Data.BitVec

/-!
The portable scalar IR that the bytecode and WebAssembly backends share. A
local is a 64-bit slot, and an `i64` is a `BitVec 64` read in two's complement.
-/

namespace Sengoo.Portable

abbrev I64 := BitVec 64

inductive PortableUnary where
  | neg
  | not
  | bitNot
  deriving DecidableEq

inductive PortableBinary where
  | add
  | sub
  | mul
  | div
  | rem
  | bitAnd
  | bitOr
  | bitXor
  | shl
  | shr
  | logAnd
  | logOr
  | eq
  | ne
  | lt
  | gt
  | le
  | ge
  deriving DecidableEq

structure PortableScalarType where
  bits : UInt8
  signed : Bool
  deriving DecidableEq

inductive PortableInstruction where
  | const (destination : UInt32) (value : I64)
  | unary (destination : UInt32) (op : PortableUnary) (operand : UInt32)
  | binary (destination : UInt32) (op : PortableBinary) (left right : UInt32) (unsigned : Bool)
  | move (destination source : UInt32)
  | cast (destination source : UInt32) (fromTy toTy : PortableScalarType)
  | call (destination function : UInt32) (args : List UInt32)
  | phi (destination : UInt32) (incoming : List (UInt32 × UInt32))
  | nop
  deriving DecidableEq

inductive PortableArg where
  | local (slot : UInt32)
  | constant (value : I64)
  deriving DecidableEq

inductive PortableTerminator where
  | return (result : Option UInt32)
  | goto (target : UInt32)
  | if (condition thenBlock elseBlock : UInt32)
  | switch (discriminant : UInt32) (targets : List (UInt32 × UInt32)) (otherwise : UInt32)
  | call (function : UInt32) (args : List PortableArg) (destination target : UInt32)
  | unreachable
  deriving DecidableEq

structure PortableBlock where
  instructions : List PortableInstruction
  terminator : PortableTerminator
  deriving DecidableEq

structure PortableFunction where
  name : String
  paramCount : UInt32
  localCount : UInt32
  startBlock : UInt32
  blocks : List PortableBlock
  deriving DecidableEq

structure PortableProgram where
  functions : List PortableFunction
  mainIndex : UInt32
  deriving DecidableEq

end Sengoo.Portable
