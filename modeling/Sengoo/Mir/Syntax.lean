import Mathlib.Data.BitVec

/-!
The mid-level IR: functions as control-flow graphs over numbered locals, with
the instructions of a function in one arena that its blocks index. Source
positions and debug names are left out, since no modelled pass reads them.
-/

namespace Sengoo.Mir

inductive LocalKind where
  | return
  | param
  | temp
  | user
  deriving DecidableEq

structure Local where
  id : UInt32
  kind : LocalKind
  deriving DecidableEq

inductive MIRType where
  | unit
  | never
  | bool
  | int (bits : UInt8)
  | uint (bits : UInt8)
  | float (bits : UInt8)
  | ref (inner : MIRType)
  | ptr (inner : MIRType)
  | array (element : MIRType) (length : UInt64)
  | tuple (fields : List MIRType)
  | fn (params : List MIRType) (ret : MIRType)
  | struct (name : String) (fields : List (String × MIRType))
  | enum (discrType : MIRType) (variants : List (UInt32 × Option MIRType))
  | future (inner : MIRType)

inductive MirUnOp where
  | neg
  | not
  | bitNot
  deriving DecidableEq

inductive MirBinOp where
  | add
  | sub
  | mul
  | div
  | rem
  | bitAnd
  | bitOr
  | bitXor
  | shl
  | shr
  | logAnd
  | logOr
  | eq
  | ne
  | lt
  | gt
  | le
  | ge
  deriving DecidableEq

/-- Constants; a float is given by its bit pattern. -/
inductive MirConstant where
  | unit
  | bool (value : Bool)
  | int (value : BitVec 64)
  | uint (value : BitVec 64)
  | float (bits : BitVec 64)
  | char (value : Char)
  | string (value : String)
  | bytes (value : List UInt8)
  | globalRef (name : String)
  deriving DecidableEq

inductive IntrinsicOp where
  | addWithOverflow
  | subWithOverflow
  | mulWithOverflow
  | copy (size align : UInt64)
  | compare (size align : UInt64)
  | memMove (size align : UInt64)
  deriving DecidableEq

inductive Instruction where
  | assign (destination : Local) (value : MirConstant)
  | unary (destination : Local) (op : MirUnOp) (operand : Local)
  | binary (destination : Local) (op : MirBinOp) (left right : Local)
  | load (destination source : Local)
  | store (destination value : Local)
  | addrOf (destination source : Local)
  | fieldAddr (destination base : Local) (field : UInt32)
  | indexAddr (destination base index : Local)
  | extract (destination value : Local) (index : UInt32)
  | insert (destination value : Local) (field : UInt32) (newValue : Local)
  | cast (destination value : Local) (toTy : MIRType)
  | bitcast (destination value : Local) (toTy : MIRType)
  | aggregate (destination : Local) (fields : List Local) (ty : MIRType)
  | call (destination : Local) (func : String) (args : List Local)
  | callIndirect (destination funcPtr : Local) (args : List Local)
  | intrinsic (destination : Option Local) (op : IntrinsicOp) (args : List Local)
  | discriminant (destination source : Local)
  | enumConstruct (destination : Local) (discriminant : UInt32) (payload : Option Local)
      (enumType : MIRType)
  | extractPayload (destination source : Local)
  | phi (destination : Local) (incoming : List (Local × Nat))
  | nop

inductive CallArg where
  | local (slot : Local)
  | constant (value : MirConstant)
  deriving DecidableEq

inductive Terminator where
  | return (value : Option Local)
  | goto (target : Nat)
  | if (cond : Local) (thenBlock elseBlock : Nat)
  | switch (discr : Local) (targets : List (UInt32 × Nat)) (otherwise : Nat)
  | call (func : String) (args : List CallArg) (destination : Local) (target : Nat)
  | break (target : Nat)
  | continue (target : Nat)
  | unreachable
  | suspend (pollFunc : String) (futureHandle destination : Local) (readyBlock pendingBlock : Nat)
  deriving DecidableEq

/-- A basic block; `instructions` are indices into the arena of its function. -/
structure BasicBlock where
  id : Nat
  instructions : List UInt32
  terminator : Option Terminator
  deriving DecidableEq

structure MirFunction where
  name : String
  params : List MIRType
  returnType : MIRType
  locals : List (Local × MIRType)
  basicBlocks : List BasicBlock
  instructions : List Instruction
  startBlock : Nat
  isAsync : Bool

end Sengoo.Mir
