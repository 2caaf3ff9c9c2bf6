import Sengoo.Portable.Vm
import Sengoo.Wasm.Machine

/-!
The WebAssembly encoder, up to the byte encoding of the instructions. Each
function becomes a loop around a chain of conditionals, one for each block, that
is driven by two extra locals: the current block and the block before it.
-/

namespace Sengoo.Portable

open Sengoo.Wasm

variable (function : PortableFunction)

def wasmLocal (mirLocal : UInt32) : UInt32 :=
  function.paramCount + mirLocal

def blockLocal : UInt32 :=
  function.paramCount + function.localCount

def previousBlockLocal : UInt32 :=
  blockLocal function + 1

def wasmTransition (current target : UInt32) : List WasmOp :=
  [.i64Const (i64OfU32 current), .localSet (previousBlockLocal function),
    .i64Const (i64OfU32 target), .localSet (blockLocal function), .br 1]

/-- The opcode of a binary operation other than the two logical ones. -/
def wasmBinaryOpcode : PortableBinary → Bool → WasmOp
  | .add, _ => .i64Bin .add
  | .sub, _ => .i64Bin .sub
  | .mul, _ => .i64Bin .mul
  | .div, false => .i64Bin .divS
  | .div, true => .i64Bin .divU
  | .rem, false => .i64Bin .remS
  | .rem, true => .i64Bin .remU
  | .bitAnd, _ => .i64Bin .and
  | .bitOr, _ => .i64Bin .or
  | .bitXor, _ => .i64Bin .xor
  | .shl, _ => .i64Bin .shl
  | .shr, false => .i64Bin .shrS
  | .shr, true => .i64Bin .shrU
  | .eq, _ => .i64Rel .eq
  | .ne, _ => .i64Rel .ne
  | .lt, false => .i64Rel .ltS
  | .lt, true => .i64Rel .ltU
  | .gt, false => .i64Rel .gtS
  | .gt, true => .i64Rel .gtU
  | .le, false => .i64Rel .leS
  | .le, true => .i64Rel .leU
  | .ge, false => .i64Rel .geS
  | .ge, true => .i64Rel .geU
  | .logAnd, _ => .i32And
  | .logOr, _ => .i32Or

def PortableBinary.isComparison : PortableBinary → Bool
  | .eq | .ne | .lt | .gt | .le | .ge => true
  | _ => false

def encodeWasmBinary (op : PortableBinary) (unsigned : Bool)
    (left right : UInt32) : List WasmOp :=
  if op = .logAnd ∨ op = .logOr then
    [.localGet (wasmLocal function left), .i64Eqz, .i32Eqz,
      .localGet (wasmLocal function right), .i64Eqz, .i32Eqz,
      wasmBinaryOpcode op unsigned, .i64ExtendI32U]
  else
    [.localGet (wasmLocal function left), .localGet (wasmLocal function right),
      wasmBinaryOpcode op unsigned] ++
      if op.isComparison then [.i64ExtendI32U] else []

def encodeWasmScalarNormalize (ty : PortableScalarType) : List WasmOp :=
  if ty.bits = 0 then [.drop, .i64Const 0]
  else if ty.bits = 64 then []
  else if ty.signed then
    [.i64Const (BitVec.ofNat 64 (64 - ty.bits).toNat), .i64Bin .shl,
      .i64Const (BitVec.ofNat 64 (64 - ty.bits).toNat), .i64Bin .shrS]
  else [.i64Const ((1#64 <<< ty.bits.toNat) - 1#64), .i64Bin .and]

def encodeWasmUnary (op : PortableUnary) (operand : UInt32) :
    List WasmOp :=
  match op with
  | .neg => [.i64Const 0, .localGet (wasmLocal function operand), .i64Bin .sub]
  | .not => [.localGet (wasmLocal function operand), .i64Eqz, .i64ExtendI32U]
  | .bitNot => [.localGet (wasmLocal function operand), .i64Const (-1), .i64Bin .xor]

/-- One incoming edge of a phi: copy the source when control came from the
predecessor. -/
def encodeWasmIncoming (destination : UInt32)
    (entry : UInt32 × UInt32) : List WasmOp :=
  [.localGet (previousBlockLocal function), .i64Const (i64OfU32 entry.2), .i64Rel .eq] ++
    (.if :: [.localGet (wasmLocal function entry.1),
      .localSet (wasmLocal function destination)] ++ [.end])

def encodeWasmInstruction : PortableInstruction → List WasmOp
  | .const destination value =>
    [.i64Const value, .localSet (wasmLocal function destination)]
  | .unary destination op operand =>
    encodeWasmUnary function op operand ++ [.localSet (wasmLocal function destination)]
  | .binary destination op left right unsigned =>
    encodeWasmBinary function op unsigned left right ++ [.localSet (wasmLocal function destination)]
  | .move destination source =>
    [.localGet (wasmLocal function source), .localSet (wasmLocal function destination)]
  | .cast destination source fromTy toTy =>
    [.localGet (wasmLocal function source)] ++ encodeWasmScalarNormalize fromTy ++
      encodeWasmScalarNormalize toTy ++ [.localSet (wasmLocal function destination)]
  | .call destination callee args =>
    args.map (fun arg => .localGet (wasmLocal function arg)) ++
      [.call callee, .localSet (wasmLocal function destination)]
  | .phi destination incoming =>
    [.i64Const 0, .localSet (wasmLocal function destination)] ++
      incoming.flatMap (encodeWasmIncoming function destination)
  | .nop => []

/-- One case of a switch: overwrite the next block when the discriminant is the
value of the case. -/
def encodeWasmCase (discriminant : UInt32)
    (entry : UInt32 × UInt32) : List WasmOp :=
  [.localGet (wasmLocal function discriminant), .i64Const (i64OfU32 entry.1), .i64Rel .eq] ++
    (.if :: [.i64Const (i64OfU32 entry.2), .localSet (blockLocal function)] ++ [.end])

def encodeWasmArg : PortableArg → WasmOp
  | .local slot => .localGet (wasmLocal function slot)
  | .constant value => .i64Const value

def encodeWasmTerminator (currentBlock : UInt32) :
    PortableTerminator → List WasmOp
  | .return none => [.i64Const 0, .return]
  | .return (some slot) => [.localGet (wasmLocal function slot), .return]
  | .goto target => wasmTransition function currentBlock target
  | .if condition thenBlock elseBlock =>
    [.i64Const (i64OfU32 currentBlock), .localSet (previousBlockLocal function),
      .i64Const (i64OfU32 thenBlock), .i64Const (i64OfU32 elseBlock),
      .localGet (wasmLocal function condition), .i64Eqz, .i32Eqz, .select,
      .localSet (blockLocal function), .br 1]
  | .switch discriminant targets otherwise =>
    [.i64Const (i64OfU32 currentBlock), .localSet (previousBlockLocal function),
      .i64Const (i64OfU32 otherwise), .localSet (blockLocal function)] ++
      targets.flatMap (encodeWasmCase function discriminant) ++ [.br 1]
  | .call callee args destination target =>
    args.map (encodeWasmArg function) ++
      [.call callee, .localSet (wasmLocal function destination)] ++
      wasmTransition function currentBlock target
  | .unreachable => [.unreachable]

/-- The conditional of one block in the dispatch chain. -/
def encodeWasmBlock (entry : PortableBlock × Nat) :
    List WasmOp :=
  [.localGet (blockLocal function), .i64Const (BitVec.ofNat 64 entry.2), .i64Rel .eq] ++
    (.if :: (entry.1.instructions.flatMap (encodeWasmInstruction function) ++
      encodeWasmTerminator function (UInt32.ofNat entry.2) entry.1.terminator) ++ [.end])

def wasmPrologue : List WasmOp :=
  (List.range function.paramCount.toNat).flatMap (fun parameter =>
    [.localGet (UInt32.ofNat parameter),
      .localSet (wasmLocal function (UInt32.ofNat parameter + 1))]) ++
    [.i64Const (i64OfU32 function.startBlock), .localSet (blockLocal function),
      .i64Const (-1), .localSet (previousBlockLocal function)]

/-- The dispatch loop, from the first instruction of its body on. -/
def wasmDispatch : List WasmOp :=
  function.blocks.zipIdx.flatMap (encodeWasmBlock function) ++
    [.unreachable, .end, .end, .i64Const 0, .end]

def encodeWasmFunction : WasmFunction where
  paramCount := function.paramCount.toNat
  extraLocals := (function.localCount + 2).toNat
  code := wasmPrologue function ++ .block :: .loop :: wasmDispatch function

def encodeWasm (program : PortableProgram) : WasmModule where
  functions := program.functions.map encodeWasmFunction
  main := program.mainIndex

end Sengoo.Portable
