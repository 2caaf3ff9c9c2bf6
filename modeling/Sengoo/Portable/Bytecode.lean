import Sengoo.Codec
import Sengoo.Portable.Ir

/-!
The `SGB1` bytecode format: `encodeBytecode` writes a portable program and
`decodeBytecode` reads one back. The reader of the source keeps a byte slice
and an offset; here its state is the unread suffix, so `remaining` is the
length of the state. Offsets never overflow, because a slice is at most
`isize::MAX` bytes long and a read is at most `u32::MAX` bytes.
-/

namespace Sengoo.Portable

open Codec

def bytecodeMagic : List UInt8 := [0x53, 0x47, 0x42, 0x31]

def bytecodeVersion : UInt16 := 1

inductive BytecodeError where
  | truncated
  | invalidCount (kind : String)
  | nameNotUtf8
  | nameTooLong
  | unknownUnary (code : UInt8)
  | unknownBinary (code : UInt8)
  | invalidScalarWidth (bits : UInt8)
  | unknownInstruction (opcode : UInt8)
  | unknownArgTag (tag : UInt8)
  | unknownTerminator (opcode : UInt8)
  | invalidMagic
  | unsupportedVersion (version : UInt16)
  | trailingData
  | mainIndexOutOfRange
  deriving DecidableEq

abbrev BytecodeReader := Decoder BytecodeError

def remaining : BytecodeReader Nat := do
  let unread ← get
  pure unread.length

def readExact (count : Nat) : BytecodeReader (List UInt8) := do
  let unread ← get
  if unread.length < count then
    throw .truncated
  else
    set (unread.drop count)
    pure (unread.take count)

def readU8 : BytecodeReader UInt8 := do
  let bytes ← readExact 1
  pure (bytes.headD 0)

def readU16 : BytecodeReader UInt16 := do
  let bytes ← readExact 2
  pure (UInt16.ofNat (ofLeBytes bytes))

def readU32 : BytecodeReader UInt32 := do
  let bytes ← readExact 4
  pure (UInt32.ofNat (ofLeBytes bytes))

def readI64 : BytecodeReader I64 := do
  let bytes ← readExact 8
  pure (BitVec.ofNat 64 (ofLeBytes bytes))

def readCount (kind : String) : BytecodeReader Nat := do
  let count ← readU32
  let left ← remaining
  if count.toNat > left + 1 then
    throw (.invalidCount kind)
  else
    pure count.toNat

def readString : BytecodeReader String := do
  let length ← readU32
  let bytes ← readExact length.toNat
  match String.fromUTF8? ⟨bytes.toArray⟩ with
  | some name => pure name
  | none => throw .nameNotUtf8

/-- The length-prefixed lists of the format: a count, then that many items. -/
def readVec {α : Type} (kind : String) (item : BytecodeReader α) :
    BytecodeReader (List α) := do
  let count ← readCount kind
  repeatN item count

def writeU16 (value : UInt16) : List UInt8 :=
  leBytes 2 value.toNat

def writeU32 (value : UInt32) : List UInt8 :=
  leBytes 4 value.toNat

def writeI64 (value : I64) : List UInt8 :=
  leBytes 8 value.toNat

def writeString (value : String) : Except BytecodeError (List UInt8) :=
  if value.toUTF8.size < 2 ^ 32 then
    .ok (writeU32 (UInt32.ofNat value.toUTF8.size) ++ value.toUTF8.data.toList)
  else
    .error .nameTooLong

/-- A `u32` length followed by the items, as the encoder writes every list. -/
def writeVec {α : Type} (item : α → List UInt8) (items : List α) : List UInt8 :=
  writeU32 (UInt32.ofNat items.length) ++ items.flatMap item

def unaryCode : PortableUnary → UInt8
  | .neg => 0
  | .not => 1
  | .bitNot => 2

def decodeUnary (code : UInt8) : BytecodeReader PortableUnary :=
  match code with
  | 0 => pure .neg
  | 1 => pure .not
  | 2 => pure .bitNot
  | _ => throw (.unknownUnary code)

def binaryOps : List PortableBinary :=
  [.add, .sub, .mul, .div, .rem, .bitAnd, .bitOr, .bitXor, .shl, .shr, .logAnd, .logOr,
    .eq, .ne, .lt, .gt, .le, .ge]

/-- `op as u8`: the position of the operator in the declaration of the enum. -/
def binaryCode : PortableBinary → UInt8
  | .add => 0
  | .sub => 1
  | .mul => 2
  | .div => 3
  | .rem => 4
  | .bitAnd => 5
  | .bitOr => 6
  | .bitXor => 7
  | .shl => 8
  | .shr => 9
  | .logAnd => 10
  | .logOr => 11
  | .eq => 12
  | .ne => 13
  | .lt => 14
  | .gt => 15
  | .le => 16
  | .ge => 17

def decodeBinary (code : UInt8) : BytecodeReader PortableBinary :=
  match binaryOps[code.toNat]? with
  | some op => pure op
  | none => throw (.unknownBinary code)

def encodeScalarType (ty : PortableScalarType) : List UInt8 :=
  [ty.bits, ty.signed.toUInt8]

def decodeScalarType : BytecodeReader PortableScalarType := do
  let bits ← readU8
  if bits ∈ [0, 1, 8, 16, 32, 64] then
    let signed ← readU8
    pure ⟨bits, signed != 0⟩
  else
    throw (.invalidScalarWidth bits)

def writePair (pair : UInt32 × UInt32) : List UInt8 :=
  writeU32 pair.1 ++ writeU32 pair.2

def readPair : BytecodeReader (UInt32 × UInt32) := do
  let first ← readU32
  let second ← readU32
  pure (first, second)

def encodeInstruction : PortableInstruction → List UInt8
  | .const destination value => [0] ++ writeU32 destination ++ writeI64 value
  | .unary destination op operand =>
    [1] ++ writeU32 destination ++ [unaryCode op] ++ writeU32 operand
  | .binary destination op left right unsigned =>
    [2] ++ writeU32 destination ++ [binaryCode op] ++ writeU32 left ++ writeU32 right ++
      [unsigned.toUInt8]
  | .move destination source => [3] ++ writeU32 destination ++ writeU32 source
  | .cast destination source fromTy toTy =>
    [7] ++ writeU32 destination ++ writeU32 source ++ encodeScalarType fromTy ++
      encodeScalarType toTy
  | .call destination function args =>
    [4] ++ writeU32 destination ++ writeU32 function ++ writeVec writeU32 args
  | .phi destination incoming => [5] ++ writeU32 destination ++ writeVec writePair incoming
  | .nop => [6]

def decodeInstruction : BytecodeReader PortableInstruction := do
  let opcode ← readU8
  match opcode with
  | 0 => do
      let destination ← readU32
      let value ← readI64
      pure (.const destination value)
  | 1 => do
      let destination ← readU32
      let op ← readU8 >>= decodeUnary
      let operand ← readU32
      pure (.unary destination op operand)
  | 2 => do
      let destination ← readU32
      let op ← readU8 >>= decodeBinary
      let left ← readU32
      let right ← readU32
      let unsigned ← readU8
      pure (.binary destination op left right (unsigned != 0))
  | 3 => do
      let destination ← readU32
      let source ← readU32
      pure (.move destination source)
  | 4 => do
      let destination ← readU32
      let function ← readU32
      let args ← readVec "call argument" readU32
      pure (.call destination function args)
  | 5 => do
      let destination ← readU32
      let incoming ← readVec "phi input" readPair
      pure (.phi destination incoming)
  | 6 => pure .nop
  | 7 => do
      let destination ← readU32
      let source ← readU32
      let fromTy ← decodeScalarType
      let toTy ← decodeScalarType
      pure (.cast destination source fromTy toTy)
  | opcode => throw (.unknownInstruction opcode)

def encodeArg : PortableArg → List UInt8
  | .local slot => [0] ++ writeU32 slot
  | .constant value => [1] ++ writeI64 value

def decodeArg : BytecodeReader PortableArg := do
  let tag ← readU8
  match tag with
  | 0 => do
      let slot ← readU32
      pure (.local slot)
  | 1 => do
      let value ← readI64
      pure (.constant value)
  | tag => throw (.unknownArgTag tag)

def encodeTerminator : PortableTerminator → List UInt8
  | .return none => [0] ++ [0]
  | .return (some slot) => [0] ++ [1] ++ writeU32 slot
  | .goto target => [1] ++ writeU32 target
  | .if condition thenBlock elseBlock =>
    [2] ++ writeU32 condition ++ writeU32 thenBlock ++ writeU32 elseBlock
  | .switch discriminant targets otherwise =>
    [3] ++ writeU32 discriminant ++ writeVec writePair targets ++ writeU32 otherwise
  | .call function args destination target =>
    [4] ++ writeU32 function ++ writeVec encodeArg args ++ writeU32 destination ++ writeU32 target
  | .unreachable => [5]

def decodeTerminator : BytecodeReader PortableTerminator := do
  let opcode ← readU8
  match opcode with
  | 0 => do
      let present ← readU8
      if present = 0 then
        pure (.return none)
      else do
        let slot ← readU32
        pure (.return (some slot))
  | 1 => do
      let target ← readU32
      pure (.goto target)
  | 2 => do
      let condition ← readU32
      let thenBlock ← readU32
      let elseBlock ← readU32
      pure (.if condition thenBlock elseBlock)
  | 3 => do
      let discriminant ← readU32
      let targets ← readVec "switch target" readPair
      let otherwise ← readU32
      pure (.switch discriminant targets otherwise)
  | 4 => do
      let function ← readU32
      let args ← readVec "call argument" decodeArg
      let destination ← readU32
      let target ← readU32
      pure (.call function args destination target)
  | 5 => pure .unreachable
  | opcode => throw (.unknownTerminator opcode)

def encodeBlock (block : PortableBlock) : List UInt8 :=
  writeVec encodeInstruction block.instructions ++ encodeTerminator block.terminator

def decodeBlock : BytecodeReader PortableBlock := do
  let instructions ← readVec "instruction" decodeInstruction
  let terminator ← decodeTerminator
  pure ⟨instructions, terminator⟩

def encodeFunction (function : PortableFunction) : Except BytecodeError (List UInt8) := do
  let name ← writeString function.name
  pure (name ++ writeU32 function.paramCount ++ writeU32 function.localCount ++
    writeU32 function.startBlock ++ writeVec encodeBlock function.blocks)

def decodeFunction : BytecodeReader PortableFunction := do
  let name ← readString
  let paramCount ← readU32
  let localCount ← readU32
  let startBlock ← readU32
  let blocks ← readVec "block" decodeBlock
  pure ⟨name, paramCount, localCount, startBlock, blocks⟩

def encodeBytecode (program : PortableProgram) : Except BytecodeError (List UInt8) := do
  let functions ← program.functions.mapM encodeFunction
  pure (bytecodeMagic ++ writeU16 bytecodeVersion ++ writeU32 program.mainIndex ++
    writeU32 (UInt32.ofNat program.functions.length) ++ functions.flatten)

def decodeProgram : BytecodeReader PortableProgram := do
  let magic ← readExact 4
  if magic ≠ bytecodeMagic then throw .invalidMagic else
  let version ← readU16
  if version ≠ bytecodeVersion then throw (.unsupportedVersion version) else
  let mainIndex ← readU32
  let functions ← readVec "function" decodeFunction
  let left ← remaining
  if left ≠ 0 then throw .trailingData else
  if mainIndex.toNat ≥ functions.length then throw .mainIndexOutOfRange else
  pure ⟨functions, mainIndex⟩

def decodeBytecode (bytes : List UInt8) : Except BytecodeError PortableProgram :=
  Prod.fst <$> decodeProgram.run bytes

end Sengoo.Portable
