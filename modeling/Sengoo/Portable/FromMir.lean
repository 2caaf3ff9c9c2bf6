import Sengoo.Fallible
import Sengoo.Mir.Syntax
import Sengoo.Portable.Ir

/-!
Lowering of MIR to the portable scalar IR. Everything outside the scalar
surface is refused, and a width-changing cast carries the scalar types of its
source and destination locals.
-/

namespace Sengoo.Portable

open Sengoo.Mir Sengoo.Fallible

inductive PortableBackendTarget where
  | wasm
  | bytecode
  deriving DecidableEq

variable {target : PortableBackendTarget}

/-- What a refused program asks for. -/
inductive Capability where
  | withoutMain
  | mainParams (count : Nat)
  | mainReturnType (ty : MIRType)
  | asyncFunction (function : String)
  | mirType (ty : MIRType) (function : String)
  | unterminatedBlock (block : Nat) (function : String)
  | loadInstruction (function : String)
  | storeInstruction (function : String)
  | addrOfInstruction (function : String)
  | nonScalarCast (source destination : MIRType) (function : String)
  | mixedSign (left right : MIRType) (function : String)
  | hostCall (callee caller : String)
  | constant (value : MirConstant) (function : String)
  | mirInstruction (instruction : Instruction) (function : String)
  | mirTerminator (terminator : Terminator) (function : String)

inductive PortableError where
  | unsupportedTargetCapability (target : PortableBackendTarget) (capability : Capability)
  | missingMainBody
  | missingLocalType (localId : UInt32) (function : String)
  /-- The arena index of a block is out of range, where the code panics. -/
  | instructionIndex (id : UInt32)

def PortableUnary.ofMir : MirUnOp → PortableUnary
  | .neg => .neg
  | .not => .not
  | .bitNot => .bitNot

def PortableBinary.ofMir : MirBinOp → PortableBinary
  | .add => .add
  | .sub => .sub
  | .mul => .mul
  | .div => .div
  | .rem => .rem
  | .bitAnd => .bitAnd
  | .bitOr => .bitOr
  | .bitXor => .bitXor
  | .shl => .shl
  | .shr => .shr
  | .logAnd => .logAnd
  | .logOr => .logOr
  | .eq => .eq
  | .ne => .ne
  | .lt => .lt
  | .gt => .gt
  | .le => .le
  | .ge => .ge

variable (target)

def portableScalarType (function : String) :
    MIRType → Except PortableError PortableScalarType
  | .unit | .never => .ok ⟨0, false⟩
  | .bool => .ok ⟨1, false⟩
  | .int bits =>
    if bits = 8 ∨ bits = 16 ∨ bits = 32 ∨ bits = 64 then .ok ⟨bits, true⟩
    else .error (.unsupportedTargetCapability target (.mirType (.int bits) function))
  | .uint bits =>
    if bits = 8 ∨ bits = 16 ∨ bits = 32 ∨ bits = 64 then .ok ⟨bits, false⟩
    else .error (.unsupportedTargetCapability target (.mirType (.uint bits) function))
  | ty => .error (.unsupportedTargetCapability target (.mirType ty function))

def validatePortableType (function : String)
    (ty : MIRType) : Except PortableError Unit := do
  let _ ← portableScalarType target function ty
  pure ()

def mirLocalType (function : MirFunction) (localId : UInt32) :
    Except PortableError MIRType :=
  match function.locals.find? (fun entry => entry.1.id = localId) with
  | some (_, ty) => .ok ty
  | none => .error (.missingLocalType localId function.name)

def mirTypeIsUnsigned : MIRType → Bool
  | .uint _ => true
  | _ => false

def isPortableScalarValueType : MIRType → Bool
  | .unit | .never | .bool | .int _ | .uint _ => true
  | _ => false

def isIntegerType : MIRType → Bool
  | .int _ | .uint _ => true
  | _ => false

def isBoolUnitOrNever : MIRType → Bool
  | .bool | .unit | .never => true
  | _ => false

def portableBinaryIsUnsigned (function : String)
    (leftTy rightTy : MIRType) : Except PortableError Bool :=
  let leftUnsigned := mirTypeIsUnsigned leftTy
  let rightUnsigned := mirTypeIsUnsigned rightTy
  if leftUnsigned ≠ rightUnsigned ∧ ¬ isBoolUnitOrNever leftTy ∧
      ¬ isBoolUnitOrNever rightTy ∧ isIntegerType leftTy ∧ isIntegerType rightTy then
    .error (.unsupportedTargetCapability target (.mixedSign leftTy rightTy function))
  else .ok (leftUnsigned || rightUnsigned)

def portableConstant (function : String) :
    MirConstant → Except PortableError I64
  | .unit => .ok 0
  | .bool value => .ok (if value then 1 else 0)
  | .int value => .ok value
  | .uint value => .ok value
  | .char value => .ok (BitVec.ofNat 64 value.toNat)
  | other => .error (.unsupportedTargetCapability target (.constant other function))

/-- The index of a function by name; of two functions with one name the later
one wins, as in the map the code collects. -/
def functionIndices (functions : List MirFunction) (name : String) : Option UInt32 :=
  (functions.zipIdx.reverse.find? (fun entry => entry.1.name = name)).map
    (fun entry => UInt32.ofNat entry.2)

def resolveFunction (caller callee : String)
    (indices : String → Option UInt32) : Except PortableError UInt32 :=
  match indices callee with
  | some index => .ok index
  | none => .error (.unsupportedTargetCapability target (.hostCall callee caller))

/-- The shared branch of casts and bitcasts: both re-read the types of the two
locals and ignore the type written in the instruction. -/
def portableCast (function : MirFunction)
    (destination source : Local) : Except PortableError PortableInstruction := do
  let destTy ← mirLocalType function destination.id
  let srcTy ← mirLocalType function source.id
  if ¬ isPortableScalarValueType destTy ∨ ¬ isPortableScalarValueType srcTy then
    throw (.unsupportedTargetCapability target (.nonScalarCast srcTy destTy function.name))
  else
    let fromTy ← portableScalarType target function.name srcTy
    let toTy ← portableScalarType target function.name destTy
    pure (.cast destination.id source.id fromTy toTy)

def PortableInstruction.fromMir (function : MirFunction)
    (indices : String → Option UInt32) :
    Instruction → Except PortableError PortableInstruction
  | .assign destination value => do
      let value ← portableConstant target function.name value
      pure (.const destination.id value)
  | .unary destination op operand =>
    pure (.unary destination.id (.ofMir op) operand.id)
  | .binary destination op left right => do
      let leftTy ← mirLocalType function left.id
      let rightTy ← mirLocalType function right.id
      let unsigned ← portableBinaryIsUnsigned target function.name leftTy rightTy
      pure (.binary destination.id (.ofMir op) left.id right.id unsigned)
  | .load _ _ =>
    throw (.unsupportedTargetCapability target (.loadInstruction function.name))
  | .store _ _ =>
    throw (.unsupportedTargetCapability target (.storeInstruction function.name))
  | .addrOf _ _ =>
    throw (.unsupportedTargetCapability target (.addrOfInstruction function.name))
  | .cast destination value _ => portableCast target function destination value
  | .bitcast destination value _ => portableCast target function destination value
  | .call destination func args => do
      let callee ← resolveFunction target function.name func indices
      pure (.call destination.id callee (args.map (·.id)))
  | .phi destination incoming =>
    pure (.phi destination.id (incoming.map (fun entry => (entry.1.id, UInt32.ofNat entry.2))))
  | .nop => pure .nop
  | other =>
    throw (.unsupportedTargetCapability target (.mirInstruction other function.name))

def PortableArg.fromMir (function : String) :
    CallArg → Except PortableError PortableArg
  | .local slot => pure (.local slot.id)
  | .constant value => do
      let value ← portableConstant target function value
      pure (.constant value)

def PortableTerminator.fromMir (function : String)
    (indices : String → Option UInt32) :
    Terminator → Except PortableError PortableTerminator
  | .return value => pure (.return (value.map (·.id)))
  | .goto block | .break block | .continue block => pure (.goto (UInt32.ofNat block))
  | .if cond thenBlock elseBlock =>
    pure (.if cond.id (UInt32.ofNat thenBlock) (UInt32.ofNat elseBlock))
  | .switch discr targets otherwise =>
    pure (.switch discr.id (targets.map (fun entry => (entry.1, UInt32.ofNat entry.2)))
      (UInt32.ofNat otherwise))
  | .call func args destination target' => do
      let callee ← resolveFunction target function func indices
      let args ← args.mapM (PortableArg.fromMir target function)
      pure (.call callee args destination.id (UInt32.ofNat target'))
  | .unreachable => pure .unreachable
  | other => throw (.unsupportedTargetCapability target (.mirTerminator other function))

def blockInstruction (function : MirFunction) (id : UInt32) :
    Except PortableError Instruction :=
  match function.instructions[id.toNat]? with
  | some instruction => .ok instruction
  | none => .error (.instructionIndex id)

def PortableBlock.fromMir (function : MirFunction)
    (indices : String → Option UInt32) (block : BasicBlock) :
    Except PortableError PortableBlock := do
  let instructions ← block.instructions.mapM (fun id => do
    let instruction ← blockInstruction function id
    PortableInstruction.fromMir target function indices instruction)
  match block.terminator with
  | none =>
    throw (.unsupportedTargetCapability target (.unterminatedBlock block.id function.name))
  | some terminator => do
      let terminator ← PortableTerminator.fromMir target function.name indices terminator
      pure ⟨instructions, terminator⟩

def PortableFunction.fromMir
    (indices : String → Option UInt32) (function : MirFunction) :
    Except PortableError PortableFunction := do
  if function.isAsync then
    throw (.unsupportedTargetCapability target (.asyncFunction function.name))
  else
    function.locals.forM (fun entry => validatePortableType target function.name entry.2)
    let blocks ← function.basicBlocks.mapM (PortableBlock.fromMir target function indices)
    pure {
      name := function.name
      paramCount := UInt32.ofNat function.params.length
      localCount := UInt32.ofNat function.locals.length
      startBlock := UInt32.ofNat function.startBlock
      blocks := blocks }

def validatePortableMainSignature (main : MirFunction) :
    Except PortableError Unit :=
  if main.params ≠ [] then
    .error (.unsupportedTargetCapability target (.mainParams main.params.length))
  else
    match main.returnType with
    | .int 64 => .ok ()
    | other => .error (.unsupportedTargetCapability target (.mainReturnType other))

def PortableProgram.fromMir
    (functions : List MirFunction) : Except PortableError PortableProgram :=
  let indices := functionIndices functions
  match indices "main" with
  | none => .error (.unsupportedTargetCapability target .withoutMain)
  | some mainIndex =>
    match functions[mainIndex.toNat]? with
    | none => .error .missingMainBody
    | some main => do
        validatePortableMainSignature target main
        let functions ← functions.mapM (PortableFunction.fromMir target indices)
        pure ⟨functions, mainIndex⟩

variable {target}

/-- Every function of a lowered program comes from a MIR function. -/
theorem PortableProgram.fromMir_functions
    {functions : List MirFunction} {program : PortableProgram}
    (h : PortableProgram.fromMir target functions = .ok program) :
    ∀ function ∈ program.functions, ∃ mir ∈ functions,
      PortableFunction.fromMir target (functionIndices functions) mir = .ok function := by
  unfold PortableProgram.fromMir at h
  simp only at h
  split at h
  · cases h
  · split at h
    · cases h
    · obtain ⟨_, -, h⟩ := bind_eq_ok h
      obtain ⟨lowered, hlowered, h⟩ := bind_eq_ok h
      cases h
      exact exists_of_mem_mapM hlowered

theorem mem_of_blockInstruction {function : MirFunction} {id : UInt32}
    {instruction : Instruction} (h : blockInstruction function id = .ok instruction) :
    instruction ∈ function.instructions := by
  unfold blockInstruction at h
  split at h
  · rename_i found hfound
    cases h
    exact List.mem_of_getElem? hfound
  · cases h

section

variable {indices : String → Option UInt32} {mir : MirFunction} {function : PortableFunction}
  (h : PortableFunction.fromMir target indices mir = .ok function)
include h

/-- Every local of a lowered function has a scalar type. -/
theorem PortableFunction.fromMir_locals :
    ∀ entry ∈ mir.locals, ∃ scalar, portableScalarType target mir.name entry.2 = .ok scalar := by
  unfold PortableFunction.fromMir at h
  obtain ⟨-, h⟩ := of_guard h
  obtain ⟨_, hlocals, -⟩ := bind_eq_ok h
  intro entry hentry
  obtain ⟨scalar, hscalar, -⟩ := bind_eq_ok (exists_of_forM_ok hlocals entry hentry)
  exact ⟨scalar, hscalar⟩

/-- Every instruction of a lowered function comes from an instruction of the MIR
function. -/
theorem PortableFunction.fromMir_instructions :
    ∀ block ∈ function.blocks, ∀ instruction ∈ block.instructions, ∃ source ∈ mir.instructions,
        PortableInstruction.fromMir target mir indices source = .ok instruction := by
  unfold PortableFunction.fromMir at h
  obtain ⟨-, h⟩ := of_guard h
  obtain ⟨_, -, h⟩ := bind_eq_ok h
  obtain ⟨blocks, hblocks, h⟩ := bind_eq_ok h
  cases h
  intro block hblock instruction hinstruction
  obtain ⟨source, -, hsource⟩ := exists_of_mem_mapM hblocks block hblock
  obtain ⟨instructions, hinstructions, hsource⟩ := bind_eq_ok hsource
  split at hsource
  · cases hsource
  · obtain ⟨terminator, -, hsource⟩ := bind_eq_ok hsource
    cases hsource
    obtain ⟨id, -, hid⟩ := exists_of_mem_mapM hinstructions instruction hinstruction
    obtain ⟨mirInstruction, hindex, hlowered⟩ := bind_eq_ok hid
    exact ⟨mirInstruction, mem_of_blockInstruction hindex, hlowered⟩

end

end Sengoo.Portable
