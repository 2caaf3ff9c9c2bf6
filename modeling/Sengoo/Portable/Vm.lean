import Sengoo.Fallible
import Sengoo.Portable.Ir

/-!
The bytecode VM. `call` runs one function body on zeroed locals, block after
block, and calls itself for calls; every block and every instruction counts
against one step limit, and nesting is limited as well. The two fuel arguments
only make the recursion structural: `executeBytecode` passes enough of each that
neither runs out before the limit it stands for is reported.
-/

namespace Sengoo.Portable

open Sengoo.Fallible

def vmStepLimit : Nat := 10000000

def vmRecursionLimit : Nat := 1024

inductive VmError where
  | recursionLimitExceeded
  | missingFunction (index : UInt32)
  | arity (name : String) (expected : UInt32) (got : Nat)
  | instructionLimitExceeded
  | missingBlock (function : String) (block : UInt32)
  | unreachable (function : String)
  | missingLocal (slot : UInt32)
  | divisionTrap
  | remainderTrap
  | phiWithoutPredecessor
  | phiNoIncoming (block : UInt32)
  | outOfFuel
  deriving DecidableEq

/-- The traps of the VM: a division or remainder trap, or `unreachable`. -/
def VmError.isTrap : VmError → Bool
  | .divisionTrap | .remainderTrap | .unreachable _ => true
  | _ => false

/-- The errors that a limit causes, as opposed to the program. -/
def VmError.isLimit : VmError → Bool
  | .recursionLimitExceeded | .instructionLimitExceeded | .outOfFuel => true
  | _ => false

structure PortableVm where
  steps : Nat
  depth : Nat
  deriving DecidableEq

abbrev Vm := ExceptT VmError (StateM PortableVm)

def getLocal (locals : List I64) (slot : UInt32) : Except VmError I64 :=
  match locals[slot.toNat]? with
  | some value => .ok value
  | none => .error (.missingLocal slot)

def setLocal (locals : List I64) (slot : UInt32) (value : I64) :
    Except VmError (List I64) :=
  if slot.toNat < locals.length then .ok (locals.set slot.toNat value)
  else .error (.missingLocal slot)

variable {locals locals' : List I64} {slot : UInt32} {value : I64} {e : VmError}

theorem getLocal_ok (h : getLocal locals slot = .ok value) : locals[slot.toNat]? = some value := by
  unfold getLocal at h
  split at h
  · rename_i v hv
    cases h
    exact hv
  · cases h

theorem setLocal_ok (h : setLocal locals slot value = .ok locals') :
    slot.toNat < locals.length ∧ locals' = locals.set slot.toNat value := by
  unfold setLocal at h
  split at h
  · rename_i hslot
    cases h
    exact ⟨hslot, rfl⟩
  · cases h

theorem getLocal_error (h : getLocal locals slot = .error e) : e = .missingLocal slot := by
  unfold getLocal at h
  split at h
  · cases h
  · cases h
    rfl

theorem setLocal_error (h : setLocal locals slot value = .error e) : e = .missingLocal slot := by
  unfold setLocal at h
  split at h
  · cases h
  · cases h
    rfl

/-- `i64::from` of a boolean. -/
def i64OfBool (b : Bool) : I64 := if b then 1 else 0

/-- `u32 as i64`. -/
def i64OfU32 (n : UInt32) : I64 := BitVec.ofNat 64 n.toNat

def evalUnary (op : PortableUnary) (value : I64) : I64 :=
  match op with
  | .neg => -value
  | .not => i64OfBool (value == 0)
  | .bitNot => ~~~value

/-- `checked_div` and `checked_rem` refuse a zero divisor and `MIN / -1`. -/
def divisionOverflows (left right : I64) : Bool :=
  right == 0 || (left == BitVec.intMin 64 && right == -1)

/-- `(right as u32) & 63`. -/
def shiftAmount (right : I64) : Nat := (right.setWidth 32 &&& 63).toNat

def evalBinary (op : PortableBinary) (unsigned : Bool) (left right : I64) :
    Except VmError I64 :=
  match op with
  | .add => .ok (left + right)
  | .sub => .ok (left - right)
  | .mul => .ok (left * right)
  | .div =>
    if unsigned then
      if right = 0 then .error .divisionTrap else .ok (left / right)
    else if divisionOverflows left right then .error .divisionTrap
    else .ok (left.sdiv right)
  | .rem =>
    if unsigned then
      if right = 0 then .error .remainderTrap else .ok (left % right)
    else if divisionOverflows left right then .error .remainderTrap
    else .ok (left.srem right)
  | .bitAnd => .ok (left &&& right)
  | .bitOr => .ok (left ||| right)
  | .bitXor => .ok (left ^^^ right)
  | .shl => .ok (left <<< shiftAmount right)
  | .shr =>
    if unsigned then .ok (left >>> shiftAmount right)
    else .ok (left.sshiftRight (shiftAmount right))
  | .logAnd => .ok (i64OfBool (left != 0 && right != 0))
  | .logOr => .ok (i64OfBool (left != 0 || right != 0))
  | .eq => .ok (i64OfBool (left == right))
  | .ne => .ok (i64OfBool (left != right))
  | .lt => .ok (i64OfBool (if unsigned then left.ult right else left.slt right))
  | .gt => .ok (i64OfBool (if unsigned then right.ult left else right.slt left))
  | .le => .ok (i64OfBool (if unsigned then left.ule right else left.sle right))
  | .ge => .ok (i64OfBool (if unsigned then right.ule left else right.sle left))

def normalizePortableScalar (value : I64) (ty : PortableScalarType) : I64 :=
  if ty.bits = 0 then 0
  else if ty.bits = 64 then value
  else
    let bits := ty.bits.toNat
    let mask : I64 := (1#64 <<< bits) - 1#64
    let raw := value &&& mask
    if ty.signed ∧ raw &&& (1#64 <<< (bits - 1)) ≠ 0#64 then raw ||| ~~~mask else raw

/-- The source a phi reads when control came from `previous`. -/
def phiSource (incoming : List (UInt32 × UInt32)) (previous : UInt32) : Option UInt32 :=
  (incoming.find? (fun entry => entry.2 = previous)).map (·.1)

/-- Every instruction but calls, on the locals of the running function. -/
def executeScalar (instruction : PortableInstruction) (previousBlock : Option UInt32)
    (locals : List I64) : Except VmError (List I64) :=
  match instruction with
  | .const destination value => setLocal locals destination value
  | .unary destination op operand => do
      let value ← getLocal locals operand
      setLocal locals destination (evalUnary op value)
  | .binary destination op left right unsigned => do
      let left ← getLocal locals left
      let right ← getLocal locals right
      let result ← evalBinary op unsigned left right
      setLocal locals destination result
  | .move destination source => do
      let value ← getLocal locals source
      setLocal locals destination value
  | .cast destination source fromTy toTy => do
      let value ← getLocal locals source
      setLocal locals destination
        (normalizePortableScalar (normalizePortableScalar value fromTy) toTy)
  | .phi destination incoming =>
    match previousBlock with
    | none => .error .phiWithoutPredecessor
    | some previous =>
      match phiSource incoming previous with
      | none => .error (.phiNoIncoming previous)
      | some source => do
          let value ← getLocal locals source
          setLocal locals destination value
  | .nop | .call _ _ _ => .ok locals

theorem executeScalar_phi_ok {destination : UInt32} {incoming : List (UInt32 × UInt32)}
    {previousBlock : Option UInt32}
    (h : executeScalar (.phi destination incoming) previousBlock locals = .ok locals') :
    ∃ previous source value, previousBlock = some previous ∧
      phiSource incoming previous = some source ∧ getLocal locals source = .ok value ∧
      setLocal locals destination value = .ok locals' := by
  simp only [executeScalar] at h
  split at h
  · cases h
  · rename_i previous
    split at h
    · cases h
    · rename_i source hsource
      obtain ⟨value, hvalue, hset⟩ := bind_eq_ok h
      exact ⟨previous, source, value, rfl, hsource, hvalue, hset⟩

theorem executeScalar_phi_error {destination : UInt32} {incoming : List (UInt32 × UInt32)}
    {previousBlock : Option UInt32}
    (h : executeScalar (.phi destination incoming) previousBlock locals = .error e) :
    e.isTrap = false ∧ e.isLimit = false := by
  simp only [executeScalar] at h
  split at h
  · cases h
    exact ⟨rfl, rfl⟩
  · split at h
    · cases h
      exact ⟨rfl, rfl⟩
    · rcases bind_eq_error h with hvalue | ⟨value, -, hset⟩
      · cases getLocal_error hvalue
        exact ⟨rfl, rfl⟩
      · cases setLocal_error hset
        exact ⟨rfl, rfl⟩

/-- The target of a switch: the first entry for the low 32 bits of the value. -/
def switchTarget (targets : List (UInt32 × UInt32)) (otherwise : UInt32) (value : I64) :
    UInt32 :=
  match targets.find? (fun entry => entry.1.toBitVec = value.setWidth 32) with
  | some entry => entry.2
  | none => otherwise

def argValue (locals : List I64) : PortableArg → Except VmError I64
  | .local slot => getLocal locals slot
  | .constant value => .ok value

theorem getLocals_error {slots : List UInt32} (h : slots.mapM (getLocal locals) = .error e) :
    ∃ slot, e = .missingLocal slot := by
  obtain ⟨slot, -, hslot⟩ := exists_of_mapM_error h
  exact ⟨slot, getLocal_error hslot⟩

theorem argValues_error {args : List PortableArg}
    (h : args.mapM (argValue locals) = .error e) : ∃ slot, e = .missingLocal slot := by
  obtain ⟨arg, -, harg⟩ := exists_of_mapM_error h
  cases arg with
  | «local» slot => exact ⟨slot, getLocal_error harg⟩
  | constant value => cases harg

def liftResult {α : Type} (result : Except VmError α) : Vm α :=
  ExceptT.mk (pure result)

def countStep : Vm Bool := do
  modify (fun vm => { vm with steps := vm.steps + 1 })
  let vm ← get
  pure (vm.steps > vmStepLimit)

section Execution

variable (callee : UInt32 → List I64 → Vm I64)

def executeInstruction (instruction : PortableInstruction) (previousBlock : Option UInt32)
    (locals : List I64) : Vm (List I64) := do
  if ← countStep then throw .instructionLimitExceeded else
  match instruction with
  | .call destination function args => do
      let args ← liftResult (args.mapM (getLocal locals))
      let value ← callee function args
      liftResult (setLocal locals destination value)
  | other => liftResult (executeScalar other previousBlock locals)

def executeInstructions (previousBlock : Option UInt32) :
    List PortableInstruction → List I64 → Vm (List I64)
  | [], locals => pure locals
  | instruction :: rest, locals => do
      let locals ← executeInstruction callee instruction previousBlock locals
      executeInstructions previousBlock rest locals

/-- The block loop of `call`. A `break` with an error is a returned error value,
so that the caller still leaves its depth as the code does. -/
def runBlocks (function : PortableFunction) :
    Nat → UInt32 → Option UInt32 → List I64 → Vm (Except VmError I64)
  | 0, _, _, _ => throw .outOfFuel
  | fuel + 1, block, previousBlock, locals => do
      if ← countStep then pure (.error .instructionLimitExceeded) else
      match function.blocks[block.toNat]? with
      | none => throw (.missingBlock function.name block)
      | some current => do
          let locals ← executeInstructions callee previousBlock current.instructions locals
          match current.terminator with
          | .return none => pure (.ok 0)
          | .return (some slot) => do
              let value ← liftResult (getLocal locals slot)
              pure (.ok value)
          | .goto target => runBlocks function fuel target (some block) locals
          | .if condition thenBlock elseBlock => do
              let value ← liftResult (getLocal locals condition)
              runBlocks function fuel (if value ≠ 0 then thenBlock else elseBlock)
                (some block) locals
          | .switch discriminant targets otherwise => do
              let value ← liftResult (getLocal locals discriminant)
              runBlocks function fuel (switchTarget targets otherwise value) (some block) locals
          | .call index args destination target => do
              let values ← liftResult (args.mapM (argValue locals))
              let value ← callee index values
              let locals ← liftResult (setLocal locals destination value)
              runBlocks function fuel target (some block) locals
          | .unreachable => pure (.error (.unreachable function.name))

end Execution

/-- Argument `index` is stored in local `index + 1`; local 0 is the result. -/
def storeArgs (locals : List I64) (args : List I64) : Except VmError (List I64) :=
  args.zipIdx.foldlM (fun locals entry => setLocal locals (UInt32.ofNat entry.2 + 1) entry.1) locals

theorem storeArgs_error {args : List I64} (h : storeArgs locals args = .error e) :
    ∃ slot, e = .missingLocal slot := by
  obtain ⟨entry, -, stored, hset⟩ := exists_of_foldlM_error h
  exact ⟨_, setLocal_error hset⟩

def call (program : PortableProgram) : Nat → UInt32 → List I64 → Vm I64
  | 0, _, _ => throw .outOfFuel
  | fuel + 1, functionIndex, args => do
      let vm ← get
      if vm.depth ≥ vmRecursionLimit then throw .recursionLimitExceeded else
      match program.functions[functionIndex.toNat]? with
      | none => throw (.missingFunction functionIndex)
      | some function =>
        if args.length ≠ function.paramCount.toNat then
          throw (.arity function.name function.paramCount args.length)
        else do
          let locals ← liftResult (storeArgs (List.replicate function.localCount.toNat 0) args)
          modify (fun vm => { vm with depth := vm.depth + 1 })
          let result ← runBlocks (call program fuel) function (vmStepLimit + 1)
            function.startBlock none locals
          modify (fun vm => { vm with depth := vm.depth - 1 })
          liftResult result

def executeBytecode (program : PortableProgram) : Except VmError I64 :=
  ((call program (vmRecursionLimit + 1) program.mainIndex []).run.run ⟨0, 0⟩).1

end Sengoo.Portable
