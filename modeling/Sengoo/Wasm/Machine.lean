import Mathlib.Data.BitVec
import Sengoo.Transition

/-!
WebAssembly for the integer fragment with structured control, as a machine over
the flat instruction sequence of a function body. A label keeps the code that a
branch to it continues with: the code after the matching `end` for a block or an
`if`, the loop itself for a loop. Every block has the empty block type.
-/

namespace Sengoo.Wasm

open StateTransition Sengoo.Transition List

inductive I64Binop where
  | add
  | sub
  | mul
  | divS
  | divU
  | remS
  | remU
  | and
  | or
  | xor
  | shl
  | shrS
  | shrU
  deriving DecidableEq

inductive I64Relop where
  | eq
  | ne
  | ltS
  | ltU
  | gtS
  | gtU
  | leS
  | leU
  | geS
  | geU
  deriving DecidableEq

inductive WasmOp where
  | unreachable
  | block
  | loop
  | if
  | end
  | br (label : Nat)
  | return
  | call (function : UInt32)
  | drop
  | select
  | localGet (index : UInt32)
  | localSet (index : UInt32)
  | i64Const (value : BitVec 64)
  | i32Eqz
  | i32And
  | i32Or
  | i64Eqz
  | i64Rel (op : I64Relop)
  | i64Bin (op : I64Binop)
  | i64ExtendI32U
  deriving DecidableEq

structure WasmFunction where
  paramCount : Nat
  extraLocals : Nat
  code : List WasmOp
  deriving DecidableEq

structure WasmModule where
  functions : List WasmFunction
  main : UInt32
  deriving DecidableEq

inductive WasmValue where
  | i32 (value : BitVec 32)
  | i64 (value : BitVec 64)
  deriving DecidableEq

def boolValue (b : Bool) : WasmValue := .i32 (if b then 1 else 0)

/-- The value of a binary operation, or `none` where it traps. -/
def I64Binop.eval (op : I64Binop) (x y : BitVec 64) : Option (BitVec 64) :=
  match op with
  | .add => some (x + y)
  | .sub => some (x - y)
  | .mul => some (x * y)
  | .divS => if y = 0 ∨ (x = BitVec.intMin 64 ∧ y = -1) then none else some (x.sdiv y)
  | .divU => if y = 0 then none else some (x / y)
  | .remS => if y = 0 then none else some (x.srem y)
  | .remU => if y = 0 then none else some (x % y)
  | .and => some (x &&& y)
  | .or => some (x ||| y)
  | .xor => some (x ^^^ y)
  | .shl => some (x <<< (y.toNat % 64))
  | .shrS => some (x.sshiftRight (y.toNat % 64))
  | .shrU => some (x >>> (y.toNat % 64))

def I64Relop.eval (op : I64Relop) (x y : BitVec 64) : Bool :=
  match op with
  | .eq => x == y
  | .ne => x != y
  | .ltS => x.slt y
  | .ltU => x.ult y
  | .gtS => y.slt x
  | .gtU => y.ult x
  | .leS => x.sle y
  | .leU => x.ule y
  | .geS => y.sle x
  | .geU => y.ule x

/-- Why an instruction does not complete. A validated module never gives
`invalid`. -/
inductive WasmFault where
  | trap
  | invalid
  deriving DecidableEq

/-- An instruction without control flow, on the operand stack and the locals. -/
def execPlain (op : WasmOp) (stack : List WasmValue) (locals : List (BitVec 64)) :
    Except WasmFault (List WasmValue × List (BitVec 64)) :=
  match op, stack with
  | .drop, _ :: stack => .ok (stack, locals)
  | .select, .i32 c :: .i64 y :: .i64 x :: stack =>
    .ok (.i64 (if c ≠ 0 then x else y) :: stack, locals)
  | .localGet index, stack =>
    match locals[index.toNat]? with
    | some value => .ok (.i64 value :: stack, locals)
    | none => .error .invalid
  | .localSet index, .i64 value :: stack =>
    if index.toNat < locals.length then .ok (stack, locals.set index.toNat value)
    else .error .invalid
  | .i64Const value, stack => .ok (.i64 value :: stack, locals)
  | .i32Eqz, .i32 x :: stack => .ok (boolValue (x == 0) :: stack, locals)
  | .i32And, .i32 y :: .i32 x :: stack => .ok (.i32 (x &&& y) :: stack, locals)
  | .i32Or, .i32 y :: .i32 x :: stack => .ok (.i32 (x ||| y) :: stack, locals)
  | .i64Eqz, .i64 x :: stack => .ok (boolValue (x == 0) :: stack, locals)
  | .i64Rel op, .i64 y :: .i64 x :: stack => .ok (boolValue (op.eval x y) :: stack, locals)
  | .i64Bin op, .i64 y :: .i64 x :: stack =>
    match op.eval x y with
    | some value => .ok (.i64 value :: stack, locals)
    | none => .error .trap
  | .i64ExtendI32U, .i32 x :: stack => .ok (.i64 (x.setWidth 64) :: stack, locals)
  | _, _ => .error .invalid

section Plain

variable (stack : List WasmValue) (locals : List (BitVec 64))

theorem execPlain_localGet {index : UInt32} {value : BitVec 64}
    (h : locals[index.toNat]? = some value) :
    execPlain (.localGet index) stack locals = .ok (.i64 value :: stack, locals) := by
  unfold execPlain
  simp only [h]

theorem execPlain_localSet {index : UInt32} (value : BitVec 64)
    (h : index.toNat < locals.length) :
    execPlain (.localSet index) (.i64 value :: stack) locals =
      .ok (stack, locals.set index.toNat value) := by
  unfold execPlain
  simp only [h, if_true]

@[simp] theorem execPlain_drop (value : WasmValue) :
    execPlain .drop (value :: stack) locals = .ok (stack, locals) := rfl

@[simp] theorem execPlain_i64Const (value : BitVec 64) :
    execPlain (.i64Const value) stack locals = .ok (.i64 value :: stack, locals) := rfl

@[simp] theorem execPlain_i64Eqz (x : BitVec 64) : execPlain .i64Eqz (.i64 x :: stack) locals =
      .ok (boolValue (x == 0) :: stack, locals) := rfl

@[simp] theorem execPlain_i64Rel (op : I64Relop) (x y : BitVec 64) :
    execPlain (.i64Rel op) (.i64 y :: .i64 x :: stack) locals =
      .ok (boolValue (op.eval x y) :: stack, locals) := rfl

@[simp] theorem execPlain_i64Bin (op : I64Binop) (x y : BitVec 64) :
    execPlain (.i64Bin op) (.i64 y :: .i64 x :: stack) locals =
      match op.eval x y with
      | some value => .ok (.i64 value :: stack, locals)
      | none => .error .trap := rfl

@[simp] theorem execPlain_i32Eqz_bool (b : Bool) : execPlain .i32Eqz (boolValue b :: stack) locals =
      .ok (boolValue (!b) :: stack, locals) := by
  cases b <;> rfl

@[simp] theorem execPlain_i32And_bool (a b : Bool) :
    execPlain .i32And (boolValue b :: boolValue a :: stack) locals =
      .ok (boolValue (a && b) :: stack, locals) := by
  cases a <;> cases b <;> rfl

@[simp] theorem execPlain_i32Or_bool (a b : Bool) :
    execPlain .i32Or (boolValue b :: boolValue a :: stack) locals =
      .ok (boolValue (a || b) :: stack, locals) := by
  cases a <;> cases b <;> rfl

@[simp] theorem execPlain_i64ExtendI32U_bool (b : Bool) :
    execPlain .i64ExtendI32U (boolValue b :: stack) locals =
      .ok (.i64 (if b then 1 else 0) :: stack, locals) := by
  cases b <;> rfl

@[simp] theorem execPlain_select_bool (b : Bool) (x y : BitVec 64) :
    execPlain .select (boolValue b :: .i64 y :: .i64 x :: stack) locals =
      .ok (.i64 (if b then x else y) :: stack, locals) := by
  cases b <;> rfl

end Plain

/-- The code after the `end` that closes the enclosing block, with `depth` inner
blocks still open. -/
def skipToEnd : List WasmOp → Nat → Option (List WasmOp)
  | [], _ => none
  | .end :: rest, 0 => some rest
  | .end :: rest, depth + 1 => skipToEnd rest depth
  | .block :: rest, depth | .loop :: rest, depth | .if :: rest, depth =>
    skipToEnd rest (depth + 1)
  | _ :: rest, depth => skipToEnd rest depth

/-- What a branch to a label does: drop the operands above `height` and continue
with `continuation`. -/
structure WasmLabel where
  continuation : List WasmOp
  height : Nat
  deriving DecidableEq

structure WasmFrame where
  code : List WasmOp
  labels : List WasmLabel
  stack : List WasmValue
  locals : List (BitVec 64)
  deriving DecidableEq

inductive WasmState where
  | running (frame : WasmFrame) (callers : List WasmFrame)
  | returned (value : BitVec 64)
  | trapped
  | invalid
  deriving DecidableEq

def WasmFault.state : WasmFault → WasmState
  | .trap => .trapped
  | .invalid => .invalid

def returnValue (stack : List WasmValue) (callers : List WasmFrame) : WasmState :=
  match stack, callers with
  | .i64 value :: _, [] => .returned value
  | .i64 value :: _, caller :: callers =>
    .running { caller with stack := .i64 value :: caller.stack } callers
  | _, _ => .invalid

/-- Enter a block whose end is found in `rest`. -/
def enterLabel (frame : WasmFrame) (callers : List WasmFrame) (rest : List WasmOp)
    (stack : List WasmValue) (taken : Bool) : WasmState :=
  match skipToEnd rest 0 with
  | none => .invalid
  | some after =>
    if taken then
      .running { frame with
        code := rest, labels := ⟨after, stack.length⟩ :: frame.labels, stack := stack }
        callers
    else .running { frame with code := after, stack := stack } callers

/-- The operands of a call, the last argument on top. -/
def popArgs : Nat → List WasmValue → List (BitVec 64) → Option (List (BitVec 64) × List WasmValue)
  | 0, stack, args => some (args, stack)
  | n + 1, .i64 value :: stack, args => popArgs n stack (value :: args)
  | _, _, _ => none

def invoke (function : WasmFunction) (args : List (BitVec 64)) (callers : List WasmFrame) :
    WasmState :=
  .running ⟨function.code, [], [], args ++ List.replicate function.extraLocals 0⟩ callers

def stepOp (module : WasmModule) (frame : WasmFrame) (callers : List WasmFrame)
    (op : WasmOp) (rest : List WasmOp) : WasmState :=
  match op with
  | .unreachable => .trapped
  | .block => enterLabel frame callers rest frame.stack true
  | .loop =>
    .running { frame with
      code := rest, labels := ⟨.loop :: rest, frame.stack.length⟩ :: frame.labels } callers
  | .if =>
    match frame.stack with
    | .i32 c :: stack => enterLabel frame callers rest stack (c ≠ 0)
    | _ => .invalid
  | .end =>
    match frame.labels with
    | _ :: labels => .running { frame with code := rest, labels := labels } callers
    | [] => returnValue frame.stack callers
  | .br label =>
    match frame.labels[label]? with
    | none => .invalid
    | some target =>
      .running { frame with
        code := target.continuation
        labels := frame.labels.drop (label + 1)
        stack := frame.stack.drop (frame.stack.length - target.height) } callers
  | .return => returnValue frame.stack callers
  | .call index =>
    match module.functions[index.toNat]? with
    | none => .invalid
    | some function =>
      match popArgs function.paramCount frame.stack [] with
      | none => .invalid
      | some (args, stack) =>
        invoke function args ({ frame with code := rest, stack := stack } :: callers)
  | op =>
    match execPlain op frame.stack frame.locals with
    | .ok (stack, locals) =>
      .running { frame with code := rest, stack := stack, locals := locals } callers
    | .error fault => fault.state

def wasmStep (module : WasmModule) : WasmState → Option WasmState
  | .running frame callers =>
    match frame.code with
    | [] => some .invalid
    | op :: rest => some (stepOp module frame callers op rest)
  | .returned _ | .trapped | .invalid => none

def wasmStart (module : WasmModule) : WasmState :=
  match module.functions[module.main.toNat]? with
  | none => .invalid
  | some function => if function.paramCount = 0 then invoke function [] [] else .invalid

section Runs

variable {module : WasmModule}

/-- A sequence of instructions without control flow. -/
def execOps : List WasmOp → List WasmValue → List (BitVec 64) →
    Except WasmFault (List WasmValue × List (BitVec 64))
  | [], stack, locals => .ok (stack, locals)
  | op :: ops, stack, locals =>
    match execPlain op stack locals with
    | .ok (stack, locals) => execOps ops stack locals
    | .error fault => .error fault

theorem execOps_append (first second : List WasmOp) (stack : List WasmValue)
    (locals : List (BitVec 64)) :
    execOps (first ++ second) stack locals =
      match execOps first stack locals with
      | .ok (stack, locals) => execOps second stack locals
      | .error fault => .error fault := by
  induction first generalizing stack locals with
  | nil => rfl
  | cons op ops ih =>
    simp only [cons_append, execOps]
    cases execPlain op stack locals with
    | error fault => rfl
    | ok middle => exact ih middle.1 middle.2

variable {frame : WasmFrame} {callers : List WasmFrame} {rest : List WasmOp}

/-- The state after a sequence without control flow. -/
def afterOps (frame : WasmFrame) (callers : List WasmFrame) (rest : List WasmOp) :
    Except WasmFault (List WasmValue × List (BitVec 64)) → WasmState
  | .ok (stack, locals) =>
    .running { frame with code := rest, stack := stack, locals := locals } callers
  | .error fault => fault.state

theorem stepOp_plain {op : WasmOp}
    (h : execPlain op frame.stack frame.locals ≠ .error .invalid) :
    stepOp module frame callers op rest =
      afterOps frame callers rest (execPlain op frame.stack frame.locals) := by
  cases op with
  | unreachable | block | loop | «if» | «end» | br | «return» | call =>
    exact absurd rfl h
  | _ => rfl

theorem reaches_afterOps (module : WasmModule) (callers : List WasmFrame)
    (ops : List WasmOp)
    (hcode : frame.code = ops ++ rest)
    (hexec : execOps ops frame.stack frame.locals ≠ .error .invalid) :
    Reaches (wasmStep module) (.running frame callers)
      (afterOps frame callers rest (execOps ops frame.stack frame.locals)) := by
  induction ops generalizing frame with
  | nil =>
    simp only [nil_append] at hcode
    rw [← hcode]
    exact .refl
  | cons op ops ih =>
    have hop : execPlain op frame.stack frame.locals ≠ .error .invalid := by
      intro hinvalid
      simp only [execOps, hinvalid] at hexec
      exact hexec rfl
    have hstep : wasmStep module (.running frame callers) =
        some (stepOp module frame callers op (ops ++ rest)) := by
      simp only [wasmStep, hcode, cons_append]
    rw [stepOp_plain hop] at hstep
    cases hresult : execPlain op frame.stack frame.locals with
    | error fault =>
      simp only [execOps, hresult] at hstep ⊢
      exact reaches_of_step hstep .refl
    | ok middle =>
      simp only [execOps, hresult] at hexec hstep ⊢
      exact reaches_of_step hstep (ih rfl hexec)

theorem reaches_execOps {ops : List WasmOp} {stack : List WasmValue} {locals : List (BitVec 64)}
    (hexec : execOps ops frame.stack frame.locals = .ok (stack, locals))
    (hcode : frame.code = ops ++ rest) :
    Reaches (wasmStep module) (.running frame callers)
      (.running { frame with code := rest, stack := stack, locals := locals } callers) := by
  have hreach := reaches_afterOps module callers ops hcode (by rw [hexec]; exact nofun)
  rw [hexec] at hreach
  exact hreach

theorem reaches_trapped {ops : List WasmOp}
    (hexec : execOps ops frame.stack frame.locals = .error .trap)
    (hcode : frame.code = ops ++ rest) :
    Reaches (wasmStep module) (.running frame callers) .trapped := by
  have hreach := reaches_afterOps module callers ops hcode (by rw [hexec]; exact nofun)
  rw [hexec] at hreach
  exact hreach

/-- Code that opens and closes its own blocks only. -/
def Balanced (code : List WasmOp) : Prop :=
  ∀ rest depth, skipToEnd (code ++ rest) depth = skipToEnd rest depth

def WasmOp.isStructured : WasmOp → Bool
  | .block | .loop | .if | .end => true
  | _ => false

theorem balanced_nil : Balanced [] := fun _ _ => rfl

theorem Balanced.append {first second : List WasmOp} (hfirst : Balanced first)
    (hsecond : Balanced second) : Balanced (first ++ second) := by
  intro rest depth
  rw [append_assoc, hfirst, hsecond]

theorem Balanced.cons {op : WasmOp} {code : List WasmOp} (hcode : Balanced code)
    (hop : op.isStructured = false) : Balanced (op :: code) := by
  intro rest depth
  rw [← hcode rest depth]
  cases op with
  | block | loop | «if» | «end» => cases hop
  | _ => rfl

theorem balanced_plain {ops : List WasmOp} (h : ops.all (fun op => !op.isStructured) = true) :
    Balanced ops := by
  induction ops with
  | nil => exact balanced_nil
  | cons op ops ih =>
    simp only [all_cons, Bool.and_eq_true, Bool.not_eq_true'] at h
    exact (ih h.2).cons h.1

theorem Balanced.if {body : List WasmOp} (hbody : Balanced body) :
    Balanced (.if :: body ++ [.end]) := by
  intro rest depth
  rw [append_assoc]
  change skipToEnd (body ++ (.end :: rest)) (depth + 1) = _
  rw [hbody]
  rfl

theorem balanced_flatMap {α : Type} (items : List α) (encode : α → List WasmOp)
    (hencode : ∀ a ∈ items, Balanced (encode a)) : Balanced (items.flatMap encode) := by
  induction items with
  | nil => exact balanced_nil
  | cons a rest ih =>
    exact (hencode a (mem_cons_self ..)).append
      (ih (fun b hb => hencode b (mem_cons_of_mem a hb)))

theorem wasmStep_if (module : WasmModule) (callers : List WasmFrame) {body rest : List WasmOp}
    {condition : Bool} {stack : List WasmValue}
    (hcode : frame.code = .if :: body ++ .end :: rest)
    (hstack : frame.stack = boolValue condition :: stack) (hbody : Balanced body) :
    wasmStep module (.running frame callers) = some (
      if condition then
        .running { frame with
          code := body ++ .end :: rest
          labels := ⟨rest, stack.length⟩ :: frame.labels
          stack := stack } callers
      else .running { frame with code := rest, stack := stack } callers) := by
  have hend : skipToEnd (body ++ .end :: rest) 0 = some rest := hbody _ 0
  simp only [wasmStep, hcode, stepOp, hstack, boolValue]
  cases condition <;> simp [enterLabel, hend]

/-- Code that runs to its end on an empty stack, whatever stands behind it. -/
def Runs (module : WasmModule) (code : List WasmOp) (locals locals' : List (BitVec 64)) : Prop :=
  ∀ rest labels callers, Reaches (wasmStep module)
    (.running ⟨code ++ rest, labels, [], locals⟩ callers)
    (.running ⟨rest, labels, [], locals'⟩ callers)

variable {locals locals' : List (BitVec 64)}

theorem Runs.of_execOps {ops : List WasmOp} (h : execOps ops [] locals = .ok ([], locals')) :
    Runs module ops locals locals' := fun _ _ _ => reaches_execOps h rfl

theorem Runs.append {first second : List WasmOp} {middle : List (BitVec 64)}
    (hfirst : Runs module first locals middle) (hsecond : Runs module second middle locals') :
    Runs module (first ++ second) locals locals' := by
  intro rest labels callers
  rw [append_assoc]
  exact (hfirst _ labels callers).trans (hsecond rest labels callers)

/-- The code of a list of items takes the locals through their fold. -/
theorem Runs.foldl {α β : Type} {encode : α → List WasmOp} {next : β → α → β}
    (slots : β → List (BitVec 64)) {items : List α}
    (h : ∀ item ∈ items, ∀ b, Runs module (encode item) (slots b) (slots (next b item))) (b : β) :
    Runs module (items.flatMap encode) (slots b) (slots (items.foldl next b)) := by
  induction items generalizing b with
  | nil => exact .of_execOps rfl
  | cons item items ih =>
    rw [forall_mem_cons] at h
    exact (h.1 b).append (ih h.2 (next b item))

/-- A conditional after its test, with a body that has no branch: it runs the
body or skips it. -/
theorem Runs.guarded {test body : List WasmOp} (condition : Bool)
    (htest : execOps test [] locals = .ok ([boolValue condition], locals))
    (hbody : Balanced body)
    (hexec : condition = true → execOps body [] locals = .ok ([], locals'))
    (hskip : condition = false → locals = locals') :
    Runs module (test ++ (.if :: body ++ [.end])) locals locals' := by
  intro rest labels callers
  have hcode : test ++ (.if :: body ++ [.end]) ++ rest =
      test ++ (.if :: body ++ .end :: rest) := by simp
  rw [hcode]
  apply (reaches_execOps htest rfl).trans
  apply reaches_of_step (wasmStep_if module callers rfl rfl hbody)
  cases condition with
  | false =>
    rw [← hskip rfl]
    exact .refl
  | true =>
    apply (reaches_execOps (hexec rfl) rfl).trans
    exact reaches_of_step rfl .refl

end Runs

end Sengoo.Wasm
