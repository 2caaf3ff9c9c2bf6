import Sengoo.Portable.Bytecode
import Sengoo.Portable.Vm
import Sengoo.Transition

/-!
The VM as a machine with an explicit stack of suspended callers. A state of the
machine is a point between two instructions, so a property of every executed
step is a property of every state that can be reached. `call_follows` connects
it with the recursive VM: the machine ends in the same result or the same error,
or stands at the limit that the VM reports.
-/

namespace Sengoo.Portable

open StateTransition Sengoo.Transition Sengoo.Fallible

/-- The running function: what is left of its block, and its locals. -/
structure VmFrame where
  function : PortableFunction
  block : UInt32
  previousBlock : Option UInt32
  rest : List PortableInstruction
  terminator : PortableTerminator
  locals : List I64
  deriving DecidableEq

/-- A caller waits for a result to store; a call terminator also names the
block to continue with. -/
structure VmCaller where
  frame : VmFrame
  destination : UInt32
  next : Option UInt32
  deriving DecidableEq

inductive VmState where
  | running (frame : VmFrame) (callers : List VmCaller)
  | returned (value : I64)
  | failed (error : VmError)
  deriving DecidableEq

def enterBlock (function : PortableFunction) (block : UInt32)
    (previousBlock : Option UInt32) (locals : List I64) (callers : List VmCaller) :
    VmState :=
  match function.blocks[block.toNat]? with
  | none => .failed (.missingBlock function.name block)
  | some current =>
    .running ⟨function, block, previousBlock, current.instructions, current.terminator,
      locals⟩ callers

def enterFunction (program : PortableProgram) (index : UInt32) (args : List I64)
    (callers : List VmCaller) : VmState :=
  match program.functions[index.toNat]? with
  | none => .failed (.missingFunction index)
  | some function =>
    if args.length ≠ function.paramCount.toNat then
      .failed (.arity function.name function.paramCount args.length)
    else
      match storeArgs (List.replicate function.localCount.toNat 0) args with
      | .error e => .failed e
      | .ok locals => enterBlock function function.startBlock none locals callers

def resume (caller : VmCaller) (locals : List I64) (callers : List VmCaller) : VmState :=
  match caller.next with
  | none => .running { caller.frame with locals := locals } callers
  | some target =>
    enterBlock caller.frame.function target (some caller.frame.block) locals callers

def deliver (value : I64) : List VmCaller → VmState
  | [] => .returned value
  | caller :: callers =>
    match setLocal caller.frame.locals caller.destination value with
    | .error e => .failed e
    | .ok locals => resume caller locals callers

def stepInstruction (program : PortableProgram) (frame : VmFrame)
    (callers : List VmCaller) (instruction : PortableInstruction)
    (rest : List PortableInstruction) : VmState :=
  match instruction with
  | .call destination function args =>
    match args.mapM (getLocal frame.locals) with
    | .error e => .failed e
    | .ok values =>
      enterFunction program function values
        (⟨{ frame with rest := rest }, destination, none⟩ :: callers)
  | other =>
    match executeScalar other frame.previousBlock frame.locals with
    | .error e => .failed e
    | .ok locals => .running { frame with rest := rest, locals := locals } callers

def stepTerminator (program : PortableProgram) (frame : VmFrame)
    (callers : List VmCaller) : VmState :=
  match frame.terminator with
  | .return none => deliver 0 callers
  | .return (some slot) =>
    match getLocal frame.locals slot with
    | .error e => .failed e
    | .ok value => deliver value callers
  | .goto target => enterBlock frame.function target (some frame.block) frame.locals callers
  | .if condition thenBlock elseBlock =>
    match getLocal frame.locals condition with
    | .error e => .failed e
    | .ok value =>
      enterBlock frame.function (if value ≠ 0 then thenBlock else elseBlock)
        (some frame.block) frame.locals callers
  | .switch discriminant targets otherwise =>
    match getLocal frame.locals discriminant with
    | .error e => .failed e
    | .ok value =>
      enterBlock frame.function (switchTarget targets otherwise value)
        (some frame.block) frame.locals callers
  | .call index args destination target =>
    match args.mapM (argValue frame.locals) with
    | .error e => .failed e
    | .ok values =>
      enterFunction program index values (⟨frame, destination, some target⟩ :: callers)
  | .unreachable => .failed (.unreachable frame.function.name)

def vmStep (program : PortableProgram) : VmState → Option VmState
  | .running frame callers =>
    match frame.rest with
    | instruction :: rest => some (stepInstruction program frame callers instruction rest)
    | [] => some (stepTerminator program frame callers)
  | .returned _ => none
  | .failed _ => none

def vmStart (program : PortableProgram) : VmState :=
  enterFunction program program.mainIndex [] []

section Containment

/-- The machine with the number of block entries and instructions so far. -/
structure VmProgress where
  state : VmState
  executed : Nat
  deriving DecidableEq

/-- Whether the next step of a running function is a call. -/
def VmFrame.calls (frame : VmFrame) : Bool :=
  match frame.rest, frame.terminator with
  | .call _ _ _ :: _, _ => true
  | [], .call _ _ _ _ => true
  | _, _ => false

/-- The instructions that the next step counts; a terminator is none. -/
def VmFrame.counted (frame : VmFrame) : Nat := if frame.rest = [] then 0 else 1

/-- Whether the next step of a running function, when it succeeds, enters a
block: a call enters the first block of the callee, a return only the block a
call terminator names. -/
def entersBlock (frame : VmFrame) (callers : List VmCaller) : Bool :=
  match frame.rest, frame.terminator with
  | .call _ _ _ :: _, _ => true
  | _ :: _, _ => false
  | [], .return _ => callers.head?.any (·.next.isSome)
  | [], .unreachable => false
  | [], _ => true

/-- The calls that are active and what was counted are within the limits of the VM. -/
def VmProgress.within (p : VmProgress) : Bool :=
  match p.state with
  | .running _ callers => callers.length < vmRecursionLimit && p.executed ≤ vmStepLimit
  | _ => true

/-- A step within the limits of the VM: no instruction is executed once the limit
is used up, and no block or function is entered beyond a limit. -/
def containedStep (program : PortableProgram) (p : VmProgress) : Option VmProgress :=
  match p.state with
  | .running frame callers =>
    if p.executed + frame.counted ≤ vmStepLimit then
      ((vmStep program p.state).map
        (⟨·, p.executed + frame.counted + (entersBlock frame callers).toNat⟩)).filter
          VmProgress.within
    else none
  | _ => none

def containedStart (program : PortableProgram) : VmProgress :=
  ⟨vmStart program, 1⟩

/-- The machine is running and its next step would pass the limit: one call too
many, or one block entry or instruction too many. -/
def AtLimit (e : VmError) (p : VmProgress) : Prop :=
  ∃ frame callers, p.state = .running frame callers ∧
    (e = .recursionLimitExceeded ∧ frame.calls = true ∧ vmRecursionLimit ≤ callers.length + 1 ∨
      e = .instructionLimitExceeded ∧
        vmStepLimit < p.executed + frame.counted + (entersBlock frame callers).toNat)

/-- What the VM ends in is where the machine stands: it has returned the value, has
failed with the error, or is still running at the limit that the VM reports. -/
def Ends : Except VmError I64 → VmProgress → Prop
  | .ok value, p => p.state = .returned value
  | .error e, p => if e.isLimit then AtLimit e p else p.state = .failed e

variable {program : PortableProgram} {frame : VmFrame} {callers : List VmCaller}

theorem AtLimit.isLimit {e : VmError} {p : VmProgress} (h : AtLimit e p) : e.isLimit = true := by
  obtain ⟨frame, callers, -, ⟨rfl, -⟩ | ⟨rfl, -⟩⟩ := h <;> rfl

theorem containedStep_spec {p q : VmProgress} (h : containedStep program p = some q) :
    vmStep program p.state = some q.state ∧ q.within = true := by
  obtain ⟨state, executed⟩ := p
  cases state with
  | running frame callers =>
    simp only [containedStep, Option.ite_none_right_eq_some, Option.filter_eq_some_iff,
      Option.map_eq_some_iff] at h
    obtain ⟨-, ⟨next, hnext, rfl⟩, hwithin⟩ := h
    exact ⟨hnext, hwithin⟩
  | returned | failed => cases h

theorem reaches_of_containedStep {p q : VmProgress} (h : Reaches (containedStep program) p q) :
    Reaches (vmStep program) p.state q.state := by
  induction h with
  | refl => exact .refl
  | tail _ hlast ih => exact ih.trans (.single (containedStep_spec hlast).1)

/-- The machine is at `p` and the VM about to enter `q`: the machine follows, unless
`q` is beyond a limit. -/
structure Enters (program : PortableProgram) (p q : VmProgress) : Prop where
  reaches : q.within = true → Reaches (containedStep program) p q
  spent : vmStepLimit < q.executed → AtLimit .instructionLimitExceeded p

theorem Enters.refl {p : VmProgress} (h : p.executed ≤ vmStepLimit) : Enters program p p :=
  ⟨fun _ => .refl, fun hspent => absurd h (Nat.not_le.mpr hspent)⟩

theorem enters_of_vmStep {next : VmState} {executed : Nat}
    (hstep : vmStep program (.running frame callers) = some next)
    (hcount : executed + frame.counted ≤ vmStepLimit) :
    Enters program ⟨.running frame callers, executed⟩
      ⟨next, executed + frame.counted + (entersBlock frame callers).toNat⟩ where
  reaches hwithin := by
    refine .single (Option.mem_def.mpr ?_)
    simp only [containedStep, hcount, hstep, Option.map_some, if_true]
    exact Option.filter_eq_some_iff.mpr ⟨rfl, hwithin⟩
  spent hspent := ⟨frame, callers, rfl, .inr ⟨rfl, hspent⟩⟩

theorem enters_of_stepInstruction {instruction : PortableInstruction}
    {rest : List PortableInstruction} {executed : Nat} (hrest : frame.rest = instruction :: rest)
    (hcount : executed + 1 ≤ vmStepLimit) :
    Enters program ⟨.running frame callers, executed⟩
      ⟨stepInstruction program frame callers instruction rest,
        executed + 1 + (entersBlock frame callers).toNat⟩ := by
  have hcounted : frame.counted = 1 := by simp [VmFrame.counted, hrest]
  rw [← hcounted] at hcount ⊢
  exact enters_of_vmStep (by simp only [vmStep, hrest]) hcount

theorem enters_of_stepTerminator {executed : Nat} (hrest : frame.rest = [])
    (hcount : executed ≤ vmStepLimit) :
    Enters program ⟨.running frame callers, executed⟩
      ⟨stepTerminator program frame callers,
        executed + (entersBlock frame callers).toNat⟩ := by
  have hcounted : executed + frame.counted = executed := by simp [VmFrame.counted, hrest]
  have hstep : vmStep program (.running frame callers) =
      some (stepTerminator program frame callers) := by
    simp only [vmStep, hrest]
  have henters := enters_of_vmStep hstep (hcounted.symm ▸ hcount)
  rwa [hcounted] at henters

/-- What the evaluation of a part of a function leaves: after a value the VM enters
the state `next` gives for it, with `extra` more block entries than it has counted;
an error is where the machine ends. -/
def Contained (program : PortableProgram) {α : Type} (start depth extra : Nat)
    (next : α → VmState) : Except VmError α → PortableVm → VmProgress → Prop
  | .ok a, vm, p => ∃ steps, vm = ⟨steps, depth⟩ ∧ start ≤ steps ∧ steps ≤ vmStepLimit ∧
      Enters program p ⟨next a, steps + extra⟩
  | .error e, _, p => Ends (.error e) p

section Stops

variable {α : Type} {start depth extra : Nat} {next : α → VmState} {e : VmError} {p : VmProgress}
  (vm : PortableVm)

theorem Contained.mono {earlier : Nat} {outcome : Except VmError α} (hle : earlier ≤ start)
    (h : Contained program start depth extra next outcome vm p) :
    Contained program earlier depth extra next outcome vm p := by
  cases outcome with
  | ok a =>
    obtain ⟨steps, hvm, hsteps, henters⟩ := h
    exact ⟨steps, hvm, Nat.le_trans hle hsteps, henters⟩
  | error e => exact h

theorem Contained.failed (he : e.isLimit = false) (executed : Nat) :
    Contained program start depth extra next (.error e) vm ⟨.failed e, executed⟩ := by
  simp [Contained, Ends, he]

theorem Contained.atLimit (h : AtLimit e p) :
    Contained program start depth extra next (.error e) vm p := by
  simpa [Contained, Ends, h.isLimit] using h

end Stops

/-- The state a return leads to enters a block when the caller names one. -/
def resumesBlock (callers : List VmCaller) : Nat :=
  (callers.head?.any (·.next.isSome)).toNat

/-- What the body of a function may assume of the calls it makes. -/
def CalleeContained (program : PortableProgram) (callee : UInt32 → List I64 → Vm I64)
    (depth : Nat) : Prop :=
  ∀ index args (callers : List VmCaller) steps p, callers.length = depth → steps ≤ vmStepLimit →
    Enters program p ⟨enterFunction program index args callers, steps + 1⟩ →
    (vmRecursionLimit ≤ depth → AtLimit .recursionLimitExceeded p) →
    Follows (containedStep program) (callee index args) ⟨steps, depth⟩ p
      (Contained program steps depth (resumesBlock callers) (fun v => deliver v callers))

theorem evalBinary_error {op : PortableBinary} {unsigned : Bool} {left right : I64}
    {e : VmError} (h : evalBinary op unsigned left right = .error e) : e.isLimit = false := by
  cases op <;> grind [evalBinary, VmError.isLimit]

theorem getLocal_not_limit {locals : List I64} {slot : UInt32} {e : VmError}
    (h : getLocal locals slot = .error e) : e.isLimit = false := by
  rw [getLocal_error h]
  rfl

theorem executeScalar_error {instruction : PortableInstruction} {previous : Option UInt32}
    {locals : List I64} {e : VmError}
    (h : executeScalar instruction previous locals = .error e) : e.isLimit = false := by
  have hread : ∀ {slot : UInt32} {f : I64 → Except VmError (List I64)},
      (getLocal locals slot >>= f) = .error e → e.isLimit = false ∨ ∃ value, f value = .error e := by
    intro slot f h
    rcases bind_eq_error h with h | ⟨value, -, h⟩
    · exact .inl (getLocal_not_limit h)
    · exact .inr ⟨value, h⟩
  have hwrite : ∀ {slot : UInt32} {value : I64}, setLocal locals slot value = .error e →
      e.isLimit = false := by
    intro slot value h
    cases setLocal_error h
    rfl
  cases instruction with
  | const => exact hwrite h
  | unary | move | cast =>
    rcases hread h with he | ⟨value, h⟩
    · exact he
    · exact hwrite h
  | binary =>
    rcases hread h with he | ⟨left, h⟩
    · exact he
    · rcases hread h with he | ⟨right, h⟩
      · exact he
      · rcases bind_eq_error h with h | ⟨result, -, h⟩
        · exact evalBinary_error h
        · exact hwrite h
  | phi => exact (executeScalar_phi_error h).2
  | nop | call => cases h

section Adequacy

variable {β : Type} {p : VmProgress} {vm : PortableVm} {steps depth : Nat}
  {post : Except VmError β → PortableVm → VmProgress → Prop}

theorem countStep_follows {f : Bool → Vm β}
    (hstop : vmStepLimit ≤ steps →
      Follows (containedStep program) (f true) ⟨steps + 1, depth⟩ p post)
    (hmore : steps < vmStepLimit →
      Follows (containedStep program) (f false) ⟨steps + 1, depth⟩ p post) :
    Follows (containedStep program) (countStep >>= f) ⟨steps, depth⟩ p post := by
  apply Follows.bind_run rfl
  by_cases h : steps < vmStepLimit
  · rw [decide_eq_false (by simp only [gt_iff_lt]; omega)]
    exact hmore h
  · rw [decide_eq_true (by simp only [gt_iff_lt]; omega)]
    exact hstop (Nat.le_of_not_lt h)

/-- A lifted result that the machine computes inside its current step: on an
error the step fails, on a value the rest of the step follows. -/
theorem liftResult_follows {α : Type} {result : Except VmError α} {f : α → Vm β}
    (herror : ∀ e, result = .error e →
      ∃ t, Reaches (containedStep program) p t ∧ post (.error e) vm t)
    (hok : ∀ a, result = .ok a → Follows (containedStep program) (f a) vm p post) :
    Follows (containedStep program) (liftResult result >>= f) vm p post := by
  cases result with
  | ok a => exact hok a rfl
  | error e => exact herror e rfl

variable {callee : UInt32 → List I64 → Vm I64}

section

variable (hcallee : CalleeContained program callee (callers.length + 1))
include hcallee

/-- A call and the store of its result: the machine resumes the caller. -/
theorem callee_follows {caller : VmCaller} {index : UInt32} {args : List I64}
    (hsteps : steps ≤ vmStepLimit)
    (henters : Enters program p ⟨enterFunction program index args (caller :: callers), steps + 1⟩)
    (hfull : vmRecursionLimit ≤ callers.length + 1 → AtLimit .recursionLimitExceeded p) :
    Follows (containedStep program)
      (callee index args >>= fun value =>
        liftResult (setLocal caller.frame.locals caller.destination value))
      ⟨steps, callers.length + 1⟩ p
      (Contained program steps (callers.length + 1) (resumesBlock (caller :: callers))
        (fun locals => resume caller locals callers)) := by
  apply (hcallee index args _ steps p rfl hsteps henters hfull).bind
  · rintro value _ t ⟨after, rfl, hle, hafter, hreturn⟩
    simp only [deliver] at hreturn
    cases hset : setLocal caller.frame.locals caller.destination value with
    | ok locals =>
      rw [hset] at hreturn
      exact .of_run rfl ⟨after, rfl, hle, hafter, hreturn⟩
    | error e =>
      rw [hset] at hreturn
      cases setLocal_error hset
      apply Follows.of_reaches (hreturn.reaches rfl)
      exact .of_run rfl (.failed _ rfl _)
  · exact fun _ _ _ h => h

theorem executeInstruction_follows {instruction : PortableInstruction}
    {rest : List PortableInstruction} (hrest : frame.rest = instruction :: rest) (steps : Nat) :
    Follows (containedStep program)
      (executeInstruction callee instruction frame.previousBlock frame.locals)
      ⟨steps, callers.length + 1⟩ ⟨.running frame callers, steps⟩
      (Contained program steps (callers.length + 1) 0 (fun locals =>
        .running { frame with rest := rest, locals := locals } callers)) := by
  have hcounted : frame.counted = 1 := by simp [VmFrame.counted, hrest]
  apply countStep_follows
  · intro hspent
    refine .of_run rfl (.atLimit _ ⟨frame, callers, rfl, .inr ⟨rfl, ?_⟩⟩)
    simp only [hcounted]
    omega
  · intro hlimit
    have henters := @enters_of_stepInstruction program _ callers _ _ _ hrest hlimit
    cases instruction with
    | call destination function args =>
      have hcalls : frame.calls = true := by simp [VmFrame.calls, hrest]
      simp only [stepInstruction, entersBlock, hrest] at henters
      apply liftResult_follows
      · intro e he
        rw [he] at henters
        obtain ⟨slot, rfl⟩ := getLocals_error he
        exact ⟨_, henters.reaches rfl, .failed _ rfl _⟩
      · intro values hvalues
        rw [hvalues] at henters
        apply (callee_follows hcallee hlimit henters
          fun hfull => ⟨frame, callers, rfl, .inl ⟨rfl, hcalls, hfull⟩⟩).mono
        exact fun _ _ _ h => h.mono _ (Nat.le_succ steps)
    | _ =>
      simp only [stepInstruction, entersBlock, hrest] at henters
      split at henters
      · rename_i e he
        apply Follows.of_reaches (henters.reaches rfl)
        apply Follows.of_run rfl
        rw [he]
        exact .failed _ (executeScalar_error he) _
      · rename_i locals hlocals
        apply Follows.of_run rfl
        rw [hlocals]
        exact ⟨steps + 1, rfl, by omega, hlimit, henters⟩

theorem executeInstructions_follows (hcallers : callers.length < vmRecursionLimit)
    (frame : VmFrame) (steps : Nat) (hsteps : steps ≤ vmStepLimit) :
    Follows (containedStep program)
      (executeInstructions callee frame.previousBlock frame.rest frame.locals)
      ⟨steps, callers.length + 1⟩ ⟨.running frame callers, steps⟩
      (Contained program steps (callers.length + 1) 0 (fun locals =>
        .running { frame with rest := [], locals := locals } callers)) := by
  obtain ⟨function, block, previousBlock, instructions, terminator, locals⟩ := frame
  induction instructions generalizing locals steps with
  | nil => exact .of_run rfl ⟨steps, rfl, Nat.le_refl _, hsteps, .refl hsteps⟩
  | cons instruction rest ih =>
    apply (@executeInstruction_follows program
      ⟨function, block, previousBlock, instruction :: rest, terminator, locals⟩ callers callee
      hcallee instruction rest rfl steps).bind
    · rintro locals' _ t ⟨after, rfl, hle, hafter, henters⟩
      apply Follows.of_reaches (henters.reaches (by simp [VmProgress.within, hcallers, hafter]))
      apply (ih after hafter locals').mono
      exact fun _ _ _ h => h.mono _ hle
    · exact fun _ _ _ h => h

end

/-- The outcome of the block loop: a `break` with an error is an error. -/
def BlockContained (program : PortableProgram) (start : Nat) (callers : List VmCaller)
    (outcome : Except VmError (Except VmError I64)) : PortableVm → VmProgress → Prop :=
  Contained program start (callers.length + 1) (resumesBlock callers) (fun v => deliver v callers)
    (outcome.bind id)

theorem stepTerminator_failed {e : VmError} (hrest : frame.rest = [])
    (hsteps : steps ≤ vmStepLimit) (he : e.isLimit = false)
    (hfailed : stepTerminator program frame callers = .failed e) (start : Nat) (vm : PortableVm) :
    ∃ t, Reaches (containedStep program) ⟨.running frame callers, steps⟩ t ∧
      BlockContained program start callers (.error e) vm t := by
  have hstep := @enters_of_stepTerminator program frame callers steps hrest hsteps
  rw [hfailed] at hstep
  exact ⟨_, hstep.reaches rfl, .failed _ he _⟩

/-- One turn of the block loop ends with its terminator: control is passed to
the next block, to a callee or back to the caller. Each turn counts a step, so
`fuel` turns are enough when the steps taken leave fewer than `fuel`. -/
theorem runBlocks_follows (hcallee : CalleeContained program callee (callers.length + 1))
    (hcallers : callers.length < vmRecursionLimit) (function : PortableFunction) (fuel : Nat)
    (block : UInt32) (previousBlock : Option UInt32) (locals : List I64) (start : Nat)
    (hstart : start ≤ steps) (hsteps : steps ≤ vmStepLimit) (hfuel : vmStepLimit < steps + fuel)
    (henters : Enters program p
      ⟨enterBlock function block previousBlock locals callers, steps + 1⟩) :
    Follows (containedStep program) (runBlocks callee function fuel block previousBlock locals)
      ⟨steps, callers.length + 1⟩ p (BlockContained program start callers) := by
  induction fuel generalizing block previousBlock locals steps p with
  | zero => omega
  | succ fuel ih =>
    apply countStep_follows
    · intro hspent
      exact .of_run rfl (.atLimit _ (henters.spent (Nat.lt_succ_of_le hspent)))
    · intro hlimit
      cases hblock : function.blocks[block.toNat]? with
      | none =>
        simp only [enterBlock, hblock] at henters
        apply Follows.of_reaches (henters.reaches rfl)
        exact .of_run rfl (.failed _ rfl _)
      | some current =>
        obtain ⟨instructions, terminator⟩ := current
        simp only [enterBlock, hblock] at henters
        have hwithin : ∀ {frame after}, after ≤ vmStepLimit →
            (⟨.running frame callers, after⟩ : VmProgress).within = true := by
          intro frame after hafter
          simp [VmProgress.within, hcallers, hafter]
        apply Follows.of_reaches (henters.reaches (hwithin hlimit))
        apply (executeInstructions_follows hcallee hcallers
          ⟨function, block, previousBlock, instructions, terminator, locals⟩ (steps + 1)
          hlimit).bind
        · rintro stored _ t ⟨after, rfl, hle, hafter, hends⟩
          apply Follows.of_reaches (hends.reaches (hwithin hafter))
          have hstep := @enters_of_stepTerminator program
            ⟨function, block, previousBlock, [], terminator, stored⟩ callers after rfl hafter
          have hnext : ∀ target locals last t, after ≤ last → last ≤ vmStepLimit →
              Enters program t ⟨enterBlock function target (some block) locals callers, last + 1⟩ →
              Follows (containedStep program)
                (runBlocks callee function fuel target (some block) locals)
                ⟨last, callers.length + 1⟩ t (BlockContained program start callers) :=
            fun target locals last t hlast hlimit hnext =>
              ih target (some block) locals (by omega) hlimit (by omega) hnext
          cases terminator with
          | «return» value =>
            cases value with
            | none => exact .of_run rfl ⟨after, rfl, by omega, hafter, hstep⟩
            | some slot =>
              apply liftResult_follows
              · intro e he
                exact stepTerminator_failed rfl hafter (getLocal_not_limit he)
                  (by simp only [stepTerminator, he]) start _
              intro value hvalue
              simp only [stepTerminator, hvalue] at hstep
              exact .of_run rfl ⟨after, rfl, by omega, hafter, hstep⟩
          | goto target => exact hnext target stored after _ (Nat.le_refl _) hafter hstep
          | «if» condition thenBlock elseBlock | switch discriminant targets otherwise =>
            apply liftResult_follows
            · intro e he
              exact stepTerminator_failed rfl hafter (getLocal_not_limit he)
                (by simp only [stepTerminator, he]) start _
            intro value hvalue
            simp only [stepTerminator, hvalue] at hstep
            exact hnext _ stored after _ (Nat.le_refl _) hafter hstep
          | call index args destination target =>
            apply liftResult_follows
            · intro e he
              obtain ⟨slot, rfl⟩ := argValues_error he
              exact stepTerminator_failed rfl hafter rfl (by simp only [stepTerminator, he]) start _
            · intro values hvalues
              simp only [stepTerminator, hvalues] at hstep
              rw [← bind_assoc]
              apply (callee_follows hcallee hafter hstep
                fun hfull => ⟨_, callers, rfl, .inl ⟨rfl, rfl, hfull⟩⟩).bind
              · rintro locals _ t ⟨last, rfl, hlast, hlimit, hreturn⟩
                exact hnext target locals last t hlast hlimit hreturn
              · exact fun _ _ _ h => h
          | unreachable =>
            apply Follows.of_reaches (hstep.reaches rfl)
            exact .of_run rfl (.failed _ rfl _)
        · exact fun _ _ _ h => h

variable (program : PortableProgram)

/-- The machine follows the recursive VM through a whole call; the recursion
limit is reported before the fuel for calls runs out. -/
theorem call_follows (fuel depth : Nat) (hfuel : vmRecursionLimit < depth + fuel)
    (hdepth : depth ≤ vmRecursionLimit) : CalleeContained program (call program fuel) depth := by
  induction fuel generalizing depth with
  | zero => omega
  | succ fuel ih =>
    rintro index args callers steps p rfl hsteps henters hfull
    apply Follows.bind_run rfl
    split
    · rename_i hdeep
      exact .of_run rfl (.atLimit _ (hfull hdeep))
    · rename_i hcallers
      have hcallers : callers.length < vmRecursionLimit := Nat.lt_of_not_le hcallers
      have hfail : ∀ e, e.isLimit = false → ∀ m : Vm I64,
          m.run.run ⟨steps, callers.length⟩ = (.error e, ⟨steps, callers.length⟩) →
          enterFunction program index args callers = .failed e →
          Follows (containedStep program) m ⟨steps, callers.length⟩ p
            (Contained program steps callers.length (resumesBlock callers)
              (fun v => deliver v callers)) := by
        intro e he m hrun hfailed
        rw [hfailed] at henters
        exact .of_reaches (henters.reaches rfl) (.of_run hrun (.failed _ he _))
      cases hfunction : program.functions[index.toNat]? with
      | none => exact hfail _ rfl _ rfl (by simp only [enterFunction, hfunction])
      | some function =>
        by_cases harity : args.length = function.paramCount.toNat
        · simp only [harity, ne_eq]
          cases hstore : storeArgs (List.replicate function.localCount.toNat 0) args with
          | error e =>
            obtain ⟨slot, rfl⟩ := storeArgs_error hstore
            exact hfail _ rfl _ rfl (by
              simp only [enterFunction, hfunction, harity, ne_eq, not_true_eq_false, if_false, hstore])
          | ok locals =>
            have hcallee := ih (callers.length + 1) (by omega) hcallers
            simp only [enterFunction, hfunction, harity, ne_eq, hstore] at henters
            apply (runBlocks_follows hcallee hcallers function (vmStepLimit + 1)
              function.startBlock none locals steps (Nat.le_refl _) hsteps (by omega) henters).bind
            · intro result after t hresult
              apply Follows.of_run rfl
              cases result with
              | ok v =>
                obtain ⟨last, rfl, h⟩ := hresult
                exact ⟨last, rfl, h⟩
              | error e => exact hresult
            · exact fun _ _ _ h => h
        · simp only [ne_eq, harity]
          exact hfail _ rfl _ rfl (by simp [enterFunction, hfunction, harity])

/-- The VM ends where the machine does: within its limits the machine reaches the
returned value or the error, and otherwise it comes to the limit that is reported. -/
theorem executeBytecode_contained :
    ∃ p, Reaches (containedStep program) (containedStart program) p ∧
      Ends (executeBytecode program) p := by
  have hcall := call_follows program (vmRecursionLimit + 1) 0 (by omega) (Nat.zero_le _)
    program.mainIndex [] [] 0 (containedStart program) rfl (Nat.zero_le _)
    (.refl (show 1 ≤ vmStepLimit by decide)) (fun hfull => absurd hfull (by decide))
  obtain ⟨p, hreach, hend⟩ := hcall
  change Contained _ _ _ _ _ (executeBytecode program) _ _ at hend
  cases houtcome : executeBytecode program with
  | ok v =>
    rw [houtcome] at hend
    obtain ⟨steps, -, -, -, hreturn⟩ := hend
    exact ⟨_, hreach.trans (hreturn.reaches rfl), rfl⟩
  | error e =>
    rw [houtcome] at hend
    exact ⟨p, hreach, hend⟩

end Adequacy

section Indexing

/-- The locals of the running function that its next step reads or writes; a call
writes its destination when it returns. -/
def VmFrame.slots (frame : VmFrame) : List UInt32 :=
  match frame.rest, frame.terminator with
  | .const destination _ :: _, _ => [destination]
  | .unary destination _ operand :: _, _ => [operand, destination]
  | .binary destination _ left right _ :: _, _ => [left, right, destination]
  | .move destination source :: _, _ | .cast destination source _ _ :: _, _ => [source, destination]
  | .phi destination incoming :: _, _ =>
    destination :: (frame.previousBlock.bind (phiSource incoming)).toList
  | .call _ _ args :: _, _ => args
  | .nop :: _, _ => []
  | [], .return slot => slot.toList
  | [], .if condition _ _ => [condition]
  | [], .switch discriminant _ _ => [discriminant]
  | [], .call _ args _ _ => args.filterMap fun
    | .local slot => some slot
    | .constant _ => none
  | [], .goto _ | [], .unreachable => []

/-- The running function is one of the program and stands in one of its blocks, with
the locals it declares. -/
structure VmFrame.Located (program : PortableProgram) (frame : VmFrame) : Prop where
  function : frame.function ∈ program.functions
  block : frame.block.toNat < frame.function.blocks.length
  locals : frame.locals.length = frame.function.localCount.toNat

/-- All active calls are located. -/
def VmState.Located (program : PortableProgram) : VmState → Prop
  | .running frame callers => frame.Located program ∧ ∀ caller ∈ callers, caller.frame.Located program
  | _ => True

variable {locals locals' : List I64} {slot : UInt32} {value : I64}

theorem enterBlock_located {function : PortableFunction} {block : UInt32}
    {previousBlock : Option UInt32} (hfunction : function ∈ program.functions)
    (hlocals : locals.length = function.localCount.toNat)
    (hcallers : ∀ caller ∈ callers, caller.frame.Located program) :
    (enterBlock function block previousBlock locals callers).Located program := by
  unfold enterBlock
  split
  · trivial
  · rename_i current hblock
    exact ⟨⟨hfunction, (List.getElem?_eq_some_iff.mp hblock).1, hlocals⟩, hcallers⟩

theorem setLocal_length (h : setLocal locals slot value = .ok locals') :
    locals'.length = locals.length := by
  rw [(setLocal_ok h).2, List.length_set]

theorem storeArgs_length {args : List I64} (h : storeArgs locals args = .ok locals') :
    locals'.length = locals.length := by
  unfold storeArgs at h
  generalize args.zipIdx = entries at h
  induction entries generalizing locals with
  | nil =>
    cases h
    rfl
  | cons entry rest ih =>
    rw [List.foldlM_cons] at h
    obtain ⟨stored, hstored, h⟩ := bind_eq_ok h
    exact (ih h).trans (setLocal_length hstored)

theorem enterFunction_located {index : UInt32} {args : List I64}
    (hcallers : ∀ caller ∈ callers, caller.frame.Located program) :
    (enterFunction program index args callers).Located program := by
  unfold enterFunction
  split
  · trivial
  · rename_i function hfunction
    split
    · trivial
    · split
      · trivial
      · rename_i locals hstore
        refine enterBlock_located (List.mem_of_getElem? hfunction) ?_ hcallers
        rw [storeArgs_length hstore, List.length_replicate]

theorem deliver_located (hcallers : ∀ caller ∈ callers, caller.frame.Located program) :
    (deliver value callers).Located program := by
  cases callers with
  | nil => trivial
  | cons caller callers =>
    obtain ⟨hcaller, hcallers⟩ := List.forall_mem_cons.mp hcallers
    simp only [deliver]
    split
    · trivial
    · rename_i locals hset
      have hlocals := (setLocal_length hset).trans hcaller.locals
      unfold resume
      split
      · exact ⟨{ hcaller with locals := hlocals }, hcallers⟩
      · exact enterBlock_located hcaller.function hlocals hcallers

theorem getLocal_lt (h : getLocal locals slot = .ok value) : slot.toNat < locals.length :=
  (List.getElem?_eq_some_iff.mp (getLocal_ok h)).1

/-- An instruction that succeeds refers to locals that are there, and adds none. -/
theorem executeScalar_ok {instruction : PortableInstruction} {rest : List PortableInstruction}
    (hrest : frame.rest = instruction :: rest)
    (hcall : ∀ destination index args, instruction ≠ .call destination index args)
    (h : executeScalar instruction frame.previousBlock frame.locals = .ok locals) :
    locals.length = frame.locals.length ∧ ∀ slot ∈ frame.slots, slot.toNat < frame.locals.length := by
  unfold VmFrame.slots
  cases instruction with
  | const => exact ⟨setLocal_length h, by simp [hrest, (setLocal_ok h).1]⟩
  | unary | move | cast =>
    obtain ⟨value, hvalue, hset⟩ := bind_eq_ok h
    exact ⟨setLocal_length hset, by simp [hrest, getLocal_lt hvalue, (setLocal_ok hset).1]⟩
  | binary =>
    obtain ⟨left, hleft, h⟩ := bind_eq_ok h
    obtain ⟨right, hright, h⟩ := bind_eq_ok h
    obtain ⟨result, -, hset⟩ := bind_eq_ok h
    exact ⟨setLocal_length hset,
      by simp [hrest, getLocal_lt hleft, getLocal_lt hright, (setLocal_ok hset).1]⟩
  | phi =>
    obtain ⟨previous, source, value, hprevious, hsource, hvalue, hset⟩ := executeScalar_phi_ok h
    exact ⟨setLocal_length hset,
      by simp [hrest, hprevious, hsource, getLocal_lt hvalue, (setLocal_ok hset).1]⟩
  | nop =>
    cases h
    exact ⟨rfl, by simp [hrest]⟩
  | call => exact absurd rfl (hcall _ _ _)

/-- The state has only calls that are located, and a step to it that did not fail
referred to locals that are there. -/
def Inside (program : PortableProgram) (frame : VmFrame) (next : VmState) : Prop :=
  next.Located program ∧
    ((∃ e, next = .failed e) ∨ ∀ slot ∈ frame.slots, slot.toNat < frame.function.localCount.toNat)

theorem inside_failed (e : VmError) : Inside program frame (.failed e) :=
  ⟨trivial, .inl ⟨e, rfl⟩⟩

section

variable (hframe : frame.Located program)
  (hcallers : ∀ caller ∈ callers, caller.frame.Located program)
include hframe hcallers

theorem stepInstruction_inside {instruction : PortableInstruction}
    {rest : List PortableInstruction} (hrest : frame.rest = instruction :: rest) :
    Inside program frame (stepInstruction program frame callers instruction rest) := by
  have hcount := hframe.locals
  cases instruction with
  | call destination index args =>
    simp only [stepInstruction]
    cases hvalues : args.mapM (getLocal frame.locals) with
    | error e => exact inside_failed e
    | ok values =>
      have hcaller : VmFrame.Located program { frame with rest := rest } := { hframe with }
      refine ⟨enterFunction_located (List.forall_mem_cons.mpr ⟨hcaller, hcallers⟩), .inr ?_⟩
      intro slot hslot
      simp only [VmFrame.slots, hrest] at hslot
      obtain ⟨k, hk⟩ := List.getElem?_of_mem hslot
      obtain ⟨value, -, hvalue⟩ := getElem?_of_mapM hvalues hk
      exact hcount ▸ getLocal_lt hvalue
  | _ =>
    simp only [stepInstruction]
    split
    · exact inside_failed _
    · rename_i locals hlocals
      obtain ⟨hlength, hslots⟩ := executeScalar_ok hrest (by rintro _ _ _ ⟨⟩) hlocals
      exact ⟨⟨{ hframe with locals := hlength.trans hcount }, hcallers⟩, .inr (hcount ▸ hslots)⟩

theorem stepTerminator_inside (hrest : frame.rest = []) :
    Inside program frame (stepTerminator program frame callers) := by
  have hblock : ∀ {block}, (enterBlock frame.function block (some frame.block) frame.locals
      callers).Located program := enterBlock_located hframe.function hframe.locals hcallers
  have hread : ∀ {slot value next}, getLocal frame.locals slot = .ok value →
      VmState.Located program next → (∀ other ∈ frame.slots, other = slot) →
      Inside program frame next := by
    intro slot value next hvalue hnext hslots
    refine ⟨hnext, .inr fun other hother => ?_⟩
    rw [hslots other hother, ← hframe.locals]
    exact getLocal_lt hvalue
  simp only [stepTerminator]
  cases hterminator : frame.terminator with
  | «return» slot =>
    have hslots : frame.slots = slot.toList := by simp only [VmFrame.slots, hrest, hterminator]
    cases slot with
    | none => exact ⟨deliver_located hcallers, .inr (by simp [hslots])⟩
    | some slot =>
      simp only
      cases hvalue : getLocal frame.locals slot with
      | error e => exact inside_failed e
      | ok value => exact hread hvalue (deliver_located hcallers) (by simp [hslots])
  | goto => exact ⟨hblock, .inr (by simp [VmFrame.slots, hrest, hterminator])⟩
  | «if» slot | switch slot =>
    simp only
    cases hvalue : getLocal frame.locals slot with
    | error e => exact inside_failed e
    | ok value => exact hread hvalue hblock (by simp [VmFrame.slots, hrest, hterminator])
  | call index args destination target =>
    simp only
    cases hvalues : args.mapM (argValue frame.locals) with
    | error e => exact inside_failed e
    | ok values =>
      refine ⟨enterFunction_located (List.forall_mem_cons.mpr ⟨hframe, hcallers⟩), .inr ?_⟩
      intro slot hslot
      simp only [VmFrame.slots, hrest, hterminator, List.mem_filterMap] at hslot
      obtain ⟨arg, harg, hslot⟩ := hslot
      obtain ⟨k, hk⟩ := List.getElem?_of_mem harg
      obtain ⟨value, -, hvalue⟩ := getElem?_of_mapM hvalues hk
      cases arg with
      | constant => cases hslot
      | «local» other =>
        cases hslot
        exact hframe.locals ▸ getLocal_lt hvalue
  | unreachable => exact inside_failed _

theorem vmStep_inside {next : VmState}
    (hstep : vmStep program (.running frame callers) = some next) :
    Inside program frame next := by
  simp only [vmStep] at hstep
  split at hstep
  · rename_i instruction rest hrest
    cases hstep
    exact stepInstruction_inside hframe hcallers hrest
  · rename_i hrest
    cases hstep
    exact stepTerminator_inside hframe hcallers hrest

end

theorem reached_located {p : VmProgress}
    (hreach : Reaches (containedStep program) (containedStart program) p) :
    p.within = true ∧ p.state.Located program := by
  refine reaches_invariant (P := fun p : VmProgress => p.within = true ∧ p.state.Located program)
    ⟨?_, enterFunction_located (List.forall_mem_nil _)⟩ ?_ p hreach
  · cases hstate : vmStart program with
    | returned | failed => simp [VmProgress.within, containedStart, hstate]
    | running frame callers =>
      have hcallers : callers = [] := by
        unfold vmStart enterFunction enterBlock at hstate
        grind
      simp [VmProgress.within, containedStart, hstate, hcallers, vmStepLimit, vmRecursionLimit]
  · rintro p q - ⟨-, hlocated⟩ hstep
    obtain ⟨hvm, hwithin⟩ := containedStep_spec hstep
    refine ⟨hwithin, ?_⟩
    cases hstate : p.state with
    | running frame callers =>
      rw [hstate] at hvm hlocated
      exact (vmStep_inside hlocated.1 hlocated.2 hvm).1
    | returned | failed =>
      rw [hstate] at hvm
      cases hvm

/-- Containment: a decoded program runs as the machine does within its limits, and
ends with its result, with its error or at the limit that is reported. In all states
of that run the limits on active calls and on executed block entries and instructions
hold, each active call stands in a block of a function of the program, and a step
that refers to a local that is not there fails. -/
theorem vm_contained (bytes : List UInt8) (program : PortableProgram)
    (_ : decodeBytecode bytes = .ok program) :
    (∃ p, Reaches (containedStep program) (containedStart program) p ∧
      Ends (executeBytecode program) p) ∧
    ∀ p, Reaches (containedStep program) (containedStart program) p →
      p.within = true ∧ p.state.Located program ∧
      ∀ frame callers next, p.state = .running frame callers →
        vmStep program p.state = some next → Inside program frame next := by
  refine ⟨executeBytecode_contained program, fun p hreach => ?_⟩
  obtain ⟨hwithin, hlocated⟩ := reached_located hreach
  refine ⟨hwithin, hlocated, fun frame callers next hstate hstep => ?_⟩
  rw [hstate] at hstep hlocated
  exact vmStep_inside hlocated.1 hlocated.2 hstep

/-- A program whose first function calls the second, which returns 7. -/
def callBytes : List UInt8 :=
  [83, 71, 66, 49, 1, 0, 0, 0, 0, 0, 2, 0, 0, 0, 1, 0, 0, 0, 109, 0, 0, 0, 0, 1, 0, 0, 0, 0, 0, 0,
    0, 1, 0, 0, 0, 1, 0, 0, 0, 4, 0, 0, 0, 0, 1, 0, 0, 0, 0, 0, 0, 0, 0, 1, 0, 0, 0, 0, 1, 0, 0, 0,
    103, 0, 0, 0, 0, 1, 0, 0, 0, 0, 0, 0, 0, 1, 0, 0, 0, 1, 0, 0, 0, 0, 0, 0, 0, 0, 7, 0, 0, 0, 0,
    0, 0, 0, 0, 1, 0, 0, 0, 0]

theorem vm_contained_call : ∃ program, decodeBytecode callBytes = .ok program ∧
    ∃ p, Reaches (containedStep program) (containedStart program) p ∧ p.state = .returned 7 ∧
      p.within = true := by
  have hdecode : decodeBytecode callBytes = .ok
      ⟨[⟨"m", 0, 1, 0, [⟨[.call 0 1 []], .return (some 0)⟩]⟩,
        ⟨"g", 0, 1, 0, [⟨[.const 0 7], .return (some 0)⟩]⟩], 0⟩ := by
    decide +kernel
  obtain ⟨⟨p, hreach, hends⟩, hall⟩ := vm_contained _ _ hdecode
  exact ⟨_, hdecode, p, hreach, hends, (hall p hreach).1⟩

end Indexing

end Containment

end Sengoo.Portable
