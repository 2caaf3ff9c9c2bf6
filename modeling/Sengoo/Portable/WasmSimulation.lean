import Sengoo.Portable.FromMir
import Sengoo.Portable.VmMachine
import Sengoo.Portable.WasmScalar

/-!
The emitted WebAssembly simulates the VM. A state of the VM between two
instructions corresponds to the WebAssembly function stopped at the code of the
next instruction inside the conditional of the current block; every step of the
VM is then matched by a run of the WebAssembly machine, as long as the step is
one on which the two backends agree.
-/

namespace Sengoo.Portable

open StateTransition Sengoo.Transition Sengoo.Fallible Sengoo.Wasm List

variable {module : WasmModule} {function : PortableFunction} {args locals : List I64}

variable {value : I64} {rest : List PortableInstruction} {program : PortableProgram}
  {values : List I64} {slot : UInt32} {target : PortableBackendTarget}

section Balanced

variable (function)

theorem balanced_encodeWasmIncoming (destination : UInt32) (entry : UInt32 × UInt32) :
    Balanced (encodeWasmIncoming function destination entry) :=
  (balanced_plain rfl).append (balanced_plain rfl).if

theorem balanced_encodeWasmCase (discriminant : UInt32) (entry : UInt32 × UInt32) :
    Balanced (encodeWasmCase function discriminant entry) :=
  (balanced_plain rfl).append (balanced_plain rfl).if

theorem balanced_encodeWasmScalarNormalize (ty : PortableScalarType) :
    Balanced (encodeWasmScalarNormalize ty) := by
  unfold encodeWasmScalarNormalize
  split_ifs <;> exact balanced_plain rfl

theorem balanced_encodeWasmInstruction (instruction : PortableInstruction) :
    Balanced (encodeWasmInstruction function instruction) := by
  cases instruction with
  | const | move => exact balanced_plain rfl
  | unary destination op operand => cases op <;> exact balanced_plain rfl
  | binary destination op left right unsigned =>
    cases op <;> cases unsigned <;> exact balanced_plain rfl
  | cast destination source fromTy toTy =>
    have hfrom := balanced_encodeWasmScalarNormalize fromTy
    have hto := balanced_encodeWasmScalarNormalize toTy
    exact ((hfrom.cons rfl).append hto).append (balanced_plain rfl)
  | call destination callee args =>
    exact (balanced_plain (by simp [WasmOp.isStructured])).append (balanced_plain rfl)
  | phi destination incoming =>
    have hincoming := balanced_flatMap incoming _
      (fun entry _ => balanced_encodeWasmIncoming function destination entry)
    exact (balanced_plain rfl).append hincoming
  | nop => exact balanced_nil

theorem balanced_encodeWasmTerminator (currentBlock : UInt32)
    (terminator : PortableTerminator) :
    Balanced (encodeWasmTerminator function currentBlock terminator) := by
  cases terminator with
  | «return» value => cases value <;> exact balanced_plain rfl
  | goto | «if» | unreachable => exact balanced_plain rfl
  | switch discriminant targets otherwise =>
    have hcases := balanced_flatMap targets _
      (fun entry _ => balanced_encodeWasmCase function discriminant entry)
    exact ((balanced_plain rfl).append hcases).append (balanced_plain rfl)
  | call callee args destination target =>
    have hargs : Balanced (args.map (encodeWasmArg function)) := by
      apply balanced_plain
      simp only [all_map, all_eq_true]
      rintro (slot | value) _ <;> rfl
    exact (hargs.append (balanced_plain rfl)).append (balanced_plain rfl)

end Balanced

/-- What the local for the previous block holds. -/
def previousValue : Option UInt32 → I64
  | none => -1
  | some block => i64OfU32 block

theorem i64OfU32_inj (a b : UInt32) : i64OfU32 a = i64OfU32 b ↔ a = b := by
  constructor
  · intro h
    have hnat := congrArg BitVec.toNat h
    have ha := a.toNat_lt
    have hb := b.toNat_lt
    simp only [i64OfU32, BitVec.toNat_ofNat] at hnat
    apply UInt32.toNat_inj.mp
    omega
  · rintro rfl
    rfl

/-- Where later items overwrite what earlier ones store, the last one counts. -/
theorem foldl_overwrite {α β : Type} (p : α → Prop) [DecidablePred p] (f : α → β) (items : List α)
    (b : β) : items.foldl (fun current item => if p item then f item else current) b =
      (items.reverse.find? fun item => p item).elim b f := by
  induction items generalizing b with
  | nil => rfl
  | cons item items ih =>
    rw [foldl_cons, ih, reverse_cons, find?_append]
    cases items.reverse.find? fun item => decide (p item) <;> by_cases hitem : p item <;>
      simp [hitem]

section Phi

variable {block : I64} {previous destination : UInt32}

def slotValue (locals : List I64) (slot : UInt32) : I64 := locals.getD slot.toNat 0

/-- The last source that a phi lists for the previous block, other than the
destination itself. -/
def lastPhiSource (destination : UInt32) (incoming : List (UInt32 × UInt32))
    (previous : UInt32) : Option UInt32 :=
  (incoming.reverse.find? (fun entry => entry.2 = previous ∧ entry.1 ≠ destination)).map (·.1)

/-- The phis on which the two backends agree: the emitted code clears the
destination and lets the last edge win, the VM reads the first. -/
structure PhiAgrees (locals : List I64) (destination : UInt32)
    (incoming : List (UInt32 × UInt32)) (previous : UInt32) : Prop where
  sources : ∀ entry ∈ incoming, entry.2 = previous → entry.1.toNat < locals.length
  value : ∀ source, phiSource incoming previous = some source → slotValue locals source =
      (lastPhiSource destination incoming previous).elim 0 (slotValue locals)

/-- The destination after one edge of a phi. -/
def incomingValue (locals : List I64) (destination previous : UInt32) (current : I64)
    (entry : UInt32 × UInt32) : I64 :=
  if entry.2 = previous ∧ entry.1 ≠ destination then slotValue locals entry.1 else current

theorem foldl_incomingValue (incoming : List (UInt32 × UInt32)) (current : I64) :
    incoming.foldl (incomingValue locals destination previous) current =
      (lastPhiSource destination incoming previous).elim current (slotValue locals) := by
  rw [lastPhiSource, Option.elim_map]
  exact foldl_overwrite (fun entry : UInt32 × UInt32 => entry.2 = previous ∧ entry.1 ≠ destination)
    (fun entry => slotValue locals entry.1) incoming current

theorem getLocal_of_lt (h : slot.toNat < locals.length) :
    getLocal locals slot = .ok (slotValue locals slot) := by
  simp [getLocal, slotValue, getElem?_eq_getElem h]

theorem slotValue_of_getLocal (h : getLocal locals slot = .ok value) : slotValue locals slot = value := by
  simp [slotValue, getLocal_ok h]

theorem slotValue_set (hdestination : destination.toNat < locals.length) :
    slotValue (locals.set destination.toNat value) slot =
      if slot = destination then value else slotValue locals slot := by
  by_cases h : slot = destination
  · subst h
    simp [slotValue, hdestination]
  · have hne : destination.toNat ≠ slot.toNat := fun he => h (UInt32.toNat_inj.mp he).symm
    simp [slotValue, h, getElem?_set_ne hne]

/-- The locals while the edges of a phi are tried. -/
def phiLocals (args locals : List I64) (block : I64) (previous destination : UInt32)
    (current : I64) : List I64 :=
  wasmLocals args (locals.set destination.toNat current) block (i64OfU32 previous)

theorem runs_incoming (layout : Layout function args locals)
    (hdestination : destination.toNat < locals.length) (entry : UInt32 × UInt32)
    (hentry : entry.2 = previous → entry.1.toNat < locals.length) (current : I64) :
    Runs module (encodeWasmIncoming function destination entry)
      (phiLocals args locals block previous destination current)
      (phiLocals args locals block previous destination
        (incomingValue locals destination previous current entry)) := by
  have hset : Layout function args (locals.set destination.toNat current) :=
    ⟨layout.slotsFit, layout.args_length, by simpa using layout.locals_length⟩
  apply Runs.guarded (i64OfU32 previous == i64OfU32 entry.2)
  · simp only [phiLocals, execOps, execPlain_getPrevious hset, execPlain_i64Const,
      execPlain_i64Rel, I64Relop.eval]
  · exact balanced_plain rfl
  · intro hcondition
    have hprevious : entry.2 = previous :=
      ((i64OfU32_inj _ _).mp (eq_of_beq hcondition)).symm
    have hget : getLocal (locals.set destination.toNat current) entry.1 =
        .ok (incomingValue locals destination previous current entry) := by
      rw [getLocal_of_lt (by simpa using hentry hprevious), slotValue_set hdestination,
        incomingValue]
      by_cases hself : entry.1 = destination <;> simp [hprevious]
    have hstore : setLocal (locals.set destination.toNat current) destination
        (incomingValue locals destination previous current entry) =
        .ok (locals.set destination.toNat
          (incomingValue locals destination previous current entry)) := by
      simp [setLocal, hdestination]
    simp only [phiLocals, execOps, execPlain_getSlot hset hget, execPlain_setSlot hset hstore]
  · intro hcondition
    have hprevious : entry.2 ≠ previous := by
      rintro rfl
      simp at hcondition
    rw [incomingValue, if_neg fun h => hprevious h.1]

/-- The code of a phi on which the backends agree stores what the VM stores. -/
theorem runs_phi (layout : Layout function args locals)
    {incoming : List (UInt32 × UInt32)} {source : UInt32}
    {locals' : List I64} (hagrees : PhiAgrees locals destination incoming previous)
    (hsource : phiSource incoming previous = some source)
    (hvalue : getLocal locals source = .ok value)
    (hset : setLocal locals destination value = .ok locals') :
    Runs module (encodeWasmInstruction function (.phi destination incoming))
      (wasmLocals args locals block (i64OfU32 previous))
      (wasmLocals args locals' block (i64OfU32 previous)) := by
  obtain ⟨hdestination, rfl⟩ := setLocal_ok hset
  have hclear : execOps [.i64Const 0, .localSet (wasmLocal function destination)] []
      (wasmLocals args locals block (i64OfU32 previous)) =
      .ok ([], phiLocals args locals block previous destination 0) := by
    have hzero : setLocal locals destination 0 = .ok (locals.set destination.toNat 0) := by
      simp [setLocal, hdestination]
    simp only [phiLocals, execOps, execPlain_i64Const, execPlain_setSlot layout hzero]
  have hfinal : incoming.foldl (incomingValue locals destination previous) 0 = value := by
    rw [foldl_incomingValue, ← hagrees.value source hsource, slotValue_of_getLocal hvalue]
  rw [← hfinal]
  exact (Runs.of_execOps hclear).append (Runs.foldl _ (fun entry hentry current =>
    runs_incoming layout hdestination entry (hagrees.sources entry hentry) current) 0)

end Phi

section Switch

variable {previous : I64} {discriminant : UInt32}

/-- The target of the emitted switch: the last case for the whole value. -/
def wasmSwitchTarget (targets : List (UInt32 × UInt32)) (otherwise : UInt32)
    (value : I64) : UInt32 :=
  match targets.reverse.find? (fun entry => i64OfU32 entry.1 = value) with
  | some entry => entry.2
  | none => otherwise

/-- The next block after one case of the emitted switch. -/
def caseTarget (value : I64) (current : UInt32) (entry : UInt32 × UInt32) : UInt32 :=
  if i64OfU32 entry.1 = value then entry.2 else current

theorem foldl_caseTarget (targets : List (UInt32 × UInt32)) (current : UInt32) :
    targets.foldl (caseTarget value) current = wasmSwitchTarget targets current value := by
  have hlast := foldl_overwrite (fun entry : UInt32 × UInt32 => i64OfU32 entry.1 = value)
    (·.2) targets current
  rw [wasmSwitchTarget]
  refine hlast.trans ?_
  cases targets.reverse.find? fun entry => decide (i64OfU32 entry.1 = value) <;> rfl

theorem runs_case (layout : Layout function args locals)
    (hvalue : getLocal locals discriminant = .ok value) (entry : UInt32 × UInt32)
    (current : UInt32) :
    Runs module (encodeWasmCase function discriminant entry)
      (wasmLocals args locals (i64OfU32 current) previous)
      (wasmLocals args locals (i64OfU32 (caseTarget value current entry)) previous) := by
  apply Runs.guarded (value == i64OfU32 entry.1)
  · simp only [execOps, execPlain_getSlot layout hvalue, execPlain_i64Const,
      execPlain_i64Rel, I64Relop.eval]
  · exact balanced_plain rfl
  · intro hcondition
    rw [caseTarget, if_pos (eq_of_beq hcondition).symm]
    simp only [execOps, execPlain_i64Const, execPlain_setBlock layout]
  · intro hcondition
    rw [caseTarget, if_neg fun h => by simp [h] at hcondition]

theorem runs_cases (layout : Layout function args locals)
    (hvalue : getLocal locals discriminant = .ok value) (targets : List (UInt32 × UInt32))
    (current : UInt32) :
    Runs module (targets.flatMap (encodeWasmCase function discriminant))
      (wasmLocals args locals (i64OfU32 current) previous)
      (wasmLocals args locals (i64OfU32 (wasmSwitchTarget targets current value)) previous) := by
  rw [← foldl_caseTarget]
  exact Runs.foldl (fun current => wasmLocals args locals (i64OfU32 current) previous)
    (fun entry _ current => runs_case layout hvalue entry current) current

end Switch

section Dispatch

variable {previous : I64}

/-- The code of a block from its first instruction on. -/
def blockCode (function : PortableFunction) (block : UInt32)
    (instructions : List PortableInstruction) (terminator : PortableTerminator) :
    List WasmOp :=
  instructions.flatMap (encodeWasmInstruction function) ++
    encodeWasmTerminator function block terminator

theorem balanced_blockCode (block : UInt32) (instructions : List PortableInstruction)
    (terminator : PortableTerminator) :
    Balanced (blockCode function block instructions terminator) :=
  (balanced_flatMap _ _ (fun i _ => balanced_encodeWasmInstruction function i)).append
    (balanced_encodeWasmTerminator function block terminator)

/-- The dispatch chain finds the current block: the tests before it fail. -/
theorem reaches_chain (layout : Layout function args locals) (blocks : List PortableBlock)
    (start offset : Nat) (block : UInt32) (current : PortableBlock)
    (hblock : start + offset = block.toNat) (hcurrent : blocks[offset]? = some current)
    (rest : List WasmOp) (labels : List WasmLabel) (callers : List WasmFrame) :
    ∃ inner after, Reaches (wasmStep module)
      (.running ⟨(blocks.zipIdx start).flatMap (encodeWasmBlock function) ++ rest, labels,
        [], wasmLocals args locals (i64OfU32 block) previous⟩ callers)
      (.running ⟨blockCode function block current.instructions current.terminator ++ after,
        inner :: labels, [], wasmLocals args locals (i64OfU32 block) previous⟩ callers) := by
  induction blocks generalizing start offset with
  | nil => cases hcurrent
  | cons first tail ih =>
    have hbound := block.toNat_lt
    have htest : execOps [.localGet (blockLocal function),
        .i64Const (BitVec.ofNat 64 start), .i64Rel .eq] []
        (wasmLocals args locals (i64OfU32 block) previous) =
        .ok ([boolValue (i64OfU32 block == BitVec.ofNat 64 start)],
          wasmLocals args locals (i64OfU32 block) previous) := by
      simp only [execOps, execPlain_getBlock layout, execPlain_i64Const,
        execPlain_i64Rel, I64Relop.eval]
    have hbody : Balanced (blockCode function (UInt32.ofNat start) first.instructions
        first.terminator) := balanced_blockCode _ _ _
    have hcode : ∀ code, encodeWasmBlock function (first, start) ++ code =
        [.localGet (blockLocal function), .i64Const (BitVec.ofNat 64 start),
          .i64Rel .eq] ++ (.if :: blockCode function (UInt32.ofNat start)
            first.instructions first.terminator ++ .end :: code) := by
      simp [encodeWasmBlock, blockCode]
    rw [zipIdx_cons, flatMap_cons, append_assoc, hcode]
    cases offset with
    | zero =>
      obtain rfl : first = current := by simpa using hcurrent
      obtain rfl : start = block.toNat := hblock
      have hid : UInt32.ofNat block.toNat = block := UInt32.ofNat_toNat
      rw [hid] at hbody ⊢
      have htrue : (i64OfU32 block == BitVec.ofNat 64 block.toNat) = true :=
        beq_self_eq_true _
      rw [htrue] at htest
      exact ⟨⟨_, 0⟩, .end :: _, (reaches_execOps htest rfl).trans
        (reaches_of_step (wasmStep_if module callers rfl rfl hbody) (by exact .refl))⟩
    | succ offset =>
      have hfalse : (i64OfU32 block == BitVec.ofNat 64 start) = false := by
        apply beq_false_of_ne
        intro h
        have hnat := congrArg BitVec.toNat h
        simp only [i64OfU32, BitVec.toNat_ofNat] at hnat
        omega
      rw [hfalse] at htest
      obtain ⟨inner, after, hrun⟩ := ih (start + 1) offset (by omega) (by simpa using hcurrent)
      refine ⟨inner, after, (reaches_execOps htest rfl).trans ?_⟩
      exact reaches_of_step (wasmStep_if module callers rfl rfl hbody) hrun

/-- The label of the dispatch loop. -/
def loopLabel (function : PortableFunction) : WasmLabel :=
  ⟨.loop :: wasmDispatch function, 0⟩

/-- From the head of the dispatch loop control reaches the current block. -/
theorem reaches_block (layout : Layout function args locals) (block : UInt32)
    {current : PortableBlock} (hcurrent : function.blocks[block.toNat]? = some current)
    (outer : WasmLabel) (callers : List WasmFrame) :
    ∃ inner after, Reaches (wasmStep module) (.running ⟨.loop :: wasmDispatch function, [outer], [],
        wasmLocals args locals (i64OfU32 block) previous⟩ callers)
      (.running ⟨blockCode function block current.instructions current.terminator ++ after,
        [inner, loopLabel function, outer], [],
        wasmLocals args locals (i64OfU32 block) previous⟩ callers) := by
  obtain ⟨inner, after, hrun⟩ := @reaches_chain module function args locals previous
    layout function.blocks 0 block.toNat block current (Nat.zero_add _) hcurrent
    [.unreachable, .end, .end, .i64Const 0, .end] [loopLabel function, outer] callers
  exact ⟨inner, after, reaches_of_step rfl hrun⟩

end Dispatch

/-- The copies of the parameters store what the VM stores. -/
theorem execOps_storeArgs {block previous : I64} (done todo : List I64)
    (hargs : args = done ++ todo) (locals locals' : List I64)
    (layout : Layout function args locals)
    (hstore : (todo.zipIdx done.length).foldlM (fun locals entry =>
      setLocal locals (UInt32.ofNat entry.2 + 1) entry.1) locals = .ok locals') :
    Layout function args locals' ∧
      execOps ((todo.zipIdx done.length).flatMap (fun entry =>
        [.localGet (UInt32.ofNat entry.2),
          .localSet (wasmLocal function (UInt32.ofNat entry.2 + 1))])) []
        (wasmLocals args locals block previous) =
      .ok ([], wasmLocals args locals' block previous) := by
  induction todo generalizing done locals with
  | nil =>
    cases hstore
    exact ⟨layout, rfl⟩
  | cons value todo ih =>
    obtain ⟨middle, hset, hstore⟩ := bind_eq_ok hstore
    have hdone : (done ++ [value]).length = done.length + 1 := by simp
    obtain ⟨hlayout, hexec⟩ := ih (done ++ [value]) (by simpa using hargs) middle
      (layout.of_setLocal hset) (by rw [hdone]; exact hstore)
    refine ⟨hlayout, ?_⟩
    rw [hdone] at hexec
    have hindex : (UInt32.ofNat done.length).toNat = done.length := by
      have hlen := layout.args_length
      have hlt := function.paramCount.toNat_lt
      rw [hargs] at hlen
      simp only [length_append] at hlen
      rw [UInt32.toNat_ofNat']
      omega
    have hget : (wasmLocals args locals block previous)[
        (UInt32.ofNat done.length).toNat]? = some value := by
      rw [hindex, wasmLocals, hargs]
      simp
    rw [zipIdx_cons, flatMap_cons]
    simp only [cons_append, nil_append, execOps,
      execPlain_localGet [] _ hget, execPlain_setSlot layout hset, hexec]

theorem skipToEnd_loop : skipToEnd (.loop :: wasmDispatch function) 0 =
    some [.i64Const 0, .end] := by
  have hchain : Balanced (function.blocks.zipIdx.flatMap (encodeWasmBlock function)) := by
    apply balanced_flatMap
    intro entry _
    apply Balanced.append
    · exact ((balanced_nil.cons rfl).cons rfl).cons rfl
    · exact (balanced_blockCode _ _ _).if
  exact hchain _ 1

theorem wasmPrologue_eq (hlength : args.length = function.paramCount.toNat) :
    wasmPrologue function =
      (args.zipIdx.flatMap (fun entry =>
        [.localGet (UInt32.ofNat entry.2),
          .localSet (wasmLocal function (UInt32.ofNat entry.2 + 1))])) ++
        [.i64Const (i64OfU32 function.startBlock), .localSet (blockLocal function),
          .i64Const (-1), .localSet (previousBlockLocal function)] := by
  have hrange : List.range function.paramCount.toNat = args.zipIdx.map (·.2) := by
    rw [← hlength, zipIdx_map_snd, range_eq_range']
  rw [wasmPrologue, hrange, flatMap_map]

/-- An invoked function copies its arguments and enters the dispatch loop at its
start block. -/
theorem reaches_prologue (hfit : function.SlotsFit)
    (hlength : args.length = function.paramCount.toNat) {locals : List I64}
    (hstore : storeArgs (List.replicate function.localCount.toNat 0) args = .ok locals)
    (callers : List WasmFrame) :
    Layout function args locals ∧ ∃ outer, Reaches (wasmStep module)
      (invoke (encodeWasmFunction function) args callers)
      (.running ⟨.loop :: wasmDispatch function, [outer], [],
        wasmLocals args locals (i64OfU32 function.startBlock) (previousValue none)⟩
        callers) := by
  have hzero : Layout function args (List.replicate function.localCount.toNat 0) :=
    ⟨hfit, hlength, by simp⟩
  obtain ⟨hlayout, hexec⟩ := @execOps_storeArgs function args 0 0 [] args rfl _ _ hzero hstore
  refine ⟨hlayout, ⟨[.i64Const 0, .end], 0⟩, ?_⟩
  have hextra : (function.localCount + 2).toNat = function.localCount.toNat + 2 := by
    unfold PortableFunction.SlotsFit at hfit
    rw [UInt32.toNat_add]
    exact Nat.mod_eq_of_lt (by simp only [UInt32.reduceToNat]; omega)
  have hlocals : args ++ List.replicate (function.localCount + 2).toNat 0 =
      wasmLocals args (List.replicate function.localCount.toNat 0) 0 0 := by
    rw [hextra, replicate_add]
    rfl
  have hprologue : execOps (wasmPrologue function) []
      (wasmLocals args (List.replicate function.localCount.toNat 0) 0 0) =
      .ok ([], wasmLocals args locals (i64OfU32 function.startBlock) (previousValue none)) := by
    rw [wasmPrologue_eq hlength, execOps_append]
    simp only [length_nil] at hexec
    simp only [hexec, execOps, execPlain_i64Const, execPlain_setBlock hlayout,
      execPlain_setPrevious hlayout, previousValue]
  simp only [invoke, encodeWasmFunction, hlocals]
  apply (reaches_execOps hprologue rfl).trans
  refine reaches_of_step ?_ .refl
  simp only [wasmStep, stepOp, enterLabel, skipToEnd_loop, if_true, length_nil]

variable {instruction : PortableInstruction}

section Simulation

def PortableInstruction.CastFits : PortableInstruction → Prop
  | .cast _ _ fromTy toTy => fromTy.Fits ∧ toTy.Fits
  | _ => True

/-- The programs the encoder handles: no local index wraps in `u32`, and casts
have scalar widths. -/
def PortableProgram.Encodable (program : PortableProgram) : Prop :=
  ∀ function ∈ program.functions, function.SlotsFit ∧
    ∀ block ∈ function.blocks, ∀ instruction ∈ block.instructions, instruction.CastFits

/-- The states whose next step is one on which the two backends agree: no signed
remainder of the least integer by `-1`, a phi and a switch for which the first
and the last entry lead to the same result. -/
def VmState.Agrees : VmState → Prop
  | .running frame _ =>
    match frame.rest with
    | .binary _ op left right unsigned :: _ =>
      ∀ x y, getLocal frame.locals left = .ok x → getLocal frame.locals right = .ok y →
        RemainderAgrees op unsigned x y
    | .phi destination incoming :: _ =>
      ∀ previous, frame.previousBlock = some previous →
        PhiAgrees frame.locals destination incoming previous
    | _ :: _ => True
    | [] =>
      match frame.terminator with
      | .switch discriminant targets otherwise =>
        ∀ value, getLocal frame.locals discriminant = .ok value →
          switchTarget targets otherwise value = wasmSwitchTarget targets otherwise value
      | _ => True
  | _ => True

structure ValidFrame (program : PortableProgram) (frame : VmFrame) (args : List I64) :
    Prop where
  function_mem : frame.function ∈ program.functions
  layout : Layout frame.function args frame.locals
  casts : ∀ instruction ∈ frame.rest, instruction.CastFits

/-- The WebAssembly frame of a VM frame, stopped inside the dispatch loop. -/
def wasmFrame (frame : VmFrame) (args : List I64) (inner outer : WasmLabel)
    (code : List WasmOp) : WasmFrame :=
  ⟨code, [inner, loopLabel frame.function, outer], [],
    wasmLocals args frame.locals (i64OfU32 frame.block) (previousValue frame.previousBlock)⟩

/-- What the frame still has to run. -/
def frameCode (frame : VmFrame) (after : List WasmOp) : List WasmOp :=
  blockCode frame.function frame.block frame.rest frame.terminator ++ after

/-- What a caller runs when its call returns. -/
def callerCode (caller : VmCaller) (after : List WasmOp) : List WasmOp :=
  .localSet (wasmLocal caller.frame.function caller.destination) ::
    match caller.next with
    | none => frameCode caller.frame after
    | some target =>
      wasmTransition caller.frame.function caller.frame.block target ++ after

def CallerMatches (program : PortableProgram) (caller : VmCaller) (wasm : WasmFrame) :
    Prop :=
  ∃ args inner outer after, ValidFrame program caller.frame args ∧
    wasm = wasmFrame caller.frame args inner outer (callerCode caller after)

/-- Corresponding states of the two machines. A VM error that is no trap has no
counterpart and is matched by anything. -/
def Matches (program : PortableProgram) : VmState → WasmState → Prop
  | .running frame callers, wasm =>
    ∃ args inner outer after wasmCallers, ValidFrame program frame args ∧
      List.Forall₂ (CallerMatches program) callers wasmCallers ∧
      wasm = .running (wasmFrame frame args inner outer (frameCode frame after)) wasmCallers
  | .returned value, wasm => wasm = .returned value
  | .failed e, wasm => e.isTrap = true → wasm = .trapped

variable {e : VmError} {callers : List VmCaller} {wasmCallers : List WasmFrame} {index : UInt32}
  {frame : VmFrame}

/-- The module runs on to a state that corresponds. -/
def MatchedBy (program : PortableProgram) (state : VmState) (wasm : WasmState) : Prop :=
  ∃ wasm', Reaches (wasmStep (encodeWasm program)) wasm wasm' ∧ Matches program state wasm'

theorem MatchedBy.of_reaches {state : VmState} {wasm middle : WasmState}
    (h : MatchedBy program state middle)
    (hrun : Reaches (wasmStep (encodeWasm program)) wasm middle) :
    MatchedBy program state wasm := by
  obtain ⟨wasm', hrest, hmatches⟩ := h
  exact ⟨wasm', hrun.trans hrest, hmatches⟩

theorem matches_failed (he : e.isTrap = false) (wasm : WasmState) :
    MatchedBy program (.failed e) wasm :=
  ⟨wasm, .refl, fun htrap => by rw [he] at htrap; cases htrap⟩

/-- Nor is a read that fails. -/
theorem matches_read {next : I64 → VmState} {wasm : WasmState}
    (h : ∀ value, getLocal locals slot = .ok value → MatchedBy program (next value) wasm) :
    MatchedBy program (match getLocal locals slot with
      | .error e => .failed e
      | .ok value => next value) wasm := by
  cases hvalue : getLocal locals slot with
  | error e =>
    rw [getLocal_error hvalue]
    exact matches_failed rfl _
  | ok value => exact h value hvalue

theorem execOps_transition
    (layout : Layout function args locals) (block previous : I64)
    (current target : UInt32) :
    execOps [.i64Const (i64OfU32 current), .localSet (previousBlockLocal function),
      .i64Const (i64OfU32 target), .localSet (blockLocal function)] []
      (wasmLocals args locals block previous) =
      .ok ([], wasmLocals args locals (i64OfU32 target) (i64OfU32 current)) := by
  simp only [execOps, execPlain_i64Const, execPlain_setPrevious layout, execPlain_setBlock layout]

theorem popArgs_append (values : List I64) (stack : List WasmValue) (args : List I64) :
    popArgs values.length (values.map .i64 ++ stack) args =
      some (values.reverse ++ args, stack) := by
  induction values generalizing args with
  | nil => rfl
  | cons value values ih =>
    simp only [length_cons, map_cons, cons_append, popArgs, ih,
      reverse_cons, append_assoc, nil_append]

/-- The code of the arguments pushes their values, the last one on top. -/
theorem execOps_args {α : Type} {evaluate : α → Except VmError I64} {encode : α → WasmOp}
    {slots : List I64}
    (hencode : ∀ item value stack, evaluate item = .ok value →
      execPlain (encode item) stack slots = .ok (.i64 value :: stack, slots))
    (items : List α) (values : List I64) (hvalues : items.mapM evaluate = .ok values)
    (stack : List WasmValue) :
    execOps (items.map encode) stack slots = .ok (values.reverse.map .i64 ++ stack, slots) := by
  induction items generalizing values stack with
  | nil =>
    cases hvalues
    rfl
  | cons item items ih =>
    obtain ⟨value, rest, hitem, hrest, rfl⟩ := mapM_cons_eq_ok hvalues
    simp only [map_cons, execOps, hencode item value stack hitem, ih rest hrest,
      reverse_cons, map_append, append_assoc]
    rfl

theorem encodeWasm_lookup
    (hfunction : program.functions[index.toNat]? = some function) :
    (encodeWasm program).functions[index.toNat]? = some (encodeWasmFunction function) := by
  simp [encodeWasm, hfunction]

/-- A function that cannot be entered because of its index or its arity fails in
the VM without a trap. -/
theorem matches_enterFunction {wasm : WasmState}
    (h : ∀ function, program.functions[index.toNat]? = some function →
      values.length = function.paramCount.toNat →
      MatchedBy program (enterFunction program index values callers) wasm) :
    MatchedBy program (enterFunction program index values callers) wasm := by
  unfold enterFunction at h ⊢
  split
  · exact matches_failed rfl _
  · rename_i function hfunction
    split_ifs with hlength
    · exact matches_failed rfl _
    · simpa [hfunction, hlength] using h function hfunction (not_ne_iff.mp hlength)

section Control

variable (hprogram : program.Encodable)
  (hcallers : List.Forall₂ (CallerMatches program) callers wasmCallers)
include hprogram hcallers

section

variable (hfunction : function ∈ program.functions) (layout : Layout function args locals)
include hfunction layout

/-- Entering a block of the VM, from the head of the dispatch loop. -/
theorem matches_enterBlock (block : UInt32) (previousBlock : Option UInt32) (outer : WasmLabel) :
    MatchedBy program (enterBlock function block previousBlock locals callers)
      (.running ⟨.loop :: wasmDispatch function, [outer], [],
        wasmLocals args locals (i64OfU32 block) (previousValue previousBlock)⟩ wasmCallers) := by
  unfold enterBlock
  cases hcurrent : function.blocks[block.toNat]? with
  | none => exact matches_failed rfl _
  | some current =>
    obtain ⟨inner, after, hrun⟩ := @reaches_block (encodeWasm program) function args
      locals (previousValue previousBlock) layout block current hcurrent outer wasmCallers
    have hmem : current ∈ function.blocks := mem_of_getElem? hcurrent
    exact ⟨_, hrun, args, inner, outer, after, wasmCallers,
      ⟨hfunction, layout, (hprogram function hfunction).2 current hmem⟩, hcallers, rfl⟩

/-- A branch to the dispatch loop with the next block already stored. -/
theorem matches_branch (block target : UInt32) (inner outer : WasmLabel) (after : List WasmOp) :
    MatchedBy program (enterBlock function target (some block) locals callers)
      (.running ⟨.br 1 :: after, [inner, loopLabel function, outer], [],
        wasmLocals args locals (i64OfU32 target) (i64OfU32 block)⟩ wasmCallers) :=
  (matches_enterBlock hprogram hcallers hfunction layout target (some block) outer).of_reaches
    (.single rfl)

theorem matches_transition (previous : I64) (block target : UInt32) (inner outer : WasmLabel)
    (after : List WasmOp) :
    MatchedBy program (enterBlock function target (some block) locals callers)
      (.running ⟨wasmTransition function block target ++ after,
        [inner, loopLabel function, outer], [],
        wasmLocals args locals (i64OfU32 block) previous⟩ wasmCallers) := by
  have hexec := execOps_transition layout (i64OfU32 block) previous block target
  exact (matches_branch hprogram hcallers hfunction layout block target inner outer
    after).of_reaches (reaches_execOps hexec rfl)

end

/-- A returned value reaches the caller that waits for it, or ends the run. -/
theorem matches_deliver (value : I64) :
    MatchedBy program (deliver value callers) (returnValue [.i64 value] wasmCallers) := by
  cases hcallers with
  | nil => exact ⟨.returned value, .refl, rfl⟩
  | @cons caller wasm callers wasmCallers hcaller hrest =>
    obtain ⟨args, inner, outer, after, hvalid, rfl⟩ := hcaller
    obtain ⟨frame, destination, next⟩ := caller
    cases hset : setLocal frame.locals destination value with
    | error e =>
      simp only [deliver, hset, setLocal_error hset]
      exact matches_failed rfl _
    | ok locals =>
      have hlayout := hvalid.layout.of_setLocal hset
      have hstore : execOps [.localSet (wasmLocal frame.function destination)]
          [.i64 value] (wasmLocals args frame.locals (i64OfU32 frame.block)
            (previousValue frame.previousBlock)) =
          .ok ([], wasmLocals args locals (i64OfU32 frame.block)
            (previousValue frame.previousBlock)) := by
        simp only [execOps, execPlain_setSlot hvalid.layout hset]
      simp only [deliver, hset]
      cases next with
      | none =>
        exact ⟨_, reaches_execOps hstore rfl, args, inner, outer, after,
          wasmCallers, ⟨hvalid.function_mem, hlayout, hvalid.casts⟩, hrest, rfl⟩
      | some target =>
        exact (matches_transition hprogram hrest hvalid.function_mem hlayout
          (previousValue frame.previousBlock) frame.block target inner outer after).of_reaches
            (reaches_execOps hstore rfl)

/-- An invoked function of the module runs as the VM enters the function. -/
theorem matches_invoke (hfunction : program.functions[index.toNat]? = some function)
    (hlength : values.length = function.paramCount.toNat) :
    MatchedBy program (enterFunction program index values callers)
      (invoke (encodeWasmFunction function) values wasmCallers) := by
  simp only [enterFunction, hfunction, hlength, ne_eq]
  cases hstore : storeArgs (List.replicate function.localCount.toNat 0) values with
  | error e =>
    obtain ⟨slot, rfl⟩ := storeArgs_error hstore
    exact matches_failed rfl _
  | ok locals =>
    have hmem : function ∈ program.functions := mem_of_getElem? hfunction
    obtain ⟨hlayout, outer, hprologue⟩ := @reaches_prologue (encodeWasm program) function
      values (hprogram function hmem).1 hlength locals hstore wasmCallers
    exact (matches_enterBlock hprogram hcallers hmem hlayout function.startBlock none
      outer).of_reaches hprologue

/-- A call: the callee runs on the popped arguments, above a caller that waits. -/
theorem matches_call (index : UInt32) (values : List I64) (caller : VmCaller)
    {wasm : WasmFrame} {rest : List WasmOp} {slots : List I64} {labels : List WasmLabel}
    (hcaller : CallerMatches program caller wasm) (hwasm : wasm = ⟨rest, labels, [], slots⟩) :
    MatchedBy program (enterFunction program index values (caller :: callers))
      (.running ⟨.call index :: rest, labels, values.reverse.map .i64, slots⟩ wasmCallers) := by
  apply matches_enterFunction
  intro function hfunction hlength
  refine (matches_invoke hprogram (.cons hcaller hcallers) hfunction hlength).of_reaches
    (reaches_of_step ?_ .refl)
  have hpop : popArgs function.paramCount.toNat (values.reverse.map .i64) [] =
      some (values, []) := by
    have h := popArgs_append values.reverse [] []
    simpa [hlength] using h
  simp only [wasmStep, stepOp, encodeWasm_lookup hfunction, encodeWasmFunction, hpop, hwasm]

end Control

/-- The module starts as the VM starts. -/
theorem matches_start (hprogram : program.Encodable) :
    MatchedBy program (vmStart program) (wasmStart (encodeWasm program)) := by
  apply matches_enterFunction
  intro function hfunction hlength
  have hstart : wasmStart (encodeWasm program) = invoke (encodeWasmFunction function) [] [] := by
    have hmain : (encodeWasm program).main = program.mainIndex := rfl
    have hcount : (encodeWasmFunction function).paramCount = 0 := hlength.symm
    simp only [wasmStart, hmain, encodeWasm_lookup hfunction, hcount, if_true]
  rw [hstart]
  exact matches_invoke hprogram .nil hfunction hlength

section Instruction

variable {block previous : I64}

/-- Code without control flow that has the effect of a VM step on the slots. -/
def CodeSound (function : PortableFunction) (args locals : List I64) (block previous : I64)
    (ops : List WasmOp) : Except VmError (List I64) → Prop
  | .ok locals' =>
    Layout function args locals' ∧ execOps ops [] (wasmLocals args locals block previous) =
        .ok ([], wasmLocals args locals' block previous)
  | .error e =>
    e.isTrap = true → execOps ops [] (wasmLocals args locals block previous) = .error .trap

theorem execOps_getSlot (layout : Layout function args locals)
    (h : getLocal locals slot = .ok value) :
    execOps [.localGet (wasmLocal function slot)] [] (wasmLocals args locals block previous) =
      .ok ([.i64 value], wasmLocals args locals block previous) := by
  simp only [execOps, execPlain_getSlot layout h]

/-- Code that leaves a value on the stack, followed by the store of that value. -/
theorem codeSound_store (layout : Layout function args locals) {ops : List WasmOp}
    (destination : UInt32)
    (hops : execOps ops [] (wasmLocals args locals block previous) =
      .ok ([.i64 value], wasmLocals args locals block previous)) :
    CodeSound function args locals block previous
      (ops ++ [.localSet (wasmLocal function destination)])
      (setLocal locals destination value) := by
  cases hset : setLocal locals destination value with
  | error e =>
    intro htrap
    rw [setLocal_error hset] at htrap
    cases htrap
  | ok locals' =>
    refine ⟨layout.of_setLocal hset, ?_⟩
    simp only [execOps_append, hops, execOps, execPlain_setSlot layout hset]

/-- A read that fails in the VM is no trap, so nothing is asked of the code. -/
theorem codeSound_read {ops : List WasmOp} {next : I64 → Except VmError (List I64)}
    (h : ∀ value, getLocal locals slot = .ok value →
      CodeSound function args locals block previous ops (next value)) :
    CodeSound function args locals block previous ops (getLocal locals slot >>= next) := by
  cases hget : getLocal locals slot with
  | error e =>
    intro htrap
    rw [getLocal_error hget] at htrap
    cases htrap
  | ok value => exact h value hget

/-- The instructions whose code has no control flow. -/
def PortableInstruction.isStraight : PortableInstruction → Bool
  | .phi _ _ | .call _ _ _ => false
  | _ => true

theorem codeSound_scalar (layout : Layout function args locals)
    (instruction : PortableInstruction) (hstraight : instruction.isStraight = true)
    (hcast : instruction.CastFits) (previousBlock : Option UInt32)
    (hagrees : ∀ destination op left right unsigned,
      instruction = .binary destination op left right unsigned →
        ∀ x y, getLocal locals left = .ok x → getLocal locals right = .ok y →
          RemainderAgrees op unsigned x y) :
    CodeSound function args locals block previous
      (encodeWasmInstruction function instruction)
      (executeScalar instruction previousBlock locals) := by
  cases instruction with
  | const destination value =>
    have hpush : execOps [.i64Const value] [] (wasmLocals args locals block previous) =
        .ok ([.i64 value], wasmLocals args locals block previous) := rfl
    exact codeSound_store layout destination hpush
  | unary destination op operand =>
    apply codeSound_read
    intro value hvalue
    exact codeSound_store layout destination (execOps_unary layout op hvalue)
  | binary destination op left right unsigned =>
    apply codeSound_read
    intro x hx
    apply codeSound_read
    intro y hy
    have hexec := @execOps_binary function args locals block previous [] left right x y
      layout op unsigned hx hy (hagrees _ _ _ _ _ rfl x y hx hy)
    cases hresult : evalBinary op unsigned x y with
    | error e =>
      intro _
      simp only [hresult] at hexec
      simp only [encodeWasmInstruction, execOps_append, hexec]
    | ok value =>
      simp only [hresult] at hexec
      exact codeSound_store layout destination hexec
  | move destination source =>
    apply codeSound_read
    intro value hvalue
    exact codeSound_store layout destination (execOps_getSlot layout hvalue)
  | cast destination source fromTy toTy =>
    apply codeSound_read
    intro value hvalue
    apply codeSound_store layout destination
    simp only [execOps_append, execOps, execPlain_getSlot layout hvalue,
      execOps_normalize hcast.1, execOps_normalize hcast.2]
  | nop => exact ⟨layout, rfl⟩
  | phi | call => cases hstraight

end Instruction

theorem frameCode_cons (frame : VmFrame) (instruction : PortableInstruction)
    (rest : List PortableInstruction) (hrest : frame.rest = instruction :: rest)
    (after : List WasmOp) :
    frameCode frame after = encodeWasmInstruction frame.function instruction ++
      frameCode { frame with rest := rest } after := by
  simp only [frameCode, blockCode, hrest, flatMap_cons, append_assoc]

theorem ValidFrame.next (hvalid : ValidFrame program frame args)
    (hrest : frame.rest = instruction :: rest) (layout : Layout frame.function args locals) :
    ValidFrame program { frame with rest := rest, locals := locals } args := by
  refine ⟨hvalid.function_mem, layout, fun i hi => hvalid.casts i ?_⟩
  rw [hrest]
  exact mem_cons_of_mem _ hi

section Steps

variable (hagrees : (VmState.running frame callers).Agrees) (hvalid : ValidFrame program frame args)
  (hcallers : List.Forall₂ (CallerMatches program) callers wasmCallers)
  (inner outer : WasmLabel) (after : List WasmOp)
include hagrees hvalid hcallers

/-- A step that runs an instruction without control flow. -/
theorem matches_scalar
    (hrest : frame.rest = instruction :: rest) (hstraight : instruction.isStraight = true) :
    MatchedBy program (stepInstruction program frame callers instruction rest)
      (.running (wasmFrame frame args inner outer (frameCode frame after)) wasmCallers) := by
  have hcast := hvalid.casts instruction (by rw [hrest]; exact mem_cons_self ..)
  have hsound := @codeSound_scalar frame.function args frame.locals
    (i64OfU32 frame.block) (previousValue frame.previousBlock) hvalid.layout instruction
    hstraight hcast frame.previousBlock (by
      rintro destination op left right unsigned rfl x y hx hy
      simp only [VmState.Agrees, hrest] at hagrees
      exact hagrees x y hx hy)
  rw [frameCode_cons frame instruction rest hrest after]
  cases hresult : executeScalar instruction frame.previousBlock frame.locals with
  | error e =>
    rw [hresult] at hsound
    have hstep : stepInstruction program frame callers instruction rest = .failed e := by
      cases instruction with
      | call => cases hstraight
      | _ => simp only [stepInstruction, hresult]
    rw [hstep]
    cases htrap : e.isTrap with
    | false => exact matches_failed htrap _
    | true => exact ⟨.trapped, reaches_trapped (hsound htrap) rfl, fun _ => rfl⟩
  | ok locals =>
    rw [hresult] at hsound
    have hstep : stepInstruction program frame callers instruction rest =
        .running { frame with rest := rest, locals := locals } callers := by
      cases instruction with
      | call => cases hstraight
      | _ => simp only [stepInstruction, hresult]
    rw [hstep]
    obtain ⟨hlayout, hexec⟩ := hsound
    exact ⟨_, reaches_execOps hexec rfl, args, inner, outer, after, wasmCallers,
      hvalid.next hrest hlayout, hcallers, rfl⟩

/-- Every step of an instruction is matched. -/
theorem matches_stepInstruction (hprogram : program.Encodable)
    (hrest : frame.rest = instruction :: rest) :
    MatchedBy program (stepInstruction program frame callers instruction rest)
      (.running (wasmFrame frame args inner outer (frameCode frame after)) wasmCallers) := by
  cases hstraight : instruction.isStraight with
  | true => exact matches_scalar hagrees hvalid hcallers inner outer after hrest hstraight
  | false =>
    rw [frameCode_cons frame instruction rest hrest after]
    cases instruction with
    | call destination callee slots =>
      simp only [stepInstruction]
      cases hvalues : slots.mapM (getLocal frame.locals) with
      | error e =>
        obtain ⟨slot, rfl⟩ := getLocals_error hvalues
        exact matches_failed rfl _
      | ok values =>
        have hpush := execOps_args (fun slot value stack h =>
          @execPlain_getSlot value frame.function args frame.locals (i64OfU32 frame.block)
            (previousValue frame.previousBlock) stack slot hvalid.layout h)
          slots values hvalues []
        rw [append_nil] at hpush
        have hcall := matches_call hprogram hcallers callee values
          ⟨{ frame with rest := rest }, destination, none⟩
          ⟨args, inner, outer, after, hvalid.next hrest hvalid.layout, rfl⟩ rfl
        simp only [encodeWasmInstruction, append_assoc]
        exact hcall.of_reaches (reaches_execOps hpush rfl)
    | phi destination incoming =>
      simp only [stepInstruction]
      cases hresult :
          executeScalar (.phi destination incoming) frame.previousBlock frame.locals with
      | error e => exact matches_failed (executeScalar_phi_error hresult).1 _
      | ok locals =>
        obtain ⟨previous, source, value, hprevious, hsource, hvalue, hset⟩ :=
          executeScalar_phi_ok hresult
        simp only [VmState.Agrees, hrest] at hagrees
        refine ⟨_, ?_, args, inner, outer, after, wasmCallers,
          hvalid.next hrest (hvalid.layout.of_setLocal hset), hcallers, rfl⟩
        simp only [wasmFrame, hprevious]
        exact runs_phi hvalid.layout (hagrees previous hprevious) hsource hvalue hset _ _ _
    | _ => cases hstraight

/-- A terminator of the VM is matched: the code ends in a branch to the dispatch
loop, a call, a return or a trap. -/
theorem matches_stepTerminator (hprogram : program.Encodable) (hrest : frame.rest = []) :
    MatchedBy program (stepTerminator program frame callers)
      (.running (wasmFrame frame args inner outer (frameCode frame after)) wasmCallers) := by
  obtain ⟨function, block, previousBlock, rest, terminator, locals⟩ := frame
  obtain rfl : rest = [] := hrest
  have hlayout : Layout function args locals := hvalid.layout
  have hfunction : function ∈ program.functions := hvalid.function_mem
  cases terminator with
  | «return» value =>
    cases value with
    | none =>
      exact (matches_deliver hprogram hcallers 0).of_reaches
        (reaches_of_step rfl (.single rfl))
    | some slot =>
      apply matches_read
      intro value hvalue
      exact (matches_deliver hprogram hcallers value).of_reaches
        ((reaches_execOps (execOps_getSlot hlayout hvalue) rfl).trans (.single rfl))
  | goto target =>
    exact matches_transition hprogram hcallers hfunction hlayout _ block target inner outer after
  | «if» condition thenBlock elseBlock =>
    apply matches_read
    intro value hvalue
    have hselect : execOps [.i64Const (i64OfU32 block),
        .localSet (previousBlockLocal function), .i64Const (i64OfU32 thenBlock),
        .i64Const (i64OfU32 elseBlock), .localGet (wasmLocal function condition),
        .i64Eqz, .i32Eqz, .select, .localSet (blockLocal function)] []
        (wasmLocals args locals (i64OfU32 block) (previousValue previousBlock)) =
        .ok ([], wasmLocals args locals
          (i64OfU32 (if value ≠ 0 then thenBlock else elseBlock)) (i64OfU32 block)) := by
      have htarget : (if (!(value == 0)) then i64OfU32 thenBlock
          else i64OfU32 elseBlock) =
          i64OfU32 (if value ≠ 0 then thenBlock else elseBlock) := by
        simp [apply_ite i64OfU32]
      simp only [execOps, execPlain_i64Const, execPlain_setPrevious hlayout,
        execPlain_getSlot hlayout hvalue, execPlain_i64Eqz, execPlain_i32Eqz_bool,
        execPlain_select_bool, execPlain_setBlock hlayout, htarget]
    exact (matches_branch hprogram hcallers hfunction hlayout block _ inner outer
      after).of_reaches (reaches_execOps hselect rfl)
  | switch discriminant targets otherwise =>
    apply matches_read
    intro value hvalue
    have hcases := @runs_cases (encodeWasm program) function args locals value (i64OfU32 block)
      discriminant hlayout hvalue targets otherwise
    rw [← hagrees value hvalue] at hcases
    have hcode : frameCode ⟨function, block, previousBlock, [],
        .switch discriminant targets otherwise, locals⟩ after =
        [.i64Const (i64OfU32 block), .localSet (previousBlockLocal function),
          .i64Const (i64OfU32 otherwise), .localSet (blockLocal function)] ++
          targets.flatMap (encodeWasmCase function discriminant) ++ .br 1 :: after := by
      simp [frameCode, blockCode, encodeWasmTerminator]
    have hexec := execOps_transition hlayout (i64OfU32 block) (previousValue previousBlock)
      block otherwise
    refine (matches_branch hprogram hcallers hfunction hlayout block _ inner outer
      after).of_reaches ?_
    rw [hcode]
    exact (Runs.of_execOps hexec).append hcases _ _ _
  | call callee items destination target =>
    simp only [stepTerminator]
    cases hvalues : items.mapM (argValue locals) with
    | error e =>
      obtain ⟨slot, rfl⟩ := argValues_error hvalues
      exact matches_failed rfl _
    | ok values =>
      have hpush := @execOps_args PortableArg (argValue locals) (encodeWasmArg function)
        (wasmLocals args locals (i64OfU32 block) (previousValue previousBlock)) (by
          intro item value stack hitem
          cases item with
          | «local» slot => exact execPlain_getSlot hlayout hitem
          | constant constant =>
            cases hitem
            rfl) items values hvalues []
      rw [append_nil] at hpush
      have hcall := matches_call hprogram hcallers callee values
        ⟨⟨function, block, previousBlock, [], .call callee items destination target,
          locals⟩, destination, some target⟩ ⟨args, inner, outer, after, hvalid, rfl⟩ rfl
      simp only [frameCode, blockCode, flatMap_nil, nil_append,
        encodeWasmTerminator, append_assoc]
      exact hcall.of_reaches (reaches_execOps hpush rfl)
  | unreachable =>
    exact ⟨.trapped, .single rfl, fun _ => rfl⟩

end Steps

/-- One step of the VM is matched by a run of the module. -/
theorem matches_step (hprogram : program.Encodable) (state : VmState) (wasm : WasmState)
    (next : VmState) (hmatches : Matches program state wasm) (hagrees : state.Agrees)
    (hstep : vmStep program state = some next) : MatchedBy program next wasm := by
  cases state with
  | returned value | failed e => cases hstep
  | running frame callers =>
    obtain ⟨args, inner, outer, after, wasmCallers, hvalid, hcallers, rfl⟩ := hmatches
    cases hrest : frame.rest with
    | nil =>
      simp only [vmStep, hrest] at hstep
      cases hstep
      exact matches_stepTerminator hagrees hvalid hcallers inner outer after hprogram hrest
    | cons instruction rest =>
      simp only [vmStep, hrest] at hstep
      cases hstep
      exact matches_stepInstruction hagrees hvalid hcallers inner outer after hprogram hrest

/-- A whole run of the VM on whose steps the backends agree is matched. -/
theorem matches_run (hprogram : program.Encodable)
    (hagrees : ∀ state, Reaches (vmStep program) (vmStart program) state → state.Agrees)
    (state : VmState) (hreach : Reaches (vmStep program) (vmStart program) state) :
    MatchedBy program state (wasmStart (encodeWasm program)) := by
  obtain ⟨start, hstart, hmatches⟩ := matches_start hprogram
  obtain ⟨wasm, hrun, hend⟩ := reaches_simulation (matches_step hprogram) hmatches hagrees
    state hreach
  exact ⟨wasm, hstart.trans hrun, hend⟩

end Simulation

section Backends

open Sengoo.Mir

theorem portableScalarType_fits {function : String}
    {ty : MIRType} {scalar : PortableScalarType}
    (h : portableScalarType target function ty = .ok scalar) : scalar.Fits := by
  cases ty with
  | unit | never | bool =>
    cases h
    simp [PortableScalarType.Fits]
  | int bits | uint bits =>
    simp only [portableScalarType] at h
    split at h
    · rename_i hbits
      cases h
      simp only [PortableScalarType.Fits]
      rcases hbits with rfl | rfl | rfl | rfl <;> decide
    · cases h
  | _ => cases h

theorem castFits_portableCast {function : MirFunction}
    {destination source : Local}
    (h : portableCast target function destination source = .ok instruction) :
    instruction.CastFits := by
  obtain ⟨destTy, -, h⟩ := bind_eq_ok h
  obtain ⟨srcTy, -, h⟩ := bind_eq_ok h
  obtain ⟨-, h⟩ := of_guard h
  obtain ⟨fromTy, hfrom, h⟩ := bind_eq_ok h
  obtain ⟨toTy, hto, h⟩ := bind_eq_ok h
  cases h
  exact ⟨portableScalarType_fits hfrom, portableScalarType_fits hto⟩

theorem castFits_fromMir {function : MirFunction}
    {indices : String → Option UInt32} {source : Instruction}
    (h : PortableInstruction.fromMir target function indices source = .ok instruction) :
    instruction.CastFits := by
  cases source with
  | assign | call =>
    obtain ⟨_, -, h⟩ := bind_eq_ok h
    cases h
    trivial
  | unary | phi | nop =>
    cases h
    trivial
  | binary destination op left right =>
    obtain ⟨leftTy, -, h⟩ := bind_eq_ok h
    obtain ⟨rightTy, -, h⟩ := bind_eq_ok h
    obtain ⟨unsigned, -, h⟩ := bind_eq_ok h
    cases h
    trivial
  | cast | bitcast => exact castFits_portableCast h
  | _ => cases h

/-- A lowered program whose local indices fit is one the encoder handles. -/
theorem encodable_of_fromMir {functions : List MirFunction}
    (hfrom : PortableProgram.fromMir target functions = .ok program)
    (hslots : ∀ function ∈ program.functions, function.SlotsFit) : program.Encodable := by
  intro function hfunction
  refine ⟨hslots function hfunction, ?_⟩
  obtain ⟨mir, -, hmir⟩ := PortableProgram.fromMir_functions hfrom function hfunction
  intro block hblock instruction hinstruction
  obtain ⟨source, -, hsource⟩ := PortableFunction.fromMir_instructions hmir block hblock
    instruction hinstruction
  exact castFits_fromMir hsource

/-- The module emitted for a program gives the result of the VM and traps where
the VM traps. -/
def BackendsAgree (program : PortableProgram) : Prop :=
  (∀ value, executeBytecode program = .ok value →
    .returned value ∈ eval (wasmStep (encodeWasm program)) (wasmStart (encodeWasm program))) ∧
  (∀ e, executeBytecode program = .error e → e.isTrap = true →
    .trapped ∈ eval (wasmStep (encodeWasm program)) (wasmStart (encodeWasm program)))

/-- The two backends agree on every lowered program whose run meets no step on
which they differ: a signed remainder of the least integer by `-1`, a phi or a
switch whose first and last applicable entries disagree. -/
theorem wasm_agrees_with_vm {target : PortableBackendTarget}
    {functions : List MirFunction} {program : PortableProgram}
    (hfrom : PortableProgram.fromMir target functions = .ok program)
    (hslots : ∀ function ∈ program.functions, function.SlotsFit)
    (hagrees : ∀ state, Reaches (vmStep program) (vmStart program) state → state.Agrees) :
    BackendsAgree program := by
  have hprogram := encodable_of_fromMir hfrom hslots
  obtain ⟨⟨state, executed⟩, hreach, hends⟩ := executeBytecode_contained program
  obtain ⟨wasm, hrun, hmatches⟩ := matches_run hprogram hagrees state
    (reaches_of_containedStep hreach)
  constructor
  · intro value hvalue
    rw [hvalue] at hends
    obtain rfl : state = .returned value := hends
    obtain rfl : wasm = .returned value := hmatches
    exact mem_eval_of_reaches hrun rfl
  · intro e he htrap
    have hlimit : e.isLimit = false := by
      cases e <;> first | rfl | cases htrap
    rw [he, Ends, hlimit] at hends
    obtain rfl : state = .failed e := hends
    obtain rfl : wasm = .trapped := hmatches htrap
    exact mem_eval_of_reaches hrun rfl

/-- A `main` that returns the signed remainder of two constants. -/
def remainderMain (left right : I64) : MirFunction where
  name := "main"
  params := []
  returnType := .int 64
  locals := [(⟨0, .return⟩, .int 64), (⟨1, .temp⟩, .int 64), (⟨2, .temp⟩, .int 64),
    (⟨3, .temp⟩, .int 64)]
  basicBlocks := [⟨0, [0, 1, 2], some (.return (some ⟨3, .temp⟩))⟩]
  instructions := [.assign ⟨1, .temp⟩ (.int left), .assign ⟨2, .temp⟩ (.int right),
    .binary ⟨3, .temp⟩ .rem ⟨1, .temp⟩ ⟨2, .temp⟩]
  startBlock := 0
  isAsync := false

/-- What `remainderMain` lowers to. -/
def remainderProgram (left right : I64) : PortableProgram where
  functions := [{
    name := "main", paramCount := 0, localCount := 4, startBlock := 0
    blocks := [{
      instructions := [.const 1 left, .const 2 right, .binary 3 .rem 1 2 false]
      terminator := .return (some 3) }] }]
  mainIndex := 0

/-- The VM traps on `i64::MIN % -1`, the emitted module returns 0. -/
theorem remainder_backends_differ :
    PortableProgram.fromMir .wasm [remainderMain (BitVec.intMin 64) (-1)] =
      .ok (remainderProgram (BitVec.intMin 64) (-1)) ∧
    executeBytecode (remainderProgram (BitVec.intMin 64) (-1)) = .error .remainderTrap ∧
    .returned 0 ∈ eval (wasmStep (encodeWasm (remainderProgram (BitVec.intMin 64) (-1))))
      (wasmStart (encodeWasm (remainderProgram (BitVec.intMin 64) (-1)))) ∧
    ¬ BackendsAgree (remainderProgram (BitVec.intMin 64) (-1)) := by
  have hvm : executeBytecode (remainderProgram (BitVec.intMin 64) (-1)) =
      .error .remainderTrap := by decide +kernel
  have hwasm : .returned 0 ∈ eval (wasmStep (encodeWasm (remainderProgram (BitVec.intMin 64) (-1))))
        (wasmStart (encodeWasm (remainderProgram (BitVec.intMin 64) (-1)))) :=
    mem_eval_of_runAtMost 30 (by decide +kernel) rfl
  refine ⟨rfl, hvm, hwasm, ?_⟩
  intro hagree
  have htrapped := hagree.2 _ hvm rfl
  cases Part.mem_unique hwasm htrapped

/-- With other operands the condition holds and the backends agree. -/
theorem remainder_backends_agree : BackendsAgree (remainderProgram 7 (-2)) := by
  have hfrom : PortableProgram.fromMir .wasm [remainderMain 7 (-2)] =
      .ok (remainderProgram 7 (-2)) := rfl
  have hslots : ∀ function ∈ (remainderProgram 7 (-2)).functions, function.SlotsFit := by
    intro function hfunction
    rw [mem_singleton.mp hfunction]
    decide
  have hagrees : ∀ state, Reaches (vmStep (remainderProgram 7 (-2)))
      (vmStart (remainderProgram 7 (-2))) state → state.Agrees := by
    refine forall_reaches_of_runAtMost 4 (by decide +kernel) ?_
    intro k hk
    have hcases : k = 0 ∨ k = 1 ∨ k = 2 ∨ k = 3 ∨ k = 4 := by omega
    rcases hcases with rfl | rfl | rfl | rfl | rfl
    · exact True.intro
    · exact True.intro
    · intro x y hx _ _ _ hoverflow
      cases hx
      exact absurd hoverflow.1 (by decide)
    · exact True.intro
    · exact True.intro
  exact wasm_agrees_with_vm hfrom hslots hagrees

end Backends

end Sengoo.Portable
