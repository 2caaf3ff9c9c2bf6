import Sengoo.Mir.Syntax
import Sengoo.Sgc.Pruning

/-!
Dropping unreachable functions from the mid-level IR. Everything is a function
here, and the walk finds the callee of a call, the function a constant refers to
and the poll function of a suspension; it does not look at constants passed as
arguments of a call that ends a block.
-/

namespace Sengoo.Sgc.Mir

open Sengoo.Mir

section Text

/-- Every occurrence of a pattern is replaced, from the left; the number counts what
is left of the occurrence that was just replaced. -/
def replaceFrom (pattern replacement : List Char) : Nat → List Char → List Char
  | _, [] => []
  | skip + 1, _ :: rest => replaceFrom pattern replacement skip rest
  | 0, c :: rest =>
    if pattern.isPrefixOf (c :: rest) then
      replacement ++ replaceFrom pattern replacement (pattern.length - 1) rest
    else c :: replaceFrom pattern replacement 0 rest

def replace (text pattern replacement : String) : String :=
  String.ofList (replaceFrom pattern.toList replacement.toList 0 text.toList)

def startsWith (text start : String) : Bool := start.toList.isPrefixOf text.toList

end Text

section Mentions

def constantMentions : MirConstant → List String
  | .globalRef name => [name]
  | _ => []

def instructionMentions : Instruction → List String
  | .call _ func _ => [func]
  | .assign _ value => constantMentions value
  | _ => []

def argMentions : CallArg → List String
  | .local _ => []
  | .constant value => constantMentions value

def terminatorMentions : Option Terminator → List String
  | some (.call func args _ _) => func :: args.flatMap argMentions
  | some (.suspend pollFunc _ _ _ _) => [pollFunc]
  | _ => []

/-- The names found at the end of a block. -/
def terminatorWalked : Option Terminator → List String
  | some (.call func _ _ _) => [func]
  | some (.suspend pollFunc _ _ _ _) =>
    [pollFunc, replace pollFunc "__poll" "__result", replace pollFunc "__poll" "__start"]
  | _ => []

/-- The instructions of a block. An id outside the arena stops the source. -/
def blockInstructions (function : MirFunction) (block : BasicBlock) : List Instruction :=
  block.instructions.filterMap fun id => function.instructions[id.toNat]?

def functionMentions (function : MirFunction) : List String :=
  function.basicBlocks.flatMap fun block =>
    (blockInstructions function block).flatMap instructionMentions ++
      terminatorMentions block.terminator

def functionWalked (function : MirFunction) : List String :=
  function.basicBlocks.flatMap fun block =>
    (blockInstructions function block).flatMap instructionMentions ++
      terminatorWalked block.terminator

end Mentions

section Walk

variable (index : Table String Nat)

/-- The function an instruction refers to. -/
def instructionTarget : Instruction → Option String
  | .call _ func _ => some func
  | .assign _ (.globalRef name) => some name
  | _ => none

def collectInstruction (inst : Instruction) (found : Targets) : Targets :=
  match instructionTarget inst with
  | some target => found.addName index target
  | none => found

def collectTerminator (terminator : Option Terminator) (found : Targets) : Targets :=
  match terminator with
  | some (.call func _ _ _) => found.addName index func
  | some (.suspend pollFunc _ _ _ _) =>
    ((found.addName index pollFunc).addName index (replace pollFunc "__poll" "__result")).addName
      index (replace pollFunc "__poll" "__start")
  | _ => found

def collectBlock (function : MirFunction) (block : BasicBlock) (found : Targets) : Targets :=
  collectTerminator index block.terminator
    ((blockInstructions function block).foldl (fun found inst => collectInstruction index inst found)
      found)

def collectMirCallTargets (function : MirFunction) : List Nat :=
  (function.basicBlocks.foldl (fun found block => collectBlock index function block found)
    Targets.empty).targets

variable {index}

theorem instruction_collects (inst : Instruction) :
    Collects index (collectInstruction index inst) (instructionMentions inst) := by
  cases inst with
  | call _ func _ => exact .name func
  | assign _ value =>
    cases value with
    | globalRef name => exact .name name
    | _ => exact .nothing
  | _ => exact .nothing

theorem terminator_collects (terminator : Option Terminator) :
    Collects index (collectTerminator index terminator) (terminatorWalked terminator) := by
  cases terminator with
  | none => exact .nothing
  | some terminator =>
    cases terminator with
    | call func => exact .name func
    | suspend pollFunc => exact (Collects.name pollFunc).andThen ((Collects.name _).andThen (.name _))
    | _ => exact .nothing

theorem mem_collectMirCallTargets (function : MirFunction) (i : Nat) :
    i ∈ collectMirCallTargets index function ↔
      ∃ name ∈ functionWalked function, index.lookup name = some i :=
  (Collects.each _ _ (fun block : BasicBlock => (Collects.each _ _ instruction_collects _).andThen
    (terminator_collects block.terminator)) _).mem_targets i

end Walk

section Prune

def dispatchHelpers : List String :=
  asyncHelpers ++
    ["sengoo_async_poll_dispatch", "sengoo_async_cancel_dispatch", "sengoo_async_drop_dispatch",
      "sengoo_async_result_dispatch_i8", "sengoo_async_result_dispatch_i16",
      "sengoo_async_result_dispatch_i32", "sengoo_async_result_dispatch_i64",
      "sengoo_async_result_dispatch_bool", "sengoo_async_result_dispatch_f32",
      "sengoo_async_result_dispatch_f64"]

/-- Lambdas and the shims of dynamic dispatch are entered through pointers. -/
def enteredIndirectly (name : String) : Bool :=
  startsWith name "$__lambda" || startsWith name "__dynshim"

def indirectStack (mirFns : List MirFunction) : List Nat :=
  mirFns.zipIdx.filterMap fun entry =>
    if enteredIndirectly entry.1.name then some entry.2 else none

def isReached (index : Table String Nat) (reached : List Nat) (name : String) : Bool :=
  match index.lookup name with
  | some i => decide (i ∈ reached)
  | none => false

/-- The functions that are left and the number removed. -/
def pruneUnreachableMirFunctions (mirFns : List MirFunction) : List MirFunction × Nat :=
  if mirFns.length ≤ 1 then (mirFns, 0)
  else
    let index := indexByName (mirFns.map MirFunction.name)
    match index.lookup "main" with
    | none => (mirFns, 0)
    | some mainIndex =>
      let edges := mirFns.map (collectMirCallTargets index)
      let reached :=
        reachable edges (rootStack index mainIndex dispatchHelpers ++ indirectStack mirFns)
      let kept := mirFns.filter fun function => isReached index reached function.name
      (kept, mirFns.length - kept.length)

def mirIr : Ir MirFunction MirFunction where
  function? := some
  name := MirFunction.name
  mentions := functionMentions
  walked := functionWalked
  rootNames := "main" :: dispatchHelpers
  indirect := enteredIndirectly

variable (mirFns : List MirFunction)

theorem mirFunctions : mirIr.functions mirFns = mirFns :=
  List.filterMap_some

theorem mirNames : mirIr.names mirFns = mirFns.map MirFunction.name :=
  congrArg (List.map MirFunction.name) (mirFunctions mirFns)

theorem mem_indirectStack (i : Nat) : i ∈ indirectStack mirFns ↔
      ∃ name, (mirFns.map MirFunction.name)[i]? = some name ∧ enteredIndirectly name = true := by
  simp only [indirectStack, List.mem_filterMap, Prod.exists, List.mem_zipIdx_iff_getElem?,
    List.getElem?_map, Option.map_eq_some_iff, Option.ite_none_right_eq_some, Option.some.injEq]
  constructor
  · rintro ⟨f, _, hat, hindirect, rfl⟩
    exact ⟨f.name, ⟨f, hat, rfl⟩, hindirect⟩
  · rintro ⟨name, ⟨f, hat, rfl⟩, hindirect⟩
    exact ⟨f, i, hat, hindirect, rfl⟩

theorem mirSearches {mirFns : List MirFunction} {mainIndex : Nat}
    (hmain : (indexByName (mirFns.map MirFunction.name)).lookup "main" = some mainIndex) :
    mirIr.Searches mirFns
      (mirFns.map (collectMirCallTargets (indexByName (mirFns.map MirFunction.name))))
      (rootStack (indexByName (mirFns.map MirFunction.name)) mainIndex dispatchHelpers ++
        indirectStack mirFns) := by
  rw [← mirNames] at hmain ⊢
  have hstack : ∀ i, i ∈ rootStack (indexByName (mirIr.names mirFns)) mainIndex dispatchHelpers ++
          indirectStack mirFns ↔
        i ∈ rootStack (indexByName (mirIr.names mirFns)) mainIndex dispatchHelpers ∨
          ∃ name, (mirIr.names mirFns)[i]? = some name ∧ mirIr.indirect name = true := by
    intro i
    rw [List.mem_append, mem_indirectStack, mirNames]
    rfl
  have hsearch : mirIr.Searches mirFns _ _ :=
    Ir.searches_of_walk rfl hmain mem_collectMirCallTargets hstack
  rwa [mirFunctions] at hsearch

/-- Pruning the lowered functions closes them exactly when what they refer to in the
arguments of a call that ends a block is met. -/
theorem mir_closed_iff {mirFns : List MirFunction} (hmain : "main" ∈ mirIr.names mirFns) :
    mirIr.Closed mirFns (pruneUnreachableMirFunctions mirFns).1 ↔ mirIr.Covered mirFns := by
  by_cases hone : mirFns.length ≤ 1
  · have hsame : pruneUnreachableMirFunctions mirFns = (mirFns, 0) := by
      rw [pruneUnreachableMirFunctions, if_pos hone]
    have hlength : (mirIr.names mirFns).length ≤ 1 := by
      rwa [mirNames, List.length_map]
    rw [hsame]
    exact iff_of_true (fun _ _ _ _ => rfl) (Ir.covered_of_single hmain List.mem_cons_self hlength)
  · obtain ⟨mainIndex, hlookup⟩ := Ir.lookup_main hmain
    rw [mirNames] at hlookup
    have hpruned : (pruneUnreachableMirFunctions mirFns).1 =
        mirFns.filter (mirIr.keeps (isReached (indexByName (mirFns.map MirFunction.name))
          (reachable (mirFns.map (collectMirCallTargets (indexByName (mirFns.map MirFunction.name))))
            (rootStack (indexByName (mirFns.map MirFunction.name)) mainIndex dispatchHelpers ++
              indirectStack mirFns)))) := by
      rw [pruneUnreachableMirFunctions, if_neg hone]
      simp only [hlookup]
      rfl
    rw [hpruned]
    refine Ir.closed_filter_iff fun name hname => ?_
    obtain ⟨i, hi⟩ := exists_resolves hname
    have hi := (lookup_indexByName _ _ _).mpr hi
    have hsupplied := (mirSearches hlookup).supplied_iff hi
    rw [mirNames] at hi
    rw [isReached, hi]
    exact decide_eq_true_iff.trans hsupplied

end Prune

end Sengoo.Sgc.Mir
