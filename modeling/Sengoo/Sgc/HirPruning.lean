import Mathlib.Data.BitVec
import Sengoo.Sgc.Pruning

/-!
Dropping unreachable functions from the lowered module. The walk enters every
expression and pattern of a function, its contracts included, so a function that
was gone through hides nothing; what it does not walk are the methods of impls
and traits and the values of constants and statics.
-/

namespace Sengoo.Sgc.Hir

/-- Literals; a float is given by its bit pattern. -/
inductive HIRLiteral where
  | int (value : BitVec 64)
  | uint (value : BitVec 64)
  | float (bits : BitVec 64)
  | string (value : String)
  | bytes (value : List UInt8)
  | char (value : Char)
  | bool (value : Bool)
  | null
  deriving DecidableEq

mutual
inductive HIRExpr where
  | lit (value : HIRLiteral)
  | var (name : String)
  | unary (operand : HIRExpr)
  | binary (lhs rhs : HIRExpr)
  | and (lhs rhs : HIRExpr)
  | or (lhs rhs : HIRExpr)
  | if (cond : HIRExpr) (thenBranch : HIRBody) (elseBranch : Option HIRBody)
  | match (scrutinee : HIRExpr) (arms : List HIRMatchArm)
  | loop (body : HIRBody)
  | while (cond : HIRExpr) (body : HIRBody)
  | for (varName : String) (iter : HIRExpr) (body : HIRBody)
  | call (func : HIRExpr) (args : List HIRExpr)
  | enumConstruct (enumName variantName : String) (args : List HIRExpr)
  | methodCall (receiver : HIRExpr) (method : String) (args : List HIRExpr)
  | struct (name : String) (fields : List HIRFieldValue)
  | array (items : List HIRExpr)
  | index (base index : HIRExpr)
  | field (base : HIRExpr) (field : String)
  | assign (target value : HIRExpr)
  | assignOp (target value : HIRExpr)
  | return (value : Option HIRExpr)
  | break (value : Option HIRExpr)
  | continue
  | block (body : HIRBody)
  | cast (inner : HIRExpr)
  | ascribe (inner : HIRExpr)
  | ref (isMut : Bool) (inner : HIRExpr)
  | deref (inner : HIRExpr)
  | range (start stop : Option HIRExpr) (inclusive : Bool)
  | tuple (items : List HIRExpr)
  | lambda (params : List String) (body : HIRExpr)
  | await (inner : HIRExpr)
  | asyncBlock (body : HIRBody)
  | try (inner : HIRExpr)
  | tryBlock (body : HIRBody)

inductive HIRFieldValue where
  | mk (name : String) (value : HIRExpr)

inductive HIRPattern where
  | wild
  | lit (value : HIRLiteral)
  | var (name : String)
  | struct (name : String) (fields : List HIRFieldPattern)
  | enumVariant (discriminant : UInt32) (fields : List HIRFieldPattern)
  | tuple (items : List HIRPattern)
  | or (lhs rhs : HIRPattern)
  | slice (before : List HIRPattern) (rest : Option HIRPattern) (after : List HIRPattern)
  | range (start stop : Option HIRExpr)
  | ref (inner : HIRPattern)
  | refMut (inner : HIRPattern)

inductive HIRFieldPattern where
  | mk (name : String) (pattern : Option HIRPattern)

inductive HIRMatchArm where
  | mk (pat : HIRPattern) (guard : Option HIRExpr) (body : HIRExpr)

inductive HIRStmt where
  | source (siteLo : UInt32)
  | coverage (siteLo : UInt32)
  | let (name : String) (value : Option HIRExpr)
  | expr (value : HIRExpr)
  | item

inductive HIRBody where
  | mk (stmts : List HIRStmt) (expr : Option HIRExpr)
end

structure HIRFunction where
  name : String
  precondition : Option HIRExpr
  postcondition : Option HIRExpr
  body : HIRBody

inductive HIRTraitItem where
  | function (function : HIRFunction)
  | const (name : String)
  | type (name : String)

inductive HIRItem where
  | function (function : HIRFunction)
  | externBlock (abi : String)
  | struct (name : String)
  | enum (name : String)
  | trait (name : String) (items : List HIRTraitItem)
  | impl (items : List HIRFunction)
  | const (name : String) (value : HIRExpr)
  | static (name : String) (value : HIRExpr)
  | typeAlias (name : String)

section Mentions

mutual
def exprMentions : HIRExpr → List String
  | .lit _ | .continue => []
  | .var name => [name]
  | .unary inner | .cast inner | .ascribe inner | .ref _ inner | .deref inner | .await inner
  | .try inner => exprMentions inner
  | .binary lhs rhs | .and lhs rhs | .or lhs rhs | .index lhs rhs | .assign lhs rhs
  | .assignOp lhs rhs => exprMentions lhs ++ exprMentions rhs
  | .if cond thenBranch elseBranch =>
    exprMentions cond ++ (bodyMentions thenBranch ++ optionBodyMentions elseBranch)
  | .match scrutinee arms => exprMentions scrutinee ++ armsMentions arms
  | .loop body | .block body | .tryBlock body | .asyncBlock body => bodyMentions body
  | .while cond body => exprMentions cond ++ bodyMentions body
  | .for _ iter body => exprMentions iter ++ bodyMentions body
  | .call func args => exprMentions func ++ exprsMentions args
  | .enumConstruct _ _ args => exprsMentions args
  | .methodCall receiver _ args => exprMentions receiver ++ exprsMentions args
  | .struct _ fields => fieldsMentions fields
  | .array items | .tuple items => exprsMentions items
  | .field base _ => exprMentions base
  | .return value | .break value => optionMentions value
  | .range start stop _ => optionMentions start ++ optionMentions stop
  | .lambda _ body => exprMentions body

def optionMentions : Option HIRExpr → List String
  | none => []
  | some expr => exprMentions expr

def exprsMentions : List HIRExpr → List String
  | [] => []
  | expr :: rest => exprMentions expr ++ exprsMentions rest

def fieldsMentions : List HIRFieldValue → List String
  | [] => []
  | .mk _ value :: rest => exprMentions value ++ fieldsMentions rest

def armsMentions : List HIRMatchArm → List String
  | [] => []
  | .mk pat guard body :: rest =>
    patternMentions pat ++ (optionMentions guard ++ (exprMentions body ++ armsMentions rest))

def stmtMentions : HIRStmt → List String
  | .source _ | .coverage _ | .item => []
  | .let _ value => optionMentions value
  | .expr value => exprMentions value

def stmtsMentions : List HIRStmt → List String
  | [] => []
  | stmt :: rest => stmtMentions stmt ++ stmtsMentions rest

def bodyMentions : HIRBody → List String
  | .mk stmts expr => stmtsMentions stmts ++ optionMentions expr

def optionBodyMentions : Option HIRBody → List String
  | none => []
  | some body => bodyMentions body

def patternMentions : HIRPattern → List String
  | .wild | .lit _ | .var _ => []
  | .enumVariant _ fields | .struct _ fields => fieldPatternsMentions fields
  | .tuple items => patternsMentions items
  | .or lhs rhs => patternMentions lhs ++ patternMentions rhs
  | .slice before rest after =>
    patternsMentions before ++ (optionPatternMentions rest ++ patternsMentions after)
  | .range start stop => optionMentions start ++ optionMentions stop
  | .ref inner | .refMut inner => patternMentions inner

def optionPatternMentions : Option HIRPattern → List String
  | none => []
  | some pattern => patternMentions pattern

def patternsMentions : List HIRPattern → List String
  | [] => []
  | pattern :: rest => patternMentions pattern ++ patternsMentions rest

def fieldPatternsMentions : List HIRFieldPattern → List String
  | [] => []
  | .mk _ pattern :: rest => optionPatternMentions pattern ++ fieldPatternsMentions rest
end

def contractMentions (function : HIRFunction) : List String :=
  optionMentions function.precondition ++ optionMentions function.postcondition

def functionMentions (function : HIRFunction) : List String :=
  bodyMentions function.body ++ contractMentions function

def traitItemMentions : HIRTraitItem → List String
  | .function function => functionMentions function
  | .const _ | .type _ => []

def itemMentions : HIRItem → List String
  | .function function => functionMentions function
  | .trait _ items => items.flatMap traitItemMentions
  | .impl items => items.flatMap functionMentions
  | .const _ value | .static _ value => exprMentions value
  | .externBlock _ | .struct _ | .enum _ | .typeAlias _ => []

end Mentions

section Walk

variable (index : Table String Nat)

/-- The callee of a call is looked at once more after the arguments. -/
def addCallee (func : HIRExpr) (found : Targets) : Targets :=
  match func with
  | .var name => found.addName index name
  | _ => found

mutual
def collectHirCallTargetsFromExpr : HIRExpr → Targets → Targets
  | .lit _, found | .continue, found => found
  | .var name, found => found.addName index name
  | .unary inner, found | .cast inner, found | .ascribe inner, found | .ref _ inner, found
  | .deref inner, found | .await inner, found | .try inner, found =>
    collectHirCallTargetsFromExpr inner found
  | .binary lhs rhs, found | .and lhs rhs, found | .or lhs rhs, found | .index lhs rhs, found
  | .assign lhs rhs, found | .assignOp lhs rhs, found =>
    collectHirCallTargetsFromExpr rhs (collectHirCallTargetsFromExpr lhs found)
  | .if cond thenBranch elseBranch, found =>
    collectHirCallTargetsFromElse elseBranch ((collectHirCallTargetsFromExpr cond found).addAll
        (collectHirCallTargetsInBody thenBranch .empty).targets)
  | .match scrutinee arms, found =>
    collectHirCallTargetsFromArms arms (collectHirCallTargetsFromExpr scrutinee found)
  | .loop body, found | .block body, found | .tryBlock body, found =>
    found.addAll (collectHirCallTargetsInBody body .empty).targets
  | .while cond body, found =>
    (collectHirCallTargetsFromExpr cond found).addAll
      (collectHirCallTargetsInBody body .empty).targets
  | .for _ iter body, found =>
    (collectHirCallTargetsFromExpr iter found).addAll
      (collectHirCallTargetsInBody body .empty).targets
  | .call func args, found =>
    addCallee index func
      (collectHirCallTargetsFromExprs args (collectHirCallTargetsFromExpr func found))
  | .enumConstruct _ _ args, found => collectHirCallTargetsFromExprs args found
  | .methodCall receiver _ args, found =>
    collectHirCallTargetsFromExprs args (collectHirCallTargetsFromExpr receiver found)
  | .struct _ fields, found => collectHirCallTargetsFromFields fields found
  | .array items, found | .tuple items, found => collectHirCallTargetsFromExprs items found
  | .field base _, found => collectHirCallTargetsFromExpr base found
  | .return value, found | .break value, found => collectHirCallTargetsFromOption value found
  | .range start stop _, found =>
    collectHirCallTargetsFromOption stop (collectHirCallTargetsFromOption start found)
  | .lambda _ body, found => collectHirCallTargetsFromExpr body found
  -- the body of an async block is walked in place
  | .asyncBlock body, found => collectHirCallTargetsInBody body found

def collectHirCallTargetsFromOption : Option HIRExpr → Targets → Targets
  | none, found => found
  | some expr, found => collectHirCallTargetsFromExpr expr found

def collectHirCallTargetsFromExprs : List HIRExpr → Targets → Targets
  | [], found => found
  | expr :: rest, found =>
    collectHirCallTargetsFromExprs rest (collectHirCallTargetsFromExpr expr found)

def collectHirCallTargetsFromFields : List HIRFieldValue → Targets → Targets
  | [], found => found
  | .mk _ value :: rest, found =>
    collectHirCallTargetsFromFields rest (collectHirCallTargetsFromExpr value found)

def collectHirCallTargetsFromArms : List HIRMatchArm → Targets → Targets
  | [], found => found
  | .mk pat guard body :: rest, found =>
    collectHirCallTargetsFromArms rest (collectHirCallTargetsFromExpr body
        (collectHirCallTargetsFromOption guard (collectHirCallTargetsFromPattern pat found)))

def collectHirCallTargetsFromStmt : HIRStmt → Targets → Targets
  | .source _, found | .coverage _, found | .item, found => found
  | .let _ value, found => collectHirCallTargetsFromOption value found
  | .expr value, found => collectHirCallTargetsFromExpr value found

def collectHirCallTargetsFromStmts : List HIRStmt → Targets → Targets
  | [], found => found
  | stmt :: rest, found =>
    collectHirCallTargetsFromStmts rest (collectHirCallTargetsFromStmt stmt found)

def collectHirCallTargetsInBody : HIRBody → Targets → Targets
  | .mk stmts expr, found =>
    collectHirCallTargetsFromOption expr (collectHirCallTargetsFromStmts stmts found)

def collectHirCallTargetsFromElse : Option HIRBody → Targets → Targets
  | none, found => found
  | some body, found => found.addAll (collectHirCallTargetsInBody body .empty).targets

def collectHirCallTargetsFromPattern : HIRPattern → Targets → Targets
  | .wild, found | .lit _, found | .var _, found => found
  | .enumVariant _ fields, found | .struct _ fields, found =>
    collectHirCallTargetsFromFieldPatterns fields found
  | .tuple items, found => collectHirCallTargetsFromPatterns items found
  | .or lhs rhs, found =>
    collectHirCallTargetsFromPattern rhs (collectHirCallTargetsFromPattern lhs found)
  | .slice before rest after, found =>
    collectHirCallTargetsFromPatterns after (collectHirCallTargetsFromOptionPattern rest
        (collectHirCallTargetsFromPatterns before found))
  | .range start stop, found =>
    collectHirCallTargetsFromOption stop (collectHirCallTargetsFromOption start found)
  | .ref inner, found | .refMut inner, found => collectHirCallTargetsFromPattern inner found

def collectHirCallTargetsFromOptionPattern : Option HIRPattern → Targets → Targets
  | none, found => found
  | some pattern, found => collectHirCallTargetsFromPattern pattern found

def collectHirCallTargetsFromPatterns : List HIRPattern → Targets → Targets
  | [], found => found
  | pattern :: rest, found =>
    collectHirCallTargetsFromPatterns rest (collectHirCallTargetsFromPattern pattern found)

def collectHirCallTargetsFromFieldPatterns : List HIRFieldPattern → Targets → Targets
  | [], found => found
  | .mk _ pattern :: rest, found =>
    collectHirCallTargetsFromFieldPatterns rest
      (collectHirCallTargetsFromOptionPattern pattern found)
end

def collectHirCallTargetsFromBody (body : HIRBody) : List Nat :=
  (collectHirCallTargetsInBody index body .empty).targets

variable {index}

/-- The second look at the callee finds nothing new. -/
theorem addCallee_collects {func : HIRExpr} {walk : Targets → Targets} {names : List String}
    (h : Collects index walk names) (hfunc : exprMentions func ⊆ names) :
    Collects index (fun found => addCallee index func (walk found)) names := by
  cases func with
  | var name => exact h.again (.name name) hfunc
  | _ => exact h

mutual
theorem expr_collects : Gathers index collectHirCallTargetsFromExpr exprMentions
  | .lit _ | .continue => .nothing
  | .var name => .name name
  | .unary inner | .cast inner | .ascribe inner | .ref _ inner | .deref inner | .await inner
  | .try inner => expr_collects inner
  | .binary lhs rhs | .and lhs rhs | .or lhs rhs | .index lhs rhs | .assign lhs rhs
  | .assignOp lhs rhs => (expr_collects lhs).andThen (expr_collects rhs)
  | .if cond thenBranch elseBranch =>
    (expr_collects cond).andThen
      ((body_collects thenBranch).separately.andThen (else_collects elseBranch))
  | .match scrutinee arms => (expr_collects scrutinee).andThen (arms_collects arms)
  | .loop body | .block body | .tryBlock body => (body_collects body).separately
  | .while cond body => (expr_collects cond).andThen (body_collects body).separately
  | .for _ iter body => (expr_collects iter).andThen (body_collects body).separately
  | .call func args =>
    addCallee_collects ((expr_collects func).andThen (exprs_collects args))
      (List.subset_append_left _ _)
  | .enumConstruct _ _ args => exprs_collects args
  | .methodCall receiver _ args => (expr_collects receiver).andThen (exprs_collects args)
  | .struct _ fields => fields_collects fields
  | .array items | .tuple items => exprs_collects items
  | .field base _ => expr_collects base
  | .return value | .break value => option_collects value
  | .range start stop _ => (option_collects start).andThen (option_collects stop)
  | .lambda _ body => expr_collects body
  | .asyncBlock body => body_collects body

theorem option_collects : Gathers index collectHirCallTargetsFromOption optionMentions
  | none => .nothing
  | some expr => expr_collects expr

theorem exprs_collects : Gathers index collectHirCallTargetsFromExprs exprsMentions
  | [] => .nothing
  | expr :: rest => (expr_collects expr).andThen (exprs_collects rest)

theorem fields_collects : Gathers index collectHirCallTargetsFromFields fieldsMentions
  | [] => .nothing
  | .mk _ value :: rest => (expr_collects value).andThen (fields_collects rest)

theorem arms_collects : Gathers index collectHirCallTargetsFromArms armsMentions
  | [] => .nothing
  | .mk pat guard body :: rest =>
    (pattern_collects pat).andThen
      ((option_collects guard).andThen ((expr_collects body).andThen (arms_collects rest)))

theorem stmt_collects : Gathers index collectHirCallTargetsFromStmt stmtMentions
  | .source _ | .coverage _ | .item => .nothing
  | .let _ value => option_collects value
  | .expr value => expr_collects value

theorem stmts_collects : Gathers index collectHirCallTargetsFromStmts stmtsMentions
  | [] => .nothing
  | stmt :: rest => (stmt_collects stmt).andThen (stmts_collects rest)

theorem body_collects : Gathers index collectHirCallTargetsInBody bodyMentions
  | .mk stmts expr => (stmts_collects stmts).andThen (option_collects expr)

theorem else_collects : Gathers index collectHirCallTargetsFromElse optionBodyMentions
  | none => .nothing
  | some body => (body_collects body).separately

theorem pattern_collects : Gathers index collectHirCallTargetsFromPattern patternMentions
  | .wild | .lit _ | .var _ => .nothing
  | .enumVariant _ fields | .struct _ fields => fieldPatterns_collects fields
  | .tuple items => patterns_collects items
  | .or lhs rhs => (pattern_collects lhs).andThen (pattern_collects rhs)
  | .slice before rest after =>
    (patterns_collects before).andThen
      ((optionPattern_collects rest).andThen (patterns_collects after))
  | .range start stop => (option_collects start).andThen (option_collects stop)
  | .ref inner | .refMut inner => pattern_collects inner

theorem optionPattern_collects :
    Gathers index collectHirCallTargetsFromOptionPattern optionPatternMentions
  | none => .nothing
  | some pattern => pattern_collects pattern

theorem patterns_collects : Gathers index collectHirCallTargetsFromPatterns patternsMentions
  | [] => .nothing
  | pattern :: rest => (pattern_collects pattern).andThen (patterns_collects rest)

theorem fieldPatterns_collects :
    Gathers index collectHirCallTargetsFromFieldPatterns fieldPatternsMentions
  | [] => .nothing
  | .mk _ pattern :: rest => (optionPattern_collects pattern).andThen (fieldPatterns_collects rest)
end

end Walk

section Prune

def hirFunction? : HIRItem → Option HIRFunction
  | .function function => some function
  | _ => none

/-- The targets of one function: its body, then its contracts. -/
def hirTargets (index : Table String Nat) (function : HIRFunction) : List Nat :=
  let targets := collectHirCallTargetsFromBody index function.body
  (collectHirCallTargetsFromOption index function.postcondition
    (collectHirCallTargetsFromOption index function.precondition (.ofList targets))).targets

/-- A name that the index does not have counts as reachable. -/
def isReachable (index : Table String Nat) (reached : List Nat) (name : String) : Bool :=
  ((index.lookup name).map fun i => decide (i ∈ reached)).getD true

/-- The items that are left and the number of functions removed. -/
def pruneUnreachableHirFunctions (items : List HIRItem) : List HIRItem × Nat :=
  let functions := items.filterMap hirFunction?
  if functions.length ≤ 1 then (items, 0)
  else
    let index := indexByName (functions.map HIRFunction.name)
    match index.lookup "main" with
    | none => (items, 0)
    | some mainIndex =>
      let edges := functions.map (hirTargets index)
      let reached := reachable edges (rootStack index mainIndex asyncHelpers)
      let keep : HIRItem → Bool := fun item =>
        match item with
        | .function function => isReachable index reached function.name
        | _ => true
      (items.filter keep, items.countP fun item => !keep item)

def hirIr : Ir HIRItem HIRFunction where
  function? := hirFunction?
  name := HIRFunction.name
  mentions := itemMentions
  walked := functionMentions
  rootNames := "main" :: asyncHelpers
  indirect := fun _ => false

theorem mem_hirTargets (index : Table String Nat) (function : HIRFunction) (i : Nat) :
    i ∈ hirTargets index function ↔ ∃ name ∈ hirIr.walked function, index.lookup name = some i := by
  have hcontracts : Collects index
      (fun found => collectHirCallTargetsFromOption index function.postcondition
        (collectHirCallTargetsFromOption index function.precondition found)) _ :=
    (option_collects function.precondition).andThen (option_collects function.postcondition)
  exact hcontracts.mem_onto ((body_collects function.body).mem_targets i)

/-- Pruning the module closes it exactly when what its other items mention is met. -/
theorem hir_closed_iff {items : List HIRItem} (hmain : "main" ∈ hirIr.names items) :
    hirIr.Closed items (pruneUnreachableHirFunctions items).1 ↔ hirIr.Covered items := by
  have hlength : (items.filterMap hirFunction?).length = (hirIr.names items).length :=
    (List.length_map _).symm
  by_cases hone : (items.filterMap hirFunction?).length ≤ 1
  · have hsame : pruneUnreachableHirFunctions items = (items, 0) := by
      rw [pruneUnreachableHirFunctions, if_pos hone]
    rw [hsame]
    rw [hlength] at hone
    exact iff_of_true (fun _ _ _ _ => rfl) (Ir.covered_of_single hmain List.mem_cons_self hone)
  · obtain ⟨mainIndex, hlookup⟩ := Ir.lookup_main hmain
    have hindex : (indexByName ((items.filterMap hirFunction?).map HIRFunction.name)).lookup
        "main" = some mainIndex := hlookup
    have hpruned : (pruneUnreachableHirFunctions items).1 =
        items.filter (hirIr.keeps (isReachable (indexByName (hirIr.names items))
          (reachable ((hirIr.functions items).map (hirTargets (indexByName (hirIr.names items))))
            (rootStack (indexByName (hirIr.names items)) mainIndex asyncHelpers)))) := by
      rw [pruneUnreachableHirFunctions, if_neg hone]
      simp only [hindex]
      refine List.filter_congr fun item _ => ?_
      cases item <;> rfl
    rw [hpruned]
    refine Ir.closed_filter_iff fun name hname => ?_
    obtain ⟨i, hi⟩ := exists_resolves hname
    have hi := (lookup_indexByName _ _ _).mpr hi
    have hsearch : hirIr.Searches items _
        (rootStack (indexByName (hirIr.names items)) mainIndex asyncHelpers) :=
      Ir.searches_of_walk rfl hlookup (mem_hirTargets _) fun i => by simp [hirIr]
    rw [isReachable, hi]
    exact decide_eq_true_iff.trans (hsearch.supplied_iff hi)

end Prune

end Sengoo.Sgc.Hir
