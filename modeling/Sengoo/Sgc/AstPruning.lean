import Sengoo.Ast.Syntax
import Sengoo.Sgc.Pruning

/-!
Dropping unreachable functions from the surface program. The walk that looks for
names enters the functions, constants, statics and modules that a function body
declares, but neither the contracts of such a function nor an impl, class, trait
or enum; and it starts from functions only, so nothing outside a top-level
function is walked at all.
-/

namespace Sengoo.Sgc.Ast

open List Sengoo.Ast

section Mentions

/-- A path of one segment names what its segment names. -/
def asSimple : Path → Option String
  | [name] => some name
  | _ => none

/-! The names an expression or declaration uses: with `all` everywhere in it, and
otherwise in the places the walk enters. -/

mutual
def exprMentions (all : Bool) : Expr → List String
  | .literal _ | .continue => []
  | .ident name => [name]
  | .path path => (asSimple path).toList
  | .unary operand | .await operand | .try operand | .paren operand => exprMentions all operand
  | .binary left right | .index left right | .assign left right | .assignOp left right =>
    exprMentions all left ++ exprMentions all right
  | .call func args => exprMentions all func ++ exprsMentions all args
  | .methodCall receiver _ args => exprMentions all receiver ++ exprsMentions all args
  | .block body | .loop body | .asyncBlock body | .parallelBlock body | .tryBlock body =>
    blockMentions all body
  | .if cond thenBranch elseBranch =>
    exprMentions all cond ++ (blockMentions all thenBranch ++ optionMentions all elseBranch)
  | .while cond body => exprMentions all cond ++ blockMentions all body
  | .for iter body => exprMentions all iter ++ blockMentions all body
  | .match scrutinee arms => exprMentions all scrutinee ++ armsMentions all arms
  | .return value | .break value | .yield value => optionMentions all value
  | .field base _ | .cast base | .is base => exprMentions all base
  | .array elements | .tuple elements => exprsMentions all elements
  | .struct _ fields base => fieldsMentions all fields ++ optionMentions all base
  | .range start stop _ => optionMentions all start ++ optionMentions all stop
  | .lambda _ body => exprMentions all body

def optionMentions (all : Bool) : Option Expr → List String
  | none => []
  | some expr => exprMentions all expr

def exprsMentions (all : Bool) : List Expr → List String
  | [] => []
  | expr :: rest => exprMentions all expr ++ exprsMentions all rest

def fieldsMentions (all : Bool) : List FieldValue → List String
  | [] => []
  | .mk _ value :: rest => exprMentions all value ++ fieldsMentions all rest

def armsMentions (all : Bool) : List MatchArm → List String
  | [] => []
  | .mk guard body :: rest =>
    optionMentions all guard ++ (exprMentions all body ++ armsMentions all rest)

def blockMentions (all : Bool) : List Stmt → List String
  | [] => []
  | stmt :: rest => stmtMentions all stmt ++ blockMentions all rest

def stmtMentions (all : Bool) : Stmt → List String
  | .let _ value => optionMentions all value
  | .const _ value | .expr value => exprMentions all value
  | .item decl => declMentions all decl

def functionMentions (all : Bool) : Function → List String
  | .mk _ precondition postcondition body =>
    blockMentions all body ++
      if all then optionMentions all precondition ++ optionMentions all postcondition else []

def functionsMentions (all : Bool) : List Function → List String
  | [] => []
  | function :: rest => functionMentions all function ++ functionsMentions all rest

def variantsMentions (all : Bool) : List EnumVariant → List String
  | [] => []
  | .mk _ discriminant :: rest => optionMentions all discriminant ++ variantsMentions all rest

def membersMentions (all : Bool) : List ClassMember → List String
  | [] => []
  | .field _ :: rest => membersMentions all rest
  | .method function :: rest => functionMentions all function ++ membersMentions all rest

def traitItemsMentions (all : Bool) : List TraitItem → List String
  | [] => []
  | .function function :: rest => functionMentions all function ++ traitItemsMentions all rest
  | .const _ value :: rest => exprMentions all value ++ traitItemsMentions all rest
  | .type _ :: rest => traitItemsMentions all rest

def declMentions (all : Bool) : Decl → List String
  | .function function => functionMentions all function
  | .const _ value | .static _ value => exprMentions all value
  | .module _ items => declsMentions all items
  | .impl items => if all then functionsMentions all items else []
  | .class _ members => if all then membersMentions all members else []
  | .trait _ items => if all then traitItemsMentions all items else []
  | .enum _ variants => if all then variantsMentions all variants else []
  | .struct _ | .typeAlias _ | .import _ | .externBlock _ => []

def declsMentions (all : Bool) : List Decl → List String
  | [] => []
  | decl :: rest => declMentions all decl ++ declsMentions all rest
end

end Mentions

section Walk

variable (index : Table String Nat)

def addPath (path : Path) (found : Targets) : Targets :=
  match asSimple path with
  | some name => found.addName index name
  | none => found

/-- The callee of a call is looked at once more after the arguments. -/
def addCallee (func : Expr) (found : Targets) : Targets :=
  match func with
  | .ident name => found.addName index name
  | .path path => addPath index path found
  | _ => found

mutual
def collectAstCallTargetsFromExpr : Expr → Targets → Targets
  | .literal _, found | .continue, found => found
  | .ident name, found => found.addName index name
  | .path path, found => addPath index path found
  | .unary operand, found | .await operand, found | .try operand, found
  | .paren operand, found => collectAstCallTargetsFromExpr operand found
  | .binary left right, found | .index left right, found | .assign left right, found
  | .assignOp left right, found =>
    collectAstCallTargetsFromExpr right (collectAstCallTargetsFromExpr left found)
  | .call func args, found =>
    addCallee index func
      (collectAstCallTargetsFromExprs args (collectAstCallTargetsFromExpr func found))
  | .methodCall receiver _ args, found =>
    collectAstCallTargetsFromExprs args (collectAstCallTargetsFromExpr receiver found)
  | .block body, found | .loop body, found | .asyncBlock body, found
  | .parallelBlock body, found | .tryBlock body, found =>
    found.addAll (collectAstCallTargetsFromStmts body .empty).targets
  | .if cond thenBranch elseBranch, found =>
    collectAstCallTargetsFromOption elseBranch ((collectAstCallTargetsFromExpr cond found).addAll
        (collectAstCallTargetsFromStmts thenBranch .empty).targets)
  | .while cond body, found =>
    (collectAstCallTargetsFromExpr cond found).addAll
      (collectAstCallTargetsFromStmts body .empty).targets
  | .for iter body, found =>
    (collectAstCallTargetsFromExpr iter found).addAll
      (collectAstCallTargetsFromStmts body .empty).targets
  | .match scrutinee arms, found =>
    collectAstCallTargetsFromArms arms (collectAstCallTargetsFromExpr scrutinee found)
  | .return value, found | .break value, found | .yield value, found =>
    collectAstCallTargetsFromOption value found
  | .field base _, found | .cast base, found | .is base, found =>
    collectAstCallTargetsFromExpr base found
  | .array elements, found | .tuple elements, found =>
    collectAstCallTargetsFromExprs elements found
  | .struct _ fields base, found =>
    collectAstCallTargetsFromOption base (collectAstCallTargetsFromFields fields found)
  | .range start stop _, found =>
    collectAstCallTargetsFromOption stop (collectAstCallTargetsFromOption start found)
  | .lambda _ body, found => collectAstCallTargetsFromExpr body found

def collectAstCallTargetsFromOption : Option Expr → Targets → Targets
  | none, found => found
  | some expr, found => collectAstCallTargetsFromExpr expr found

def collectAstCallTargetsFromExprs : List Expr → Targets → Targets
  | [], found => found
  | expr :: rest, found =>
    collectAstCallTargetsFromExprs rest (collectAstCallTargetsFromExpr expr found)

def collectAstCallTargetsFromFields : List FieldValue → Targets → Targets
  | [], found => found
  | .mk _ value :: rest, found =>
    collectAstCallTargetsFromFields rest (collectAstCallTargetsFromExpr value found)

def collectAstCallTargetsFromArms : List MatchArm → Targets → Targets
  | [], found => found
  | .mk guard body :: rest, found =>
    collectAstCallTargetsFromArms rest
      (collectAstCallTargetsFromExpr body (collectAstCallTargetsFromOption guard found))

def collectAstCallTargetsFromStmts : List Stmt → Targets → Targets
  | [], found => found
  | stmt :: rest, found =>
    collectAstCallTargetsFromStmts rest (collectAstCallTargetsFromStmt stmt found)

def collectAstCallTargetsFromStmt : Stmt → Targets → Targets
  | .let _ value, found => collectAstCallTargetsFromOption value found
  | .const _ value, found | .expr value, found => collectAstCallTargetsFromExpr value found
  | .item decl, found => collectAstCallTargetsFromDecl decl found

def collectAstCallTargetsFromDecl : Decl → Targets → Targets
  | .function (.mk _ _ _ body), found =>
    found.addAll (collectAstCallTargetsFromStmts body .empty).targets
  | .const _ value, found | .static _ value, found => collectAstCallTargetsFromExpr value found
  | .module _ items, found => collectAstCallTargetsFromDecls items found
  | _, found => found

def collectAstCallTargetsFromDecls : List Decl → Targets → Targets
  | [], found => found
  | decl :: rest, found =>
    collectAstCallTargetsFromDecls rest (collectAstCallTargetsFromDecl decl found)
end

def collectAstCallTargetsFromBlock (block : List Stmt) : List Nat :=
  (collectAstCallTargetsFromStmts index block .empty).targets

variable {index}

theorem addPath_collects (path : Path) :
    Collects index (addPath index path) (asSimple path).toList := by
  unfold addPath
  cases asSimple path with
  | none => exact .nothing
  | some name => exact .name name

/-- The second look at the callee finds nothing new. -/
theorem addCallee_collects {func : Expr} {walk : Targets → Targets} {names : List String}
    (h : Collects index walk names) (hfunc : exprMentions false func ⊆ names) :
    Collects index (fun found => addCallee index func (walk found)) names := by
  cases func with
  | ident name => exact h.again (.name name) hfunc
  | path path => exact h.again (addPath_collects path) hfunc
  | _ => exact h

mutual
theorem expr_collects : Gathers index collectAstCallTargetsFromExpr (exprMentions false)
  | .literal _ | .continue => .nothing
  | .ident name => .name name
  | .path path => addPath_collects path
  | .unary operand | .await operand | .try operand | .paren operand => expr_collects operand
  | .binary left right | .index left right | .assign left right | .assignOp left right =>
    (expr_collects left).andThen (expr_collects right)
  | .call func args =>
    addCallee_collects ((expr_collects func).andThen (exprs_collects args))
      (subset_append_left _ _)
  | .methodCall receiver _ args => (expr_collects receiver).andThen (exprs_collects args)
  | .block body | .loop body | .asyncBlock body | .parallelBlock body | .tryBlock body =>
    (stmts_collects body).separately
  | .if cond thenBranch elseBranch =>
    (expr_collects cond).andThen
      ((stmts_collects thenBranch).separately.andThen (option_collects elseBranch))
  | .while cond body => (expr_collects cond).andThen (stmts_collects body).separately
  | .for iter body => (expr_collects iter).andThen (stmts_collects body).separately
  | .match scrutinee arms => (expr_collects scrutinee).andThen (arms_collects arms)
  | .return value | .break value | .yield value => option_collects value
  | .field base _ | .cast base | .is base => expr_collects base
  | .array elements | .tuple elements => exprs_collects elements
  | .struct _ fields base => (fields_collects fields).andThen (option_collects base)
  | .range start stop _ => (option_collects start).andThen (option_collects stop)
  | .lambda _ body => expr_collects body

theorem option_collects : Gathers index collectAstCallTargetsFromOption (optionMentions false)
  | none => .nothing
  | some expr => expr_collects expr

theorem exprs_collects : Gathers index collectAstCallTargetsFromExprs (exprsMentions false)
  | [] => .nothing
  | expr :: rest => (expr_collects expr).andThen (exprs_collects rest)

theorem fields_collects : Gathers index collectAstCallTargetsFromFields (fieldsMentions false)
  | [] => .nothing
  | .mk _ value :: rest => (expr_collects value).andThen (fields_collects rest)

theorem arms_collects : Gathers index collectAstCallTargetsFromArms (armsMentions false)
  | [] => .nothing
  | .mk guard body :: rest =>
    (option_collects guard).andThen ((expr_collects body).andThen (arms_collects rest))

theorem stmts_collects : Gathers index collectAstCallTargetsFromStmts (blockMentions false)
  | [] => .nothing
  | stmt :: rest => (stmt_collects stmt).andThen (stmts_collects rest)

theorem stmt_collects : Gathers index collectAstCallTargetsFromStmt (stmtMentions false)
  | .let _ value => option_collects value
  | .const _ value | .expr value => expr_collects value
  | .item decl => decl_collects decl

theorem decl_collects : Gathers index collectAstCallTargetsFromDecl (declMentions false)
  | .function (.mk _ precondition postcondition body) => by
    have hbody := (stmts_collects body).separately
    rw [← append_nil (blockMentions false body)] at hbody
    exact hbody
  | .const _ value | .static _ value => expr_collects value
  | .module _ items => decls_collects items
  | .impl _ | .class _ _ | .trait _ _ | .enum _ _ => .nothing
  | .struct _ | .typeAlias _ | .import _ | .externBlock _ => .nothing

theorem decls_collects : Gathers index collectAstCallTargetsFromDecls (declsMentions false)
  | [] => .nothing
  | decl :: rest => (decl_collects decl).andThen (decls_collects rest)
end

end Walk

section Prune

def astFunction? : Decl → Option Function
  | .function function => some function
  | _ => none

def astFunctionCount (program : Program) : Nat :=
  program.decls.countP fun decl => (astFunction? decl).isSome

/-- The targets of one function: its body, then its contracts. -/
def astTargets (index : Table String Nat) (function : Function) : List Nat :=
  let targets := collectAstCallTargetsFromBlock index function.body
  (collectAstCallTargetsFromOption index function.postcondition
    (collectAstCallTargetsFromOption index function.precondition (.ofList targets))).targets

/-- The names of the functions at the marked positions. -/
def namesAt (functions : List Function) (reached : List Nat) : List String :=
  functions.zipIdx.filterMap fun entry =>
    if entry.2 ∈ reached then some entry.1.name else none

def reachableAstFunctionNames (program : Program) : Option (List String) :=
  let functions := program.decls.filterMap astFunction?
  if functions.isEmpty then some []
  else
    let index := indexByName (functions.map Function.name)
    match index.lookup "main" with
    | none => none
    | some mainIndex =>
      let edges := functions.map (astTargets index)
      some (namesAt functions (reachable edges (rootStack index mainIndex asyncHelpers)))

/-- The program that is left and the number of functions removed. -/
def pruneAstFunctionsByNameSet (program : Program) (keepNames : List String) : Program × Nat :=
  let keep : Decl → Bool := fun decl =>
    match decl with
    | .function function => keepNames.contains function.name
    | _ => true
  (⟨program.decls.filter keep⟩, program.decls.countP fun decl => !keep decl)

def pruneUnreachableAstFunctions (program : Program) : Program × Nat :=
  if astFunctionCount program ≤ 1 then (program, 0)
  else
    match reachableAstFunctionNames program with
    | none => (program, 0)
    | some keepNames => pruneAstFunctionsByNameSet program keepNames

/-- The surface program, with what is named anywhere in a declaration. -/
def astIr : Ir Decl Function where
  function? := astFunction?
  name := Function.name
  mentions := declMentions true
  walked := fun function =>
    blockMentions false function.body ++
      (optionMentions false function.precondition ++ optionMentions false function.postcondition)
  rootNames := "main" :: asyncHelpers
  indirect := fun _ => false

theorem mem_astTargets (index : Table String Nat) (function : Function) (i : Nat) :
    i ∈ astTargets index function ↔ ∃ name ∈ astIr.walked function, index.lookup name = some i := by
  have hcontracts : Collects index
      (fun found => collectAstCallTargetsFromOption index function.postcondition
        (collectAstCallTargetsFromOption index function.precondition found)) _ :=
    (option_collects function.precondition).andThen (option_collects function.postcondition)
  exact hcontracts.mem_onto ((stmts_collects function.body).mem_targets i)

theorem astFunctionCount_eq (program : Program) :
    astFunctionCount program = (astIr.names program.decls).length := by
  unfold astFunctionCount Ir.names Ir.functions
  rw [length_map, length_filterMap_eq_countP]
  rfl

variable {program : Program}

theorem mem_namesAt {functions : List Function} {reached : List Nat} {name : String} :
    name ∈ namesAt functions reached ↔
      ∃ i ∈ reached, (functions.map Function.name)[i]? = some name := by
  simp only [namesAt, mem_filterMap, Prod.exists, mem_zipIdx_iff_getElem?, getElem?_map,
    Option.map_eq_some_iff, Option.ite_none_right_eq_some, Option.some.injEq]
  constructor
  · rintro ⟨f, i, hat, hi, hname⟩
    exact ⟨i, hi, f, hat, hname⟩
  · rintro ⟨i, hi, f, hat, hname⟩
    exact ⟨f, i, hat, hi, hname⟩

/-- The names kept are those of the functions met. -/
theorem exists_reachableAstFunctionNames
    (hmain : "main" ∈ astIr.names program.decls) :
    ∃ keepNames, reachableAstFunctionNames program = some keepNames ∧
      ∀ name, name ∈ keepNames ↔ astIr.Supplied program.decls name := by
  obtain ⟨mainIndex, hlookup⟩ := Ir.lookup_main hmain
  have hnonempty : (program.decls.filterMap astFunction?).isEmpty = false := by
    cases hfunctions : program.decls.filterMap astFunction? with
    | nil => simp [Ir.names, Ir.functions, astIr, hfunctions] at hmain
    | cons => rfl
  have hindex : (indexByName ((program.decls.filterMap astFunction?).map Function.name)).lookup
      "main" = some mainIndex := hlookup
  refine ⟨namesAt (astIr.functions program.decls)
    (reachable ((astIr.functions program.decls).map (astTargets (indexByName (astIr.names program.decls))))
      (rootStack (indexByName (astIr.names program.decls)) mainIndex asyncHelpers)), ?_, fun name => ?_⟩
  · unfold reachableAstFunctionNames
    simp only [hnonempty, hindex]
    rfl
  · have hsearch : astIr.Searches program.decls _
        (rootStack (indexByName (astIr.names program.decls)) mainIndex asyncHelpers) :=
      Ir.searches_of_walk rfl hlookup (mem_astTargets _) fun i => by simp [astIr]
    rw [mem_namesAt]
    simp only [hsearch.mem_reachable]
    constructor
    · rintro ⟨i, hreached, hat⟩
      exact ⟨i, hreached.resolves (fun _ => rfl) hat, hreached⟩
    · rintro ⟨i, hresolves, hreached⟩
      exact ⟨i, hreached, hresolves.1⟩

/-- Pruning the surface program closes it exactly when what is mentioned outside the
walk is met anyway. -/
theorem ast_closed_iff (hmain : "main" ∈ astIr.names program.decls) :
    astIr.Closed program.decls (pruneUnreachableAstFunctions program).1.decls ↔
      astIr.Covered program.decls := by
  by_cases hone : astFunctionCount program ≤ 1
  · have hsame : pruneUnreachableAstFunctions program = (program, 0) := by
      rw [pruneUnreachableAstFunctions, if_pos hone]
    rw [hsame]
    rw [astFunctionCount_eq] at hone
    exact iff_of_true (fun _ _ _ _ => rfl) (Ir.covered_of_single hmain mem_cons_self hone)
  · obtain ⟨keepNames, hnames, hkeep⟩ := exists_reachableAstFunctionNames hmain
    have hpruned : (pruneUnreachableAstFunctions program).1.decls =
        program.decls.filter (astIr.keeps keepNames.contains) := by
      rw [pruneUnreachableAstFunctions, if_neg hone, hnames]
      refine filter_congr fun decl _ => ?_
      cases decl <;> rfl
    rw [hpruned]
    refine Ir.closed_filter_iff fun name _ => ?_
    rw [contains_iff_mem, hkeep]

end Prune

end Sengoo.Sgc.Ast
