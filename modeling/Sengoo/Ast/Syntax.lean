import Sengoo.Ast.Pattern

/-!
The surface syntax as the passes over whole programs walk it: expressions,
statements and declarations with the names they use. A block is the list of its
statements. Operators, types, patterns, visibility and source positions are left
out, since no walk over names reads them.
-/

namespace Sengoo.Ast

mutual
inductive Expr where
  | literal (value : Literal)
  | ident (name : String)
  | path (path : Path)
  | binary (left right : Expr)
  | unary (operand : Expr)
  | call (func : Expr) (args : List Expr)
  | methodCall (receiver : Expr) (method : String) (args : List Expr)
  | block (body : List Stmt)
  | if (cond : Expr) (thenBranch : List Stmt) (elseBranch : Option Expr)
  | while (cond : Expr) (body : List Stmt)
  | for (iter : Expr) (body : List Stmt)
  | loop (body : List Stmt)
  | match (scrutinee : Expr) (arms : List MatchArm)
  | return (value : Option Expr)
  | break (value : Option Expr)
  | continue
  | yield (value : Option Expr)
  | await (operand : Expr)
  | asyncBlock (body : List Stmt)
  | parallelBlock (body : List Stmt)
  | index (base index : Expr)
  | field (base : Expr) (field : String)
  | array (elements : List Expr)
  | tuple (elements : List Expr)
  | struct (path : Path) (fields : List FieldValue) (base : Option Expr)
  | assign (target value : Expr)
  | assignOp (target value : Expr)
  | range (start stop : Option Expr) (inclusive : Bool)
  | lambda (params : List String) (body : Expr)
  | try (operand : Expr)
  | tryBlock (body : List Stmt)
  | cast (expr : Expr)
  | is (expr : Expr)
  | paren (expr : Expr)

inductive FieldValue where
  | mk (name : String) (value : Expr)

inductive MatchArm where
  | mk (guard : Option Expr) (body : Expr)

inductive Stmt where
  | let (name : String) (value : Option Expr)
  | const (name : String) (value : Expr)
  | expr (value : Expr)
  | item (decl : Decl)

inductive Function where
  | mk (name : String) (precondition postcondition : Option Expr) (body : List Stmt)

inductive EnumVariant where
  | mk (name : String) (discriminant : Option Expr)

inductive ClassMember where
  | field (name : String)
  | method (function : Function)

inductive TraitItem where
  | function (function : Function)
  | const (name : String) (value : Expr)
  | type (name : String)

inductive Decl where
  | function (function : Function)
  | struct (name : String)
  | enum (name : String) (variants : List EnumVariant)
  | class (name : String) (members : List ClassMember)
  | trait (name : String) (items : List TraitItem)
  | impl (items : List Function)
  | typeAlias (name : String)
  | const (name : String) (value : Expr)
  | static (name : String) (value : Expr)
  | import (path : Path)
  | externBlock (abi : String)
  | module (name : String) (items : List Decl)
end

structure Program where
  decls : List Decl

namespace Function

def name : Function → String
  | .mk name _ _ _ => name

def precondition : Function → Option Expr
  | .mk _ precondition _ _ => precondition

def postcondition : Function → Option Expr
  | .mk _ _ postcondition _ => postcondition

def body : Function → List Stmt
  | .mk _ _ _ body => body

end Function

end Sengoo.Ast
