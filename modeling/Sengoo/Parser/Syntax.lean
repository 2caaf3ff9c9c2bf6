import Mathlib.Data.BitVec

/-!
The tokens the expression parser reads and the expressions and types it
builds. Spans are left out. The type parameter stands for what the parsers of
the other constructs return: blocks, control flow, lambdas, struct literals
and f-strings among the expressions, trait bounds among the types.
-/

namespace Sengoo.Parser

/-- The token kinds the parsers below tell apart; a number carries its
spelling, and every kind they never mention is `other`. -/
inductive Token where
  | ident (name : String)
  | int (value : Option UInt64) (raw : List Char)
  | float (bits : Option UInt64) (raw : List Char)
  | invalidNumber (raw : List Char)
  | string (value : Option String)
  | char (value : Option Char)
  | fString
  | trueKw | falseKw | nullKw
  | ifKw | whileKw | forKw | loopKw | matchKw | tryKw | returnKw | breakKw | continueKw
  | yieldKw | awaitKw | asyncKw | parallelKw | defaultKw | selfKw | selfLowerKw
  | fnKw | dynKw | mutKw | constKw | asKw | notKw | andKw | orKw
  | plus | minus | star | slash | percent
  | bitAnd | bitOr | bitXor | shl | shr | bitNot
  | and | or | not
  | eq | notEq | lt | gt | le | ge
  | assign | addAssign | subAssign | mulAssign | divAssign | modAssign
  | bitAndAssign | bitOrAssign | bitXorAssign | shlAssign | shrAssign
  | lParen | rParen | lBrace | rBrace | lBracket | rBracket
  | colonColon | semicolon | comma | dot | dotDot | arrow | question | underscore
  | other (text : String)
deriving DecidableEq

/-- The binary operators that have a token of their own in the parser; the
pipe, composition and reserved range operators have none. -/
inductive BinOp where
  | add | sub | mul | div | mod
  | bitAnd | bitOr | bitXor | shl | shr
  | and | or
  | eq | notEq | lt | le | gt | ge
deriving DecidableEq

/-- The prefix operators `parse_prefix` builds. -/
inductive UnOp where
  | neg | not | bitNot | deref | ref | refMut
deriving DecidableEq

/-- The compound assignments `parse_infix` builds. The bitwise ones have a
token and no precedence in the table, so no expression contains one. -/
inductive AssignOp where
  | addAssign | subAssign | mulAssign | divAssign | modAssign
deriving DecidableEq

/-- The literals of expressions; a float is its bit pattern. -/
inductive Literal where
  | int (value : Int64)
  | uint (value : UInt64)
  | float (bits : UInt64)
  | string (value : String)
  | char (value : Char)
  | bool (value : Bool)
  | null
deriving DecidableEq

inductive Ty (β : Type) where
  | path (segments : List String)
  | pathWithArgs (segments : List String) (args : List (Ty β))
  | tuple (types : List (Ty β))
  | array (elem : Ty β) (length : UInt64)
  | slice (elem : Ty β)
  | ptr (base : Ty β) (isMut : Bool)
  | ref (base : Ty β) (isMut : Bool)
  | fn (params : List (Ty β)) (ret : Option (Ty β))
  | dyn (bounds : β)
  | never
  | infer
  | selfType

inductive Expr (β : Type) where
  | literal (value : Literal)
  | ident (name : String)
  | path (segments : List String)
  | binary (op : BinOp) (left right : Expr β)
  | unary (op : UnOp) (operand : Expr β)
  | call (func : Expr β) (args : List (Expr β))
  | methodCall (receiver : Expr β) (method : String) (args : List (Expr β))
  | index (base index : Expr β)
  | field (base : Expr β) (field : String)
  | tuple (elements : List (Expr β))
  | array (elements : List (Expr β))
  | assign (target value : Expr β)
  | assignOp (op : AssignOp) (target value : Expr β)
  | range (start stop : Option (Expr β)) (inclusive : Bool)
  | try (expr : Expr β)
  | cast (expr : Expr β) (ty : Ty β)
  | await (expr : Expr β)
  | paren (expr : Expr β)
  | return (value : Option (Expr β))
  | break (value : Option (Expr β))
  | continue
  | yield (value : Option (Expr β))
  | other (value : β)

/-- The errors of the parsers below. `outOfFuel` is the budget of the model
and no error of the source. -/
inductive ParseError where
  | unexpectedTokenInExpression
  | unexpectedTokenInInfix
  | unexpectedEof
  | unexpectedToken (expected : Token) (found : Option Token)
  | expectedIdentifier
  | expectedArrayLength
  | expectedType
  | invalidNumber (raw : List Char)
  | exceedsRange (raw : List Char) (display : String)
  | exceedsI64
  | outside (message : String)
  | outOfFuel
deriving DecidableEq

/-- What the parser reads from: the tokens still to come, and the half of a
`>>` that closed one list of type arguments and may close another. -/
structure Cursor where
  tokens : List Token
  pendingTypeArgGt : Nat
deriving DecidableEq

namespace Cursor

def current (c : Cursor) : Option Token := c.tokens.head?

def advance (c : Cursor) : Cursor := { c with tokens := c.tokens.tail }

def check (c : Cursor) (kind : Token) : Bool := c.current = some kind

def checkPeek (c : Cursor) (kind : Token) : Bool := c.advance.current = some kind

def isEof (c : Cursor) : Bool := c.tokens.isEmpty

def consume (c : Cursor) (kind : Token) : Option Cursor :=
  if c.check kind then some c.advance else none

def expect (c : Cursor) (kind : Token) : Except ParseError Cursor :=
  match c.consume kind with
  | some c => .ok c
  | none => .error (.unexpectedToken kind c.current)

def expectIdent (c : Cursor) : Except ParseError (String × Cursor) :=
  match c.current with
  | some (.ident name) => .ok (name, c.advance)
  | some .selfLowerKw => .ok ("self", c.advance)
  | some .defaultKw => .ok ("default", c.advance)
  | _ => .error .expectedIdentifier

end Cursor

end Sengoo.Parser
