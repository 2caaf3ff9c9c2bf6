import Sengoo.Parser.Syntax

/-!
The expression parser: `parse_expr_prec` with `parse_prefix`, `parse_infix`
and the precedence table, number literals, paths and types. The parsers of
blocks, control flow, lambdas, struct literals, f-strings and trait bounds are
a parameter. The functions that call each other carry a budget of nested
calls, which the source does not have.
-/

namespace Sengoo.Parser

@[simp] def precAssign : Nat := 1
@[simp] def precOr : Nat := 2
@[simp] def precAnd : Nat := 3
@[simp] def precCompare : Nat := 4
@[simp] def precBitOr : Nat := 5
@[simp] def precBitXor : Nat := 6
@[simp] def precBitAnd : Nat := 7
@[simp] def precShift : Nat := 8
@[simp] def precAdd : Nat := 9
@[simp] def precMul : Nat := 10
@[simp] def precCast : Nat := 11
@[simp] def precUnary : Nat := 11
@[simp] def precCall : Nat := 12
@[simp] def precPostfix : Nat := 13

def getInfixPrecedence : Token → Nat
  | .assign | .addAssign | .subAssign | .mulAssign | .divAssign | .modAssign => precAssign
  | .or | .orKw => precOr
  | .and | .andKw => precAnd
  | .eq | .notEq | .lt | .le | .gt | .ge => precCompare
  | .bitOr => precBitOr
  | .bitXor => precBitXor
  | .bitAnd => precBitAnd
  | .shl | .shr => precShift
  | .plus | .minus => precAdd
  | .star | .slash | .percent => precMul
  | .dot | .lBracket | .lParen => precCall
  | .question => precPostfix
  | .asKw => precCast
  | .dotDot => precOr
  | _ => 0

/-- The precedence of the next token; nothing follows at the end. -/
def Cursor.nextPrec (c : Cursor) : Nat :=
  match c.current with
  | some token => getInfixPrecedence token
  | none => 0

/-- The operator of a token for which `parse_infix` reads a right operand at
the operator's own precedence. -/
def Token.binOp? : Token → Option BinOp
  | .plus => some .add
  | .minus => some .sub
  | .star => some .mul
  | .slash => some .div
  | .percent => some .mod
  | .bitAnd => some .bitAnd
  | .bitOr => some .bitOr
  | .bitXor => some .bitXor
  | .shl => some .shl
  | .shr => some .shr
  | .and | .andKw => some .and
  | .or | .orKw => some .or
  | .eq => some .eq
  | .notEq => some .notEq
  | .lt => some .lt
  | .le => some .le
  | .gt => some .gt
  | .ge => some .ge
  | _ => none

/-- The compound assignment of a token `parse_infix` knows. -/
def Token.assignOp? : Token → Option AssignOp
  | .addAssign => some .addAssign
  | .subAssign => some .subAssign
  | .mulAssign => some .mulAssign
  | .divAssign => some .divAssign
  | .modAssign => some .modAssign
  | _ => none

/-- The operator of a prefix token other than `-`, `&` and `await`. -/
def Token.unOp? : Token → Option UnOp
  | .not | .notKw => some .not
  | .bitNot => some .bitNot
  | .star => some .deref
  | _ => none

/-- `check_expr`. It lists the token of `&&` and not that of `&`. -/
def Cursor.checkExpr (c : Cursor) : Bool :=
  match c.current with
  | some (.int _ _) | some (.float _ _) | some (.string _) | some (.char _)
  | some .trueKw | some .falseKw | some .nullKw | some (.ident _) | some .selfLowerKw
  | some .lParen | some .lBrace | some .lBracket | some .ifKw | some .whileKw | some .forKw
  | some .loopKw | some .matchKw | some .returnKw | some .breakKw | some .continueKw
  | some .yieldKw | some .awaitKw | some .asyncKw | some .parallelKw | some .minus | some .not
  | some .notKw | some .bitNot | some .and | some .star => true
  | _ => false

/-- The constructs whose parsers are not part of the model. -/
inductive Construct where
  | block | ifExpr | whileExpr | forExpr | loopExpr | matchExpr | tryBlock | lambda
  | asyncBlock | parallelBlock | fString
  | structLiteral (path : List String)

/-- The construct a token in prefix position starts. -/
def Token.construct? : Token → Option Construct
  | .lBrace => some .block
  | .ifKw => some .ifExpr
  | .whileKw => some .whileExpr
  | .forKw => some .forExpr
  | .loopKw => some .loopExpr
  | .matchKw => some .matchExpr
  | .tryKw => some .tryBlock
  | .bitOr => some .lambda
  | .asyncKw => some .asyncBlock
  | .parallelKw => some .parallelBlock
  | .fString => some .fString
  | _ => none

/-- What the expression parser is given from outside. -/
structure Env (β : Type) where
  targetPointerWidth : Nat
  inConditionContext : Bool
  construct : Construct → Cursor → Except ParseError (Expr β × Cursor)
  traitBounds : Cursor → Except ParseError (β × Cursor)

/-! ### Number literals -/

def numericSuffixes : List String :=
  ["isize", "usize", "i64", "i32", "i16", "i8", "u64", "u32", "u16", "u8", "f64", "f32"]

def numericLiteralSuffix (raw : List Char) : Option String :=
  numericSuffixes.find? fun suffix => suffix.toList.isSuffixOf raw

/-- The name, the signedness and the width an integer literal is checked
against; a float suffix is not checked. -/
def literalRange (targetPointerWidth : Nat) : Option String → Option (String × Bool × Nat)
  | none => some ("i64", true, 64)
  | some "i8" => some ("i8", true, 8)
  | some "i16" => some ("i16", true, 16)
  | some "i32" => some ("i32", true, 32)
  | some "i64" => some ("i64", true, 64)
  | some "isize" => some ("isize", true, targetPointerWidth)
  | some "u8" => some ("u8", false, 8)
  | some "u16" => some ("u16", false, 16)
  | some "u32" => some ("u32", false, 32)
  | some "u64" => some ("u64", false, 64)
  | some "usize" => some ("usize", false, targetPointerWidth)
  | some _ => none

def validateIntegerLiteralRange (targetPointerWidth : Nat) (value : UInt64)
    (suffix : Option String) (negative : Bool) (raw : List Char) : Except ParseError Unit :=
  match literalRange targetPointerWidth suffix with
  | none => .ok ()
  | some (display, signed, bits) =>
    let max :=
      if signed then
        if negative then 2 ^ (bits - 1) else 2 ^ (bits - 1) - 1
      else 2 ^ bits - 1
    if value.toNat ≤ max then .ok () else .error (.exceedsRange raw display)

/-- A suffix makes the literal a cast to the type it names. -/
def numericLiteralExpr {β : Type} (literal : Literal) (suffix : Option String) : Expr β :=
  match suffix with
  | none => .literal literal
  | some suffix => .cast (.literal literal) (.path [suffix])

def unsignedSuffixes : List String := ["usize", "u64", "u32", "u16", "u8"]

def integerLiteralExpr {β : Type} (targetPointerWidth : Nat) (value : UInt64)
    (raw : List Char) : Except ParseError (Expr β) := do
  let suffix := numericLiteralSuffix raw
  validateIntegerLiteralRange targetPointerWidth value suffix false raw
  if suffix.any (unsignedSuffixes.contains ·) then
    pure (numericLiteralExpr (.uint value) suffix)
  else if value.toNat < 2 ^ 63 then
    pure (numericLiteralExpr (.int (Int64.ofNat value.toNat)) suffix)
  else .error .exceedsI64

/-- `parse_negative_integer_literal`, called behind a `-`: an integer that is
neither unsigned nor a float takes the sign into the literal. -/
def parseNegativeIntegerLiteral {β : Type} (targetPointerWidth : Nat) (c : Cursor) :
    Except ParseError (Option (Expr β × Cursor)) :=
  match c.current with
  | some (.int (some value) raw) =>
    let suffix := numericLiteralSuffix raw
    if suffix.any ((unsignedSuffixes ++ ["f32", "f64"]).contains ·) then .ok none
    else do
      validateIntegerLiteralRange targetPointerWidth value suffix true raw
      pure (some (numericLiteralExpr (.int (Int64.ofInt (-(value.toNat : Int)))) suffix, c.advance))
  | _ => .ok none

/-! ### Paths and types -/

def pathSegment : Token → Option String
  | .ident name => some name
  | .asyncKw => some "async"
  | .defaultKw => some "default"
  | .selfKw => some "Self"
  | _ => none

/-- The loop of `parse_path`: segments as long as `::` follows them. -/
def pathSegments : List Token → List String × List Token
  | [] => ([], [])
  | token :: .colonColon :: rest =>
    match pathSegment token with
    | none => ([], token :: .colonColon :: rest)
    | some segment => (segment :: (pathSegments rest).1, (pathSegments rest).2)
  | token :: rest =>
    match pathSegment token with
    | none => ([], token :: rest)
    | some segment => ([segment], rest)

def parsePath (c : Cursor) : Except ParseError (List String × Cursor) :=
  match pathSegments c.tokens with
  | ([], _) => .error .expectedIdentifier
  | (segments, rest) => .ok (segments, { c with tokens := rest })

/-- `consume_type_arg_end`: a `>>` closes two lists. -/
def consumeTypeArgEnd (c : Cursor) : Option Cursor :=
  if 0 < c.pendingTypeArgGt then
    some { c with pendingTypeArgGt := c.pendingTypeArgGt - 1 }
  else
    match c.consume .gt with
    | some c => some c
    | none =>
      match c.consume .shr with
      | some c => some { c with pendingTypeArgGt := c.pendingTypeArgGt + 1 }
      | none => none

section

variable {β : Type} (env : Env β)

mutual

def parseType : Nat → Cursor → Except ParseError (Ty β × Cursor)
  | 0, _ => .error .outOfFuel
  | fuel + 1, c => do
      let (kind, c) ← parseTypePrimary fuel c
      match c.consume .lt with
      | none => pure (kind, c)
      | some c =>
        match kind with
        | .path segments => do
            let (args, c) ← parseTypeArgs fuel c
            pure (.pathWithArgs segments args, c)
        | _ => .error .expectedType

def parseTypeArgs : Nat → Cursor → Except ParseError (List (Ty β) × Cursor)
  | 0, _ => .error .outOfFuel
  | fuel + 1, c =>
    match consumeTypeArgEnd c with
    | some c => .ok ([], c)
    | none => parseTypeArgList fuel c

/-- The loop of `parse_type_args`. -/
def parseTypeArgList : Nat → Cursor → Except ParseError (List (Ty β) × Cursor)
  | 0, _ => .error .outOfFuel
  | fuel + 1, c => do
      let (arg, c) ← parseType fuel c
      match consumeTypeArgEnd c with
      | some c => pure ([arg], c)
      | none =>
        match c.consume .comma with
        | some c => do
            let (args, c) ← parseTypeArgList fuel c
            pure (arg :: args, c)
        | none => .error .expectedType

def parseTypePrimary : Nat → Cursor → Except ParseError (Ty β × Cursor)
  | 0, _ => .error .outOfFuel
  | fuel + 1, c =>
    match c.current with
    | none => .error .unexpectedEof
    | some .lParen => do
        let (types, c) ← parseTupleTypes fuel c.advance
        pure (.tuple types, c)
    | some .lBracket => do
        let (elem, c) ← parseType fuel c.advance
        match c.consume .semicolon with
        | none => do
            let c ← c.expect .rBracket
            pure (.slice elem, c)
        | some c =>
          match c.current with
          | none => .error .unexpectedEof
          | some (.int (some length) _) => do
              let c ← c.advance.expect .rBracket
              pure (.array elem length, c)
          | some _ => .error .expectedArrayLength
    | some .star => do
        let (isMut, c) := match c.advance.consume .mutKw with
          | some c => (true, c)
          | none => (false, c.advance)
        let c := (c.consume .constKw).getD c
        let (base, c) ← parseType fuel c
        pure (.ptr base isMut, c)
    | some .bitAnd => do
        let (isMut, c) := match c.advance.consume .mutKw with
          | some c => (true, c)
          | none => (false, c.advance)
        let (base, c) ← parseType fuel c
        pure (.ref base isMut, c)
    | some .fnKw => do
        let c ← c.advance.expect .lParen
        let (params, c) ← parseParamTypes fuel c
        match c.consume .arrow with
        | none => pure (.fn params none, c)
        | some c => do
            let (ret, c) ← parseType fuel c
            pure (.fn params (some ret), c)
    | some .dynKw => do
        let (bounds, c) ← env.traitBounds c.advance
        pure (.dyn bounds, c)
    | some .not => .ok (.never, c.advance)
    | some .underscore => .ok (.infer, c.advance)
    | some .selfKw =>
      if c.checkPeek .colonColon then do
        let (segments, c) ← parsePath c
        pure (.path segments, c)
      else .ok (.selfType, c.advance)
    | some (.ident _) => do
        let (segments, c) ← parsePath c
        pure (.path segments, c)
    | some _ => .error .expectedType

/-- The loop of a tuple type, which also ends where the tokens do. -/
def parseTupleTypes : Nat → Cursor → Except ParseError (List (Ty β) × Cursor)
  | 0, _ => .error .outOfFuel
  | fuel + 1, c =>
    if c.isEof then .ok ([], c)
    else
      match c.consume .rParen with
      | some c => .ok ([], c)
      | none => do
          let (first, c) ← parseType fuel c
          match c.consume .comma with
          | some c => do
              let (types, c) ← parseTupleTypes fuel c
              pure (first :: types, c)
          | none => do
              let c ← c.expect .rParen
              pure ([first], c)

/-- The parameters of a function type; the commas between them are optional. -/
def parseParamTypes : Nat → Cursor → Except ParseError (List (Ty β) × Cursor)
  | 0, _ => .error .outOfFuel
  | fuel + 1, c =>
    if c.isEof then .ok ([], c)
    else
      match c.consume .rParen with
      | some c => .ok ([], c)
      | none => do
          let (first, c) ← parseType fuel c
          let (types, c) ← parseParamTypes fuel ((c.consume .comma).getD c)
          pure (first :: types, c)

end

/-! ### Expressions -/

mutual

def parseExprPrec : Nat → Nat → Cursor → Except ParseError (Expr β × Cursor)
  | 0, _, _ => .error .outOfFuel
  | fuel + 1, precedence, c => do
      let (left, c) ← parsePrefix fuel c
      infixLoop fuel precedence left c

/-- The loop of `parse_expr_prec`. -/
def infixLoop : Nat → Nat → Expr β → Cursor → Except ParseError (Expr β × Cursor)
  | 0, _, _, _ => .error .outOfFuel
  | fuel + 1, precedence, left, c =>
    if c.nextPrec ≤ precedence then .ok (left, c)
    else do
      let (left, c) ← parseInfix fuel left c.nextPrec c
      infixLoop fuel precedence left c

def parsePrefix : Nat → Cursor → Except ParseError (Expr β × Cursor)
  | 0, _ => .error .outOfFuel
  | fuel + 1, c =>
    match c.current with
    | none => .error .unexpectedEof
    | some (.int (some value) raw) => do
        let literal ← integerLiteralExpr env.targetPointerWidth value raw
        pure (literal, c.advance)
    | some (.int none raw) => .error (.invalidNumber raw)
    | some (.invalidNumber raw) => .error (.invalidNumber raw)
    | some (.float (some bits) raw) =>
      .ok (numericLiteralExpr (.float bits) (numericLiteralSuffix raw), c.advance)
    | some (.string (some value)) => .ok (.literal (.string value), c.advance)
    | some (.char (some value)) => .ok (.literal (.char value), c.advance)
    | some .trueKw => .ok (.literal (.bool true), c.advance)
    | some .falseKw => .ok (.literal (.bool false), c.advance)
    | some .nullKw => .ok (.literal .null, c.advance)
    | some .minus => do
        let negative ← parseNegativeIntegerLiteral env.targetPointerWidth c.advance
        match negative with
        | some literal => pure literal
        | none => do
            let (operand, c) ← parseExprPrec fuel precUnary c.advance
            pure (.unary .neg operand, c)
    | some .bitAnd => do
        let (op, c) := match c.advance.consume .mutKw with
          | some c => (UnOp.refMut, c)
          | none => (UnOp.ref, c.advance)
        let (operand, c) ← parseExprPrec fuel precUnary c
        pure (.unary op operand, c)
    | some .awaitKw => do
        let (operand, c) ← parseExprPrec fuel precUnary c.advance
        pure (.await operand, c)
    | some .lParen =>
      match c.advance.consume .rParen with
      | some c => .ok (.tuple [], c)
      | none => do
          let (expr, c) ← parseExprPrec fuel 0 c.advance
          match c.consume .comma with
          | some c => do
              let (elements, c) ← parseTupleRest fuel c
              pure (.tuple (expr :: elements), c)
          | none => do
              let c ← c.expect .rParen
              pure (.paren expr, c)
    | some .lBracket => do
        let (elements, c) ← parseItems fuel .rBracket c.advance
        pure (.array elements, c)
    | some .returnKw =>
      if c.advance.checkExpr then do
        let (value, c) ← parseExprPrec fuel 0 c.advance
        pure (.return (some value), c)
      else .ok (.return none, c.advance)
    | some .breakKw =>
      if c.advance.checkExpr then do
        let (value, c) ← parseExprPrec fuel 0 c.advance
        pure (.break (some value), c)
      else .ok (.break none, c.advance)
    | some .continueKw => .ok (.continue, c.advance)
    | some .yieldKw =>
      if c.advance.checkExpr then do
        let (value, c) ← parseExprPrec fuel 0 c.advance
        pure (.yield (some value), c)
      else .ok (.yield none, c.advance)
    | some (.ident _) => do
        let (path, c) ← parsePath c
        if c.check .lBrace && !env.inConditionContext then
          env.construct (.structLiteral path) c
        else if c.check .lParen then do
          let (args, c) ← parseItems fuel .rParen c.advance
          pure (.call (.path path) args, c)
        else pure (.path path, c)
    | some .selfLowerKw => .ok (.ident "self", c.advance)
    | some token =>
      match token.unOp? with
      | some op => do
          let (operand, c) ← parseExprPrec fuel precUnary c.advance
          pure (.unary op operand, c)
      | none =>
        match token.construct? with
        | some construct => env.construct construct c
        | none => .error .unexpectedTokenInExpression

/-- `parse_infix`, called on the token whose precedence is passed. -/
def parseInfix : Nat → Expr β → Nat → Cursor → Except ParseError (Expr β × Cursor)
  | 0, _, _, _ => .error .outOfFuel
  | fuel + 1, left, precedence, c =>
    match c.current with
    | none => .error .unexpectedEof
    | some .assign => do
        let (value, c) ← parseExprPrec fuel (precAssign - 1) c.advance
        pure (.assign left value, c)
    | some .dotDot => do
        let (inclusive, c) := match c.advance.consume .eq with
          | some c => (true, c)
          | none => (false, c.advance)
        if c.checkExpr then do
          let (stop, c) ← parseExprPrec fuel precOr c
          pure (.range (some left) (some stop) inclusive, c)
        else pure (.range (some left) none inclusive, c)
    | some .dot => do
        let (field, c) ← match c.advance.current with
          | some (.int (some n) _) => .ok ((toString n.toNat), c.advance.advance)
          | _ => c.advance.expectIdent
        if c.check .lParen then do
          let (args, c) ← parseItems fuel .rParen c.advance
          pure (.methodCall left field args, c)
        else pure (.field left field, c)
    | some .lBracket => do
        let (index, c) ← parseExprPrec fuel 0 c.advance
        let c ← c.expect .rBracket
        pure (.index left index, c)
    | some .question => .ok (.try left, c.advance)
    | some .asKw => do
        let (ty, c) ← parseType env fuel c.advance
        pure (.cast left ty, c)
    | some token =>
      match token.binOp? with
      | some op => do
          let (right, c) ← parseExprPrec fuel precedence c.advance
          pure (.binary op left right, c)
      | none =>
        match token.assignOp? with
        | some op => do
            let (value, c) ← parseExprPrec fuel (precAssign - 1) c.advance
            pure (.assignOp op left value, c)
        | none => .error .unexpectedTokenInInfix

/-- Arguments and array elements: up to the closing token or the end of the
tokens, with optional commas. -/
def parseItems : Nat → Token → Cursor → Except ParseError (List (Expr β) × Cursor)
  | 0, _, _ => .error .outOfFuel
  | fuel + 1, close, c =>
    if c.isEof then .ok ([], c)
    else
      match c.consume close with
      | some c => .ok ([], c)
      | none => do
          let (first, c) ← parseExprPrec fuel 0 c
          let (items, c) ← parseItems fuel close ((c.consume .comma).getD c)
          pure (first :: items, c)

/-- The elements of a tuple behind the first comma. -/
def parseTupleRest : Nat → Cursor → Except ParseError (List (Expr β) × Cursor)
  | 0, _ => .error .outOfFuel
  | fuel + 1, c =>
    if c.isEof then .ok ([], c)
    else
      match c.consume .rParen with
      | some c => .ok ([], c)
      | none => do
          let (first, c) ← parseExprPrec fuel 0 c
          match c.consume .comma with
          | some c => do
              let (elements, c) ← parseTupleRest fuel c
              pure (first :: elements, c)
          | none => do
              let c ← c.expect .rParen
              pure ([first], c)

end

def parseExpr (fuel : Nat) (c : Cursor) : Except ParseError (Expr β × Cursor) :=
  parseExprPrec env fuel 0 c

end

end Sengoo.Parser
