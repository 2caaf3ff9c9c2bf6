import Sengoo.Parser.Lexer

/-!
Printing expressions from the precedence table. A tree is spelled token by
token, with parentheses at its `paren` nodes; `grouped` puts those nodes
exactly where the constants ask for them: around a left operand of lower
precedence, around a right operand of lower or equal precedence, the other way
round for assignment, and around an operand of a prefix operator that neither
binds tighter nor begins with a prefix operator itself. The two levels of a
tree say next to which operators its spelling stays together.
-/

namespace Sengoo.Parser

inductive SignedSuffix where
  | i8 | i16 | i32 | i64 | isize
deriving DecidableEq

inductive UnsignedSuffix where
  | u8 | u16 | u32 | u64 | usize
deriving DecidableEq

/-- The integer literals of the language; one with a suffix is a cast of its
value to the type of that name. -/
inductive IntLiteral where
  | plain (value : Int64)
  | signed (value : Int64) (suffix : SignedSuffix)
  | unsigned (value : UInt64) (suffix : UnsignedSuffix)
deriving DecidableEq

/-- The name behind a dot, or the position in a tuple. -/
inductive Member where
  | named (name : Name)
  | position (n : UInt64)
deriving DecidableEq

inductive Tree where
  | path (first : Name) (rest : List Name)
  | selfValue
  | int (literal : IntLiteral)
  | binary (op : BinOp) (left right : Tree)
  | unary (op : UnOp) (operand : Tree)
  | await (operand : Tree)
  | assign (target value : Tree)
  | assignOp (op : AssignOp) (target value : Tree)
  | range (start stop : Tree) (inclusive : Bool)
  | field (base : Tree) (member : Member)
  | index (base position : Tree)
  | try (base : Tree)
  | cast (expr : Tree) (first : Name) (rest : List Name)
  | paren (inner : Tree)
deriving DecidableEq

/-! ### Tokens -/

def BinOp.token : BinOp → Token
  | .add => .plus
  | .sub => .minus
  | .mul => .star
  | .div => .slash
  | .mod => .percent
  | .bitAnd => .bitAnd
  | .bitOr => .bitOr
  | .bitXor => .bitXor
  | .shl => .shl
  | .shr => .shr
  | .and => .andKw
  | .or => .orKw
  | .eq => .eq
  | .notEq => .notEq
  | .lt => .lt
  | .le => .le
  | .gt => .gt
  | .ge => .ge

def BinOp.precedence (op : BinOp) : Nat := getInfixPrecedence op.token

def AssignOp.token : AssignOp → Token
  | .addAssign => .addAssign
  | .subAssign => .subAssign
  | .mulAssign => .mulAssign
  | .divAssign => .divAssign
  | .modAssign => .modAssign

def UnOp.tokens : UnOp → List Token
  | .neg => [.minus]
  | .not => [.notKw]
  | .bitNot => [.bitNot]
  | .deref => [.star]
  | .ref => [.bitAnd]
  | .refMut => [.bitAnd, .mutKw]

def SignedSuffix.name : SignedSuffix → String
  | .i8 => "i8"
  | .i16 => "i16"
  | .i32 => "i32"
  | .i64 => "i64"
  | .isize => "isize"

def SignedSuffix.bits (targetPointerWidth : Nat) : SignedSuffix → Nat
  | .i8 => 8
  | .i16 => 16
  | .i32 => 32
  | .i64 => 64
  | .isize => targetPointerWidth

def UnsignedSuffix.name : UnsignedSuffix → String
  | .u8 => "u8"
  | .u16 => "u16"
  | .u32 => "u32"
  | .u64 => "u64"
  | .usize => "usize"

def UnsignedSuffix.bits (targetPointerWidth : Nat) : UnsignedSuffix → Nat
  | .u8 => 8
  | .u16 => 16
  | .u32 => 32
  | .u64 => 64
  | .usize => targetPointerWidth

/-- A decimal number and the suffix behind it. -/
def numberToken (n : Nat) (suffix : String) : Token :=
  .int (some (UInt64.ofNat n)) (Nat.toDigits 10 n ++ suffix.toList)

/-- A value and its sign. -/
def signedTokens (value : Int64) (suffix : String) : List Token :=
  if value.toInt < 0 then [.minus, numberToken value.toInt.natAbs suffix]
  else [numberToken value.toInt.natAbs suffix]

namespace IntLiteral

def tokens : IntLiteral → List Token
  | plain value => signedTokens value ""
  | signed value suffix => signedTokens value suffix.name
  | unsigned value suffix => [numberToken value.toNat suffix.name]

def toExpr {β : Type} : IntLiteral → Expr β
  | plain value => .literal (.int value)
  | signed value suffix => .cast (.literal (.int value)) (.path [suffix.name])
  | unsigned value suffix => .cast (.literal (.uint value)) (.path [suffix.name])

/-- The value is one of the type of the suffix. -/
def InRange (targetPointerWidth : Nat) : IntLiteral → Prop
  | plain _ => True
  | signed value suffix =>
    -(2 ^ (suffix.bits targetPointerWidth - 1) : Int) ≤ value.toInt ∧
      value.toInt < 2 ^ (suffix.bits targetPointerWidth - 1)
  | unsigned value suffix => value.toNat < 2 ^ suffix.bits targetPointerWidth

end IntLiteral

def pathTokens (first : Name) (rest : List Name) : List Token :=
  .ident first.text :: rest.flatMap fun segment => [.colonColon, .ident segment.text]

/-- The segments of a path as the parser keeps them. -/
def pathNames (first : Name) (rest : List Name) : List String :=
  first.text :: rest.map Name.text

def Member.token : Member → Token
  | named name => .ident name.text
  | position n => numberToken n.toNat ""

def Member.name : Member → String
  | named name => name.text
  | position n => toString n.toNat

/-- The tokens of `..` and of `..=`. -/
def rangeTokens (inclusive : Bool) : List Token :=
  if inclusive then [.dotDot, .assign] else [.dotDot]

namespace Tree

/-- The spelling of a tree, parenthesised at its `paren` nodes only. -/
def tokens : Tree → List Token
  | path first rest => pathTokens first rest
  | selfValue => [.selfLowerKw]
  | int literal => literal.tokens
  | binary op left right => left.tokens ++ op.token :: right.tokens
  | unary op operand => op.tokens ++ operand.tokens
  | await operand => .awaitKw :: operand.tokens
  | assign target value => target.tokens ++ .assign :: value.tokens
  | assignOp op target value => target.tokens ++ op.token :: value.tokens
  | range start stop inclusive => start.tokens ++ (rangeTokens inclusive ++ stop.tokens)
  | field base member => base.tokens ++ [.dot, member.token]
  | index base position => base.tokens ++ .lBracket :: (position.tokens ++ [.rBracket])
  | .try base => base.tokens ++ [.question]
  | cast expr first rest => expr.tokens ++ .asKw :: pathTokens first rest
  | paren inner => .lParen :: (inner.tokens ++ [.rParen])

/-- The expression a tree stands for. -/
def toExpr {β : Type} : Tree → Expr β
  | path first rest => .path (pathNames first rest)
  | selfValue => .ident "self"
  | int literal => literal.toExpr
  | binary op left right => .binary op left.toExpr right.toExpr
  | unary op operand => .unary op operand.toExpr
  | await operand => .await operand.toExpr
  | assign target value => .assign target.toExpr value.toExpr
  | assignOp op target value => .assignOp op target.toExpr value.toExpr
  | range start stop inclusive => .range (some start.toExpr) (some stop.toExpr) inclusive
  | field base member => .field base.toExpr member.name
  | index base position => .index base.toExpr position.toExpr
  | .try base => .try base.toExpr
  | cast expr first rest => .cast expr.toExpr (.path (pathNames first rest))
  | paren inner => .paren inner.toExpr

/-! ### Parentheses -/

/-- Above every precedence of the table. -/
@[simp] def precAtom : Nat := 14

/-- The precedence of the outermost operator. -/
def prec : Tree → Nat
  | path _ _ | selfValue | int _ | paren _ => precAtom
  | binary op _ _ => op.precedence
  | unary _ _ | await _ => precUnary
  | assign _ _ | assignOp _ _ _ => precAssign
  | range _ _ _ => precOr
  | field _ _ | index _ _ => precCall
  | .try _ => precPostfix
  | cast _ _ _ => precCast

def beginsWithOperator : Tree → Bool
  | unary _ _ | await _ => true
  | _ => false

def parenIf (needed : Bool) (tree : Tree) : Tree := if needed then paren tree else tree

/-- The operand of a prefix operator. A cast has the precedence of the
operator and would take the operator with it. -/
def parenOperand (operand grouped : Tree) : Tree :=
  parenIf (operand.prec ≤ precUnary && !operand.beginsWithOperator) grouped

/-- The tree with `paren` nodes where the precedence constants and the
associativity of the operators ask for them. The forms of call precedence have
no operand on their right, so `?` stands behind them as they are. -/
def grouped : Tree → Tree
  | path first rest => path first rest
  | selfValue => selfValue
  | int literal => int literal
  | binary op left right =>
    binary op (parenIf (left.prec < op.precedence) left.grouped)
      (parenIf (right.prec ≤ op.precedence) right.grouped)
  | unary op operand => unary op (parenOperand operand operand.grouped)
  | await operand => await (parenOperand operand operand.grouped)
  | assign target value =>
    assign (parenIf (target.prec ≤ precAssign) target.grouped)
      (parenIf (value.prec < precAssign) value.grouped)
  | assignOp op target value =>
    assignOp op (parenIf (target.prec ≤ precAssign) target.grouped)
      (parenIf (value.prec < precAssign) value.grouped)
  | range start stop inclusive =>
    range (parenIf (start.prec < precOr) start.grouped)
      (parenIf (stop.prec ≤ precOr) stop.grouped) inclusive
  | field base member => field (parenIf (base.prec < precCall) base.grouped) member
  | index base position =>
    index (parenIf (base.prec < precCall) base.grouped) position.grouped
  | .try base => .try (parenIf (base.prec < precCall) base.grouped)
  | cast expr first rest => cast (parenIf (expr.prec < precCast) expr.grouped) first rest
  | paren inner => paren inner.grouped

end Tree

mutual

/-- The expression without its `paren` nodes. -/
def Expr.strip {β : Type} : Expr β → Expr β
  | .literal value => .literal value
  | .ident name => .ident name
  | .path segments => .path segments
  | .binary op left right => .binary op left.strip right.strip
  | .unary op operand => .unary op operand.strip
  | .call func args => .call func.strip (stripList args)
  | .methodCall receiver method args => .methodCall receiver.strip method (stripList args)
  | .index base index => .index base.strip index.strip
  | .field base field => .field base.strip field
  | .tuple elements => .tuple (stripList elements)
  | .array elements => .array (stripList elements)
  | .assign target value => .assign target.strip value.strip
  | .assignOp op target value => .assignOp op target.strip value.strip
  | .range start stop inclusive => .range (stripOption start) (stripOption stop) inclusive
  | .try expr => .try expr.strip
  | .cast expr ty => .cast expr.strip ty
  | .await expr => .await expr.strip
  | .paren expr => expr.strip
  | .return value => .return (stripOption value)
  | .break value => .break (stripOption value)
  | .continue => .continue
  | .yield value => .yield (stripOption value)
  | .other value => .other value

def stripList {β : Type} : List (Expr β) → List (Expr β)
  | [] => []
  | expr :: rest => expr.strip :: stripList rest

def stripOption {β : Type} : Option (Expr β) → Option (Expr β)
  | none => none
  | some expr => some expr.strip

end

namespace Tree

theorem strip_parenIf {β : Type} (needed : Bool) (tree : Tree) :
    ((parenIf needed tree).toExpr : Expr β).strip = tree.toExpr.strip := by
  cases needed with
  | false => rfl
  | true => simp only [parenIf, if_true, toExpr, Expr.strip]

/-- Grouping adds nothing but parentheses. -/
theorem strip_grouped {β : Type} (tree : Tree) :
    (tree.grouped.toExpr : Expr β).strip = tree.toExpr.strip := by
  induction tree <;>
    simp_all only [grouped, parenOperand, toExpr, Expr.strip, stripOption, strip_parenIf]

/-! ### Levels -/

/-- A tree is read as a whole where the precedence passed to the parser is
below this level. -/
def leftLevel : Tree → Nat
  | path _ _ | selfValue | int _ | paren _ | unary _ _ | await _ => precAtom
  | binary op left _ => min op.precedence left.leftLevel
  | assign target _ | assignOp _ target _ => min precAssign target.leftLevel
  | range start _ _ => min precOr start.leftLevel
  | field base _ | index base _ => min precCall base.leftLevel
  | .try base => min precPostfix base.leftLevel
  | cast expr _ _ => min precCast expr.leftLevel

/-- An operator up to this level behind the tree is not taken by an operand
inside it. -/
def rightLevel : Tree → Nat
  | path _ _ | selfValue | int _ | paren _ | field _ _ | index _ _ | .try _ | cast _ _ _ =>
    precAtom
  | binary op _ right => min op.precedence right.rightLevel
  | unary _ operand | await operand => min precUnary operand.rightLevel
  | assign _ _ | assignOp _ _ _ => 0
  | range _ stop _ => min precOr stop.rightLevel

/-- Every operand fits the level at which the parser reads it. -/
def Levelled : Tree → Prop
  | path _ _ | selfValue | int _ => True
  | binary op left right =>
    op.precedence ≤ left.rightLevel ∧ left.Levelled ∧
      op.precedence < right.leftLevel ∧ right.Levelled
  | unary _ operand | await operand => precUnary < operand.leftLevel ∧ operand.Levelled
  | assign target value | assignOp _ target value =>
    precAssign ≤ target.rightLevel ∧ target.Levelled ∧ 0 < value.leftLevel ∧ value.Levelled
  | range start stop _ =>
    precOr ≤ start.rightLevel ∧ start.Levelled ∧ precOr < stop.leftLevel ∧ stop.Levelled
  | field base _ => precCall ≤ base.rightLevel ∧ base.Levelled
  | index base position =>
    precCall ≤ base.rightLevel ∧ base.Levelled ∧ 0 < position.leftLevel ∧ position.Levelled
  | .try base => precPostfix ≤ base.rightLevel ∧ base.Levelled
  | cast expr _ _ => precCast ≤ expr.rightLevel ∧ expr.Levelled
  | paren inner => 0 < inner.leftLevel ∧ inner.Levelled

/-- What a grouped tree owes to the precedence of its root. Only an assignment
reaches further to the right than its precedence. -/
structure Fits (tree : Tree) (level : Nat) : Prop where
  left : min level precCall ≤ tree.leftLevel
  right : level = precAssign ∨ level ≤ tree.rightLevel
  levelled : tree.Levelled

end Tree

theorem BinOp.precedence_bounds (op : BinOp) :
    precOr ≤ op.precedence ∧ op.precedence ≤ precMul := by
  cases op <;> decide

namespace Tree

theorem prec_pos (tree : Tree) : 0 < tree.prec := by
  cases tree with
  | binary op _ _ => exact Nat.lt_of_lt_of_le (by decide) op.precedence_bounds.1
  | _ => simp [prec]

theorem leftLevel_beginsWithOperator {tree : Tree} (h : tree.beginsWithOperator = true) :
    tree.grouped.leftLevel = precAtom := by
  cases tree <;> first | rfl | cases h

/-- What binds at call level has nothing open on its right. -/
theorem rightLevel_of_call {tree : Tree} (h : precCall ≤ tree.prec) :
    tree.grouped.rightLevel = precAtom := by
  cases tree with
  | binary op _ _ => exact absurd (Nat.le_trans h op.precedence_bounds.2) (by decide)
  | _ => first | rfl | simp [prec] at h

@[simp] theorem parenIf_false (tree : Tree) : parenIf false tree = tree := rfl

/-- The level of an operand with or without parentheses. -/
def operandLevel (needed : Bool) (tree : Tree) : Nat := if needed then precAtom else tree.prec

section

variable {tree : Tree} (h : Fits tree.grouped tree.prec)
include h

theorem Fits.parenIf (needed : Bool) :
    Fits (parenIf needed tree.grouped) (operandLevel needed tree) := by
  cases needed with
  | false => exact h
  | true =>
    refine ⟨Nat.min_le_left _ _, .inr (Nat.le_refl _), ?_, h.levelled⟩
    have hpos := tree.prec_pos
    have hleft := h.left
    simp only [precCall] at hleft
    omega

/-- An operand to the left of an operator, unless it binds less. -/
theorem Fits.left_operand (bound : Nat) (hlow : precAssign < bound) (hbound : bound ≤ precCall) :
    bound ≤ (Tree.parenIf (tree.prec < bound) tree.grouped).leftLevel ∧
      bound ≤ (Tree.parenIf (tree.prec < bound) tree.grouped).rightLevel := by
  have hfits := h.parenIf (tree.prec < bound)
  have hleft := hfits.left
  have hright := hfits.right
  simp only [precCall] at hlow hbound hleft hright
  by_cases hneeded : tree.prec < bound
  · simp only [operandLevel, hneeded, decide_true, if_true, precAtom] at hleft hright ⊢
    omega
  · simp only [operandLevel, hneeded, decide_false, Bool.false_eq_true, if_false]
      at hleft hright ⊢
    omega

/-- An operand to the right of an operator, unless it binds no tighter. -/
theorem Fits.right_operand (bound : Nat) (hlow : precAssign ≤ bound) (hbound : bound < precCall) :
    bound < (Tree.parenIf (tree.prec ≤ bound) tree.grouped).leftLevel ∧
      bound ≤ (Tree.parenIf (tree.prec ≤ bound) tree.grouped).rightLevel := by
  have hleft := h.left_operand (bound + 1) (Nat.lt_succ_of_le hlow) hbound
  simp only [Nat.lt_succ_iff] at hleft
  exact ⟨hleft.1, Nat.le_of_succ_le hleft.2⟩

/-- The operand of a prefix operator is read to its end behind the operator. -/
theorem Fits.operator_operand : precUnary < (parenOperand tree tree.grouped).leftLevel ∧
      precUnary ≤ (parenOperand tree tree.grouped).rightLevel := by
  rcases Bool.eq_false_or_eq_true tree.beginsWithOperator with hop | hop
  · have hlevel : tree.prec = precUnary := by cases tree <;> first | rfl | cases hop
    have hright := h.right
    rw [hlevel] at hright
    simp only [parenOperand, hop, Bool.not_true, Bool.and_false, parenIf_false,
      leftLevel_beginsWithOperator hop]
    exact ⟨by decide, hright.resolve_left (by decide)⟩
  · simp only [parenOperand, hop, Bool.not_false, Bool.and_true]
    exact h.right_operand _ (by decide) (by decide)

theorem Fits.call_operand :
    precCall ≤ (Tree.parenIf (tree.prec < precCall) tree.grouped).leftLevel ∧
      precPostfix ≤ (Tree.parenIf (tree.prec < precCall) tree.grouped).rightLevel := by
  refine ⟨(h.left_operand _ (by decide) (Nat.le_refl _)).1, ?_⟩
  by_cases hneeded : tree.prec < precCall
  · rw [decide_eq_true hneeded]
    exact Nat.le_succ 13
  · rw [decide_eq_false hneeded, parenIf_false, rightLevel_of_call (Nat.le_of_not_lt hneeded)]
    exact Nat.le_succ 13

theorem Fits.left_pos (needed : Bool) : 0 < (Tree.parenIf needed tree.grouped).leftLevel := by
  have hleft := (h.parenIf needed).left
  have hpos := tree.prec_pos
  cases needed <;> simp only [operandLevel, precCall, precAtom, if_true] at hleft
  · simp only [Bool.false_eq_true, if_false] at hleft
    omega
  · omega

end

theorem Fits.of_le {tree : Tree} {level : Nat} (hleft : min level precCall ≤ tree.leftLevel)
    (hright : level ≤ tree.rightLevel) (hlevelled : tree.Levelled) : Fits tree level :=
  ⟨hleft, .inr hright, hlevelled⟩

/-- Grouping fits every operand to the level at which it is read. -/
theorem fits_grouped (tree : Tree) : Fits tree.grouped tree.prec := by
  induction tree with
  | path _ _ | selfValue | int _ => exact .of_le (Nat.min_le_left _ _) (Nat.le_refl _) trivial
  | binary op left right ihl ihr =>
    obtain ⟨hlow, hhigh⟩ := op.precedence_bounds
    have hcall : op.precedence < precCall := Nat.lt_of_le_of_lt hhigh (by decide)
    obtain ⟨hll, hlr⟩ := ihl.left_operand _ hlow (Nat.le_of_lt hcall)
    obtain ⟨hrl, hrr⟩ := ihr.right_operand _ (Nat.le_of_lt hlow) hcall
    exact .of_le
      (Nat.le_trans (Nat.min_le_left _ _) (Nat.le_min.mpr ⟨Nat.le_refl _, hll⟩))
      (Nat.le_min.mpr ⟨Nat.le_refl _, hrr⟩)
      ⟨hlr, (ihl.parenIf _).levelled, hrl, (ihr.parenIf _).levelled⟩
  | unary op operand ih | await operand ih =>
    obtain ⟨hleft, hright⟩ := ih.operator_operand
    exact .of_le (show 11 ≤ 14 by decide) (Nat.le_min.mpr ⟨Nat.le_refl _, hright⟩)
      ⟨hleft, (ih.parenIf _).levelled⟩
  | assign target value iht ihv | assignOp op target value iht ihv =>
    obtain ⟨htl, htr⟩ := iht.right_operand 1 (by decide) (by decide)
    exact ⟨Nat.le_min.mpr ⟨Nat.le_refl _, Nat.le_of_lt htl⟩, .inl rfl,
      htr, (iht.parenIf _).levelled, ihv.left_pos _, (ihv.parenIf _).levelled⟩
  | range start stop inclusive ihl ihr =>
    obtain ⟨hll, hlr⟩ := ihl.left_operand 2 (by decide) (by decide)
    obtain ⟨hrl, hrr⟩ := ihr.right_operand 2 (by decide) (by decide)
    exact .of_le (Nat.le_min.mpr ⟨Nat.le_refl _, hll⟩)
      (Nat.le_min.mpr ⟨Nat.le_refl _, hrr⟩)
      ⟨hlr, (ihl.parenIf _).levelled, hrl, (ihr.parenIf _).levelled⟩
  | field base member ih =>
    obtain ⟨hleft, hright⟩ := ih.call_operand
    exact .of_le (Nat.le_min.mpr ⟨Nat.le_refl _, hleft⟩) (Nat.le_add_right 12 2)
      ⟨Nat.le_of_succ_le hright, (ih.parenIf _).levelled⟩
  | index base position ih ihp =>
    obtain ⟨hleft, hright⟩ := ih.call_operand
    exact .of_le (Nat.le_min.mpr ⟨Nat.le_refl _, hleft⟩) (Nat.le_add_right 12 2)
      ⟨Nat.le_of_succ_le hright, (ih.parenIf _).levelled, ihp.left_pos false, ihp.levelled⟩
  | «try» base ih =>
    obtain ⟨hleft, hright⟩ := ih.call_operand
    exact .of_le (Nat.le_min.mpr ⟨Nat.le_trans (Nat.min_le_right _ _) (Nat.le_succ 12), hleft⟩)
      (Nat.le_succ 13)
      ⟨hright, (ih.parenIf _).levelled⟩
  | cast expr _ _ ih =>
    obtain ⟨hleft, hright⟩ := ih.left_operand 11 (by decide) (by decide)
    exact .of_le (Nat.le_min.mpr ⟨Nat.le_refl _, hleft⟩) (Nat.le_add_right 11 3)
      ⟨hright, (ih.parenIf _).levelled⟩
  | paren inner ih =>
    exact .of_le (Nat.min_le_left _ _) (Nat.le_refl _) ⟨ih.left_pos false, ih.levelled⟩

end Tree

end Sengoo.Parser
