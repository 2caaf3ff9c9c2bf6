import Sengoo.Fuel
import Sengoo.Parser.Literals

/-!
What the expression parser makes of a printed tree. The induction carries an
arbitrary continuation: reading a tree at any precedence below its left level
leaves the loop of `parse_expr_prec` with the tree as its left operand and the
tokens behind the tree still to come. Operands are the special case in which
the loop stops there.
-/

namespace Sengoo.Parser

open Fuel List

namespace Tree

/-- The last token of the tree belongs to the type of a cast. -/
def endsInCast : Tree → Bool
  | cast _ _ _ => true
  | binary _ _ right => right.endsInCast
  | unary _ operand | await operand => operand.endsInCast
  | assign _ value | assignOp _ _ value => value.endsInCast
  | range _ stop _ => stop.endsInCast
  | _ => false

end Tree

/-- An integer that takes a minus before it into the literal. -/
def Token.foldsMinus : Token → Bool
  | .int (some _) raw =>
    !(numericLiteralSuffix raw).any ((unsignedSuffixes ++ ["f32", "f64"]).contains ·)
  | _ => false

namespace Tree

/-- The spellings that do not read as the table says: a minus before an
integer literal belongs to the literal, a `<` behind the type of a cast opens
type arguments, the token of `..=` is not the one the parser asks for, and the
end of a range is not looked for at a `&`. -/
def Readable (targetPointerWidth : Nat) : Tree → Prop
  | path _ _ | selfValue => True
  | int literal => literal.InRange targetPointerWidth
  | binary op left right =>
    (op = .lt → left.endsInCast = false) ∧ left.Readable targetPointerWidth ∧
      right.Readable targetPointerWidth
  | unary op operand =>
    (op = .neg → operand.tokens.head?.any Token.foldsMinus = false) ∧
      operand.Readable targetPointerWidth
  | await operand => operand.Readable targetPointerWidth
  | assign target value | assignOp _ target value =>
    target.Readable targetPointerWidth ∧ value.Readable targetPointerWidth
  | range start stop inclusive =>
    inclusive = false ∧ stop.tokens.head? ≠ some .bitAnd ∧
      start.Readable targetPointerWidth ∧ stop.Readable targetPointerWidth
  | index base position =>
    base.Readable targetPointerWidth ∧ position.Readable targetPointerWidth
  | field base _ | .try base | cast base _ _ | paren base => base.Readable targetPointerWidth

/-- What may stand behind a tree without becoming part of it. -/
structure Follows (tree : Tree) (c : Cursor) : Prop where
  prec : c.nextPrec ≤ tree.rightLevel
  lParen : c.check .lParen = false
  lBrace : c.check .lBrace = false
  colonColon : c.check .colonColon = false
  lt : tree.endsInCast = true → c.check .lt = false

end Tree

/-- A parser takes what the tokens begin with and leaves the rest. -/
abbrev Reads {α : Type} (parse : Nat → Cursor → Except ParseError (α × Cursor)) (pending : Nat)
    (tokens : List Token) (found : α) (rest : List Token) : Prop :=
  Settles (fun fuel => parse fuel ⟨tokens, pending⟩) (.ok (found, ⟨rest, pending⟩))

section

variable {β : Type} (env : Env β) (left : Expr β)

/-! ### Paths, types and literals -/

section

variable (first : Name) (segments : List Name)
include first segments

theorem pathSegments_pathTokens (h : rest.head? ≠ some .colonColon) :
    pathSegments (pathTokens first segments ++ rest) = (pathNames first segments, rest) := by
  induction segments generalizing first with
  | nil =>
    cases rest with
    | nil => rfl
    | cons token rest =>
      show pathSegments (.ident first.text :: token :: rest) = _
      rw [pathSegments.eq_3 _ _ (fun _ heq => h (by simp_all))]
      rfl
  | cons second segments ih =>
    have htail := ih second
    show pathSegments (.ident first.text :: .colonColon :: (pathTokens second segments ++ rest)) = _
    rw [pathSegments]
    simp only [htail]
    rfl

theorem parsePath_pathTokens (h : Cursor.check ⟨rest, pending⟩ .colonColon = false) :
    parsePath ⟨pathTokens first segments ++ rest, pending⟩ =
      .ok (pathNames first segments, ⟨rest, pending⟩) := by
  have hhead : rest.head? ≠ some .colonColon := of_decide_eq_false h
  simp only [parsePath, pathSegments_pathTokens first segments hhead]
  rfl

theorem settles_parseType (hpath : Cursor.check ⟨rest, pending⟩ .colonColon = false)
    (hlt : Cursor.check ⟨rest, pending⟩ .lt = false) :
    Reads (parseType env) pending (pathTokens first segments ++ rest)
      (.path (pathNames first segments)) rest := by
  have hprimary : Reads (parseTypePrimary env) pending (pathTokens first segments ++ rest)
      (.path (pathNames first segments)) rest := by
    refine .of_rounds 1 fun fuel => ?_
    show (parsePath ⟨pathTokens first segments ++ rest, pending⟩ >>= _) = _
    rw [parsePath_pathTokens first segments hpath]
    rfl
  refine .call (fun fuel => by rw [parseType]) (hprimary.bind ?_)
  simp only [Cursor.consume, hlt]
  exact .const _

theorem settles_path (hpath : Cursor.check ⟨rest, pending⟩ .colonColon = false)
    (hbrace : Cursor.check ⟨rest, pending⟩ .lBrace = false)
    (hparen : Cursor.check ⟨rest, pending⟩ .lParen = false) :
    Reads (parsePrefix env) pending (pathTokens first segments ++ rest)
      (.path (pathNames first segments)) rest := by
  refine .of_rounds 1 fun fuel => ?_
  show (parsePath ⟨pathTokens first segments ++ rest, pending⟩ >>= _) = _
  rw [parsePath_pathTokens first segments hpath]
  show (if Cursor.check ⟨rest, pending⟩ .lBrace && _ then _
    else if Cursor.check ⟨rest, pending⟩ .lParen then _ else _) = _
  rw [hbrace, hparen]
  rfl

end

theorem settles_number {value : UInt64} {raw : List Char} {literal : Expr β}
    (h : integerLiteralExpr env.targetPointerWidth value raw = .ok literal) :
    Reads (parsePrefix env) pending (.int (some value) raw :: rest) literal rest := by
  refine .of_rounds 1 fun fuel => ?_
  show (integerLiteralExpr env.targetPointerWidth value raw >>= _) = _
  rw [h]
  rfl

theorem settles_folded {literal : Expr β}
    (h : parseNegativeIntegerLiteral env.targetPointerWidth ⟨rest, pending⟩ =
      .ok (some (literal, ⟨rest', pending⟩))) :
    Reads (parsePrefix env) pending (.minus :: rest) literal rest' := by
  refine .of_rounds 1 fun fuel => ?_
  show (parseNegativeIntegerLiteral env.targetPointerWidth ⟨rest, pending⟩ >>= _) = _
  rw [h]
  rfl

theorem SignedSpelling.settles {spelled : String} {suffix : Option String} {bits : Nat}
    (h : SignedSpelling env.targetPointerWidth spelled suffix bits) {value : Int64}
    (hlow : -(2 ^ (bits - 1) : Int) ≤ value.toInt) (hhigh : value.toInt < 2 ^ (bits - 1))
    (rest : List Token) (pending : Nat) :
    Reads (parsePrefix env) pending (signedTokens value spelled ++ rest)
      (numericLiteralExpr (.int value) suffix) rest := by
  by_cases hneg : value.toInt < 0
  · rw [signedTokens, if_pos hneg]
    exact settles_folded env (h.reads_negative hneg hlow rest pending)
  · rw [signedTokens, if_neg hneg]
    exact settles_number env (h.reads_nonnegative hneg hhigh)

theorem settles_literal (literal : IntLiteral) (h : literal.InRange env.targetPointerWidth)
    (rest : List Token) (pending : Nat) :
    Reads (parsePrefix env) pending (literal.tokens ++ rest) literal.toExpr rest := by
  cases literal with
  | plain value =>
    exact (signedSpelling_plain _).settles env value.le_toInt value.toInt_lt rest pending
  | signed value suffix =>
    exact (signedSpelling_suffix _ suffix).settles env h.1 h.2 rest pending
  | unsigned value suffix => exact settles_number env (reads_unsigned value suffix h)

/-! ### Operators -/

theorem parseNegativeIntegerLiteral_none
    (h : rest.head?.any Token.foldsMinus = false) :
    parseNegativeIntegerLiteral (β := β) env.targetPointerWidth ⟨rest, pending⟩ = .ok none := by
  cases rest with
  | nil => rfl
  | cons token rest =>
    cases token with
    | int value raw =>
      cases value with
      | none => rfl
      | some value =>
        have hsuffix : (numericLiteralSuffix raw).any
            ((unsignedSuffixes ++ ["f32", "f64"]).contains ·) = true := by
          simpa [Token.foldsMinus] using h
        simp only [parseNegativeIntegerLiteral, Cursor.current, head?_cons, hsuffix, if_true]
    | _ => rfl

theorem settles_operator {op : UnOp} {c c' c'' : Cursor}
    (hstep : ∀ fuel, parsePrefix env (fuel + 1) c =
      (parseExprPrec env fuel precUnary c' >>= fun found => pure (.unary op found.1, found.2)))
    (h : Settles (fun fuel => parseExprPrec env fuel precUnary c') (.ok (operand, c''))) :
    Settles (fun fuel => parsePrefix env fuel c) (.ok (.unary op operand, c'')) :=
  .call hstep (h.bind (.const _))

/-- A prefix operator takes the operand read behind it. -/
theorem settles_unary (op : UnOp)
    (hfold : op = .neg → rest.head?.any Token.foldsMinus = false)
    (hmut : rest.head? ≠ some .mutKw)
    (h : Reads (parseExprPrec env · precUnary) pending rest operand rest') :
    Reads (parsePrefix env) pending (op.tokens ++ rest) (.unary op operand) rest' := by
  cases op with
  | neg =>
    refine settles_operator env (fun fuel => ?_) h
    show (parseNegativeIntegerLiteral env.targetPointerWidth ⟨rest, pending⟩ >>= _) = _
    rw [parseNegativeIntegerLiteral_none env (hfold rfl)]
    rfl
  | ref =>
    refine settles_operator env (fun fuel => ?_) h
    cases rest with
    | nil => rfl
    | cons token rest => cases token <;> first | rfl | exact absurd rfl hmut
  | not | bitNot | deref | refMut => exact settles_operator env (fun _ => rfl) h

theorem settles_await (h : Reads (parseExprPrec env · precUnary) pending rest operand rest') :
    Reads (parsePrefix env) pending (.awaitKw :: rest) (.await operand) rest' :=
  .call (g := fun fuel => parseExprPrec env fuel precUnary ⟨rest, pending⟩ >>=
    fun found => pure (.await found.1, found.2)) (fun _ => rfl) (h.bind (.const _))

/-- `parse_prefix` behind the first expression in parentheses. -/
def parenRest (fuel : Nat) (found : Expr β × Cursor) : Except ParseError (Expr β × Cursor) :=
  match found.2.consume .comma with
  | some c => do
      let (elements, c) ← parseTupleRest env fuel c
      pure (.tuple (found.1 :: elements), c)
  | none => do
      let c ← found.2.expect .rParen
      pure (.paren found.1, c)

theorem settles_paren {inner : Expr β}
    (hopen : rest.head? ≠ some .rParen)
    (h : Reads (parseExprPrec env · 0) pending rest inner (.rParen :: rest')) :
    Reads (parsePrefix env) pending (.lParen :: rest) (.paren inner) rest' := by
  refine .call (g := fun fuel => parseExprPrec env fuel 0 ⟨rest, pending⟩ >>=
    parenRest env fuel) (fun fuel => ?_) (h.bind (.const _))
  cases rest with
  | nil => rfl
  | cons token rest => cases token <;> first | rfl | exact absurd rfl hopen

/-- Behind a range without `=` the end is read if a token says there is one. -/
theorem settles_range {stop : Expr β}
    (hstop : Cursor.checkExpr ⟨rest, pending⟩ = true)
    (h : Reads (parseExprPrec env · precOr) pending rest stop rest') :
    Settles (fun fuel => parseInfix env fuel left precedence ⟨.dotDot :: rest, pending⟩)
      (.ok (.range (some left) (some stop) false, ⟨rest', pending⟩)) := by
  have hconsume : Cursor.consume ⟨rest, pending⟩ .eq = none := by
    have hne : rest.head? ≠ some .eq := by
      intro heq
      simp [Cursor.checkExpr, Cursor.current, heq] at hstop
    simp [Cursor.consume, Cursor.check, Cursor.current, hne]
  refine .call (fun fuel => ?_) (h.bind (g := fun _ found =>
    pure (.range (some left) (some found.1) false, found.2)) (.const _))
  rw [parseInfix]
  simp only [Cursor.current, head?_cons, Cursor.advance, tail_cons, hconsume, hstop,
    if_true]

theorem settles_field (member : Member) (precedence : Nat)
    (hparen : Cursor.check ⟨rest, pending⟩ .lParen = false) :
    Settles (fun fuel =>
        parseInfix env fuel left precedence ⟨.dot :: member.token :: rest, pending⟩)
      (.ok (.field left member.name, ⟨rest, pending⟩)) := by
  refine .of_rounds 1 fun fuel => ?_
  cases member with
  | named name =>
    show (if Cursor.check ⟨rest, pending⟩ .lParen then _ else _) = _
    rw [hparen]
    rfl
  | position n =>
    show (if Cursor.check ⟨rest, pending⟩ .lParen then _ else
      Except.ok (Expr.field left (toString (UInt64.ofNat n.toNat).toNat),
        Cursor.mk rest pending)) = _
    rw [hparen, UInt64.ofNat_toNat]
    rfl

/-! ### Whole trees -/

end

namespace Tree

/-- A tree begins with a token `check_expr` knows, or with `&`. -/
theorem tokens_begin (tree : Tree) : ∃ token rest, tree.tokens = token :: rest ∧
      ((∀ more pending, Cursor.checkExpr ⟨token :: more, pending⟩ = true) ∨ token = .bitAnd) := by
  induction tree with
  | path first _ | selfValue | await _ _ | paren _ _ => exact ⟨_, _, rfl, .inl fun _ _ => rfl⟩
  | int literal =>
    cases literal with
    | plain value | signed value _ =>
      by_cases hneg : value.toInt < 0
      · exact ⟨_, _, if_pos hneg, .inl fun _ _ => rfl⟩
      · exact ⟨_, _, if_neg hneg, .inl fun _ _ => rfl⟩
    | unsigned value _ => exact ⟨_, _, rfl, .inl fun _ _ => rfl⟩
  | unary op _ _ =>
    cases op with
    | ref | refMut => exact ⟨_, _, rfl, .inr rfl⟩
    | _ => exact ⟨_, _, rfl, .inl fun _ _ => rfl⟩
  | binary _ _ _ ih _ | assign _ _ ih _ | assignOp _ _ _ ih _ | range _ _ _ ih _
  | index _ _ ih _ | field _ _ ih | «try» _ ih | cast _ _ _ ih =>
    obtain ⟨token, rest, htokens, hbegin⟩ := ih
    exact ⟨token, _, congrArg (· ++ _) htokens, hbegin⟩

variable {tree : Tree}

theorem head_tokens_ne {token : Token} (hand : token ≠ .bitAnd)
    (hno : ∀ more pending, Cursor.checkExpr ⟨token :: more, pending⟩ = false)
    (rest : List Token) : (tree.tokens ++ rest).head? ≠ some token := by
  obtain ⟨first, more, htokens, hbegin⟩ := tree.tokens_begin
  rw [htokens]
  intro heq
  cases heq
  rcases hbegin with hbegin | hbegin
  · exact Bool.false_ne_true ((hno [] 0).symm.trans (hbegin [] 0))
  · exact hand hbegin

section

variable {β : Type} (env : Env β)

/-- Reading a tree below its left level is going on with the loop behind it. -/
def ReadsOn (tree : Tree) : Prop :=
  ∀ (precedence : Nat) (rest : List Token) (pending : Nat)
    (result : Except ParseError (Expr β × Cursor)),
    precedence < tree.leftLevel → tree.Follows ⟨rest, pending⟩ →
    Settles (fun fuel => infixLoop env fuel precedence tree.toExpr ⟨rest, pending⟩) result →
    Settles (fun fuel => parseExprPrec env fuel precedence ⟨tree.tokens ++ rest, pending⟩) result

variable {env}

/-- The loop stops behind an operand. -/
theorem ReadsOn.operand (h : tree.ReadsOn env) {precedence : Nat}
    {rest : List Token} (hlevel : precedence < tree.leftLevel)
    (hfollows : tree.Follows ⟨rest, pending⟩)
    (hstop : Cursor.nextPrec ⟨rest, pending⟩ ≤ precedence) :
    Reads (parseExprPrec env · precedence) pending (tree.tokens ++ rest) tree.toExpr rest :=
  h _ _ _ _ hlevel hfollows (.of_rounds 1 fun fuel => by rw [infixLoop, if_pos hstop])

/-- An operator that is no bracket may follow a tree it does not tear apart. -/
theorem Follows.operator {token : Token} {rest : List Token}
    (hprec : getInfixPrecedence token ≤ tree.rightLevel)
    (hopens : token ∉ [.lParen, .lBrace, .colonColon])
    (hlt : tree.endsInCast = true → token ≠ .lt) : tree.Follows ⟨token :: rest, pending⟩ where
  prec := hprec
  lParen := by simp_all [Cursor.check, Cursor.current]
  lBrace := by simp_all [Cursor.check, Cursor.current]
  colonColon := by simp_all [Cursor.check, Cursor.current]
  lt hcast := by simp [Cursor.check, Cursor.current, hlt hcast]

/-- What may follow a tree ends the operand at its end. -/
theorem ReadsOn.last {last : Tree} (h : last.ReadsOn env) {precedence : Nat} {rest : List Token}
    (hlevel : precedence < last.leftLevel) (hfollows : tree.Follows ⟨rest, pending⟩)
    (hright : tree.rightLevel ≤ min precedence last.rightLevel)
    (hcast : last.endsInCast = tree.endsInCast) :
    Reads (parseExprPrec env · precedence) pending (last.tokens ++ rest) last.toExpr rest := by
  obtain ⟨hstop, hlast⟩ := Nat.le_min.mp (Nat.le_trans hfollows.prec hright)
  exact h.operand hlevel ⟨hlast, hfollows.lParen, hfollows.lBrace, hfollows.colonColon,
    fun hends => hfollows.lt (hcast ▸ hends)⟩ hstop

theorem ReadsOn.of_begin (h : ∀ rest pending, tree.Follows ⟨rest, pending⟩ →
      Reads (parsePrefix env) pending (tree.tokens ++ rest) tree.toExpr rest) :
    tree.ReadsOn env :=
  fun _ rest pending _ _ hfollows hloop =>
    .call (fun fuel => by rw [parseExprPrec]) ((h rest pending hfollows).bind hloop)

/-- A tree that begins with an operand: the operator behind the operand is taken, and the
loop goes on behind what it builds. -/
theorem ReadsOn.of_operator {left : Tree} {token : Token} {more : List Token}
    (hleft : left.ReadsOn env) (htokens : tree.tokens = left.tokens ++ token :: more)
    (hprec : getInfixPrecedence token ≤ left.rightLevel)
    (hopens : token ∉ [.lParen, .lBrace, .colonColon])
    (hlt : left.endsInCast = true → token ≠ .lt)
    (hlevel : tree.leftLevel = min (getInfixPrecedence token) left.leftLevel)
    (hstep : ∀ rest pending, tree.Follows ⟨rest, pending⟩ →
      Settles (fun fuel => parseInfix env fuel left.toExpr (getInfixPrecedence token)
        ⟨token :: (more ++ rest), pending⟩) (.ok (tree.toExpr, ⟨rest, pending⟩))) :
    tree.ReadsOn env := by
  intro precedence rest pending result hbelow hfollows hloop
  rw [hlevel] at hbelow
  obtain ⟨htoken, hbelow⟩ := Nat.lt_min.mp hbelow
  have hgoes : ¬ Cursor.nextPrec ⟨token :: (more ++ rest), pending⟩ ≤ precedence :=
    Nat.not_le_of_lt htoken
  rw [htokens, append_assoc, cons_append]
  apply hleft _ _ _ _ hbelow (.operator hprec hopens hlt)
  exact .call (fun fuel => by rw [infixLoop, if_neg hgoes]; rfl)
    ((hstep rest pending hfollows).bind hloop)

theorem readsOn (tree : Tree) (hlevelled : tree.Levelled)
    (hreadable : tree.Readable env.targetPointerWidth) : tree.ReadsOn env := by
  induction tree with
  | path first segments =>
    exact .of_begin fun rest pending hfollows =>
      settles_path env first segments hfollows.colonColon hfollows.lBrace hfollows.lParen
  | selfValue =>
    exact .of_begin fun rest pending _ => .of_rounds 1 fun _ => rfl
  | int literal =>
    exact .of_begin fun rest pending _ => settles_literal env literal hreadable rest pending
  | binary op left right ihl ihr =>
    obtain ⟨hleft, hleftLevelled, hright, hrightLevelled⟩ := hlevelled
    obtain ⟨hcast, hleftReadable, hrightReadable⟩ := hreadable
    refine .of_operator (ihl hleftLevelled hleftReadable) rfl hleft (by cases op <;> decide) ?_ rfl
      fun rest pending hfollows => ?_
    · intro hends htoken
      have hlt : op = .lt := by cases op <;> first | rfl | cases htoken
      rw [hcast hlt] at hends
      cases hends
    · have hread := (ihr hrightLevelled hrightReadable).last hright hfollows (Nat.le_refl _) rfl
      cases op <;> exact .call (fun fuel => by rw [parseInfix]; rfl) (hread.bind (.const _))
  | unary op operand ih =>
    obtain ⟨hlevel, hlevelled⟩ := hlevelled
    obtain ⟨hfold, hreadable⟩ := hreadable
    refine .of_begin fun rest pending hfollows => ?_
    rw [tokens, append_assoc]
    refine settles_unary env op (fun hneg => ?_) (head_tokens_ne (by decide)
      (fun _ _ => rfl) rest) ((ih hlevelled hreadable).last hlevel hfollows (Nat.le_refl _) rfl)
    obtain ⟨token, more, htokens, -⟩ := operand.tokens_begin
    have hhead := hfold hneg
    rw [htokens] at hhead ⊢
    exact hhead
  | await operand ih =>
    obtain ⟨hlevel, hlevelled⟩ := hlevelled
    exact .of_begin fun rest pending hfollows =>
      settles_await env ((ih hlevelled hreadable).last hlevel hfollows (Nat.le_refl _) rfl)
  | assign target value iht ihv =>
    obtain ⟨htarget, htargetLevelled, hvalue, hvalueLevelled⟩ := hlevelled
    refine .of_operator (iht htargetLevelled hreadable.1) rfl htarget (by decide) (fun _ => by decide)
      rfl fun rest pending hfollows => ?_
    have hread := (ihv hvalueLevelled hreadable.2).last hvalue hfollows (Nat.zero_le _) rfl
    exact .call (fun fuel => by rw [parseInfix]; rfl) (hread.bind (.const _))
  | assignOp op target value iht ihv =>
    obtain ⟨htarget, htargetLevelled, hvalue, hvalueLevelled⟩ := hlevelled
    have hprec : getInfixPrecedence op.token = precAssign := by cases op <;> rfl
    refine .of_operator (iht htargetLevelled hreadable.1) rfl (hprec ▸ htarget)
      (by cases op <;> decide) (fun _ => by cases op <;> decide) (hprec ▸ rfl)
      fun rest pending hfollows => ?_
    have hread := (ihv hvalueLevelled hreadable.2).last hvalue hfollows (Nat.zero_le _) rfl
    cases op <;> exact .call (fun fuel => by rw [parseInfix]; rfl) (hread.bind (.const _))
  | range start stop inclusive ihl ihr =>
    obtain ⟨hstart, hstartLevelled, hstop, hstopLevelled⟩ := hlevelled
    obtain ⟨rfl, hand, hstartReadable, hstopReadable⟩ := hreadable
    refine .of_operator (ihl hstartLevelled hstartReadable) rfl hstart (by decide)
      (fun _ => by decide) rfl fun rest pending hfollows => ?_
    have hbegin : Cursor.checkExpr ⟨stop.tokens ++ rest, pending⟩ = true := by
      obtain ⟨token, more, htokens, hbegin⟩ := stop.tokens_begin
      rw [htokens] at hand ⊢
      exact hbegin.resolve_right (fun heq => hand (congrArg some heq)) _ _
    exact settles_range env _ hbegin
      ((ihr hstopLevelled hstopReadable).last hstop hfollows (Nat.le_refl _) rfl)
  | field base member ih =>
    exact .of_operator (ih hlevelled.2 hreadable) rfl hlevelled.1 (by decide) (fun _ => by decide) rfl
      fun rest pending hfollows => settles_field env _ member _ hfollows.lParen
  | index base position ih ihp =>
    obtain ⟨hbase, hbaseLevelled, hposition, hpositionLevelled⟩ := hlevelled
    refine .of_operator (ih hbaseLevelled hreadable.1) rfl hbase (by decide) (fun _ => by decide) rfl
      fun rest pending hfollows => ?_
    have hclose : position.Follows ⟨.rBracket :: rest, pending⟩ :=
      .operator (Nat.zero_le _) (by decide) fun _ => by decide
    have hread := (ihp hpositionLevelled hreadable.2).operand hposition hclose (Nat.le_refl 0)
    rw [append_assoc]
    exact .call (fun fuel => by rw [parseInfix]; rfl) (hread.bind (.const _))
  | «try» base ih =>
    exact .of_operator (ih hlevelled.2 hreadable) rfl hlevelled.1 (by decide) (fun _ => by decide) rfl
      fun _ _ _ => .of_rounds 1 fun fuel => by rw [parseInfix]; rfl
  | cast expr first segments ih =>
    refine .of_operator (ih hlevelled.2 hreadable) rfl hlevelled.1 (by decide) (fun _ => by decide) rfl
      fun rest pending hfollows => ?_
    have hread := settles_parseType env first segments hfollows.colonColon (hfollows.lt rfl)
    exact .call (fun fuel => by rw [parseInfix]; rfl) (hread.bind (.const _))
  | paren inner ih =>
    refine .of_begin fun rest pending hfollows => ?_
    have hclose : inner.Follows ⟨.rParen :: rest, pending⟩ :=
      .operator (Nat.zero_le _) (by decide) fun _ => by decide
    rw [tokens, cons_append, append_assoc]
    exact settles_paren env (head_tokens_ne (by decide) (fun _ _ => rfl) _)
      ((ih hlevelled.2 hreadable).operand hlevelled.1 hclose (Nat.le_refl 0))

end

/-- Nothing follows at the end. -/
theorem follows_end (tree : Tree) (pending : Nat) : tree.Follows ⟨[], pending⟩ :=
  ⟨Nat.zero_le _, rfl, rfl, rfl, fun _ => rfl⟩

end Tree

/-- The print of a tree is read to its last token and up to its parentheses. -/
theorem exists_parseExpr_tokens {β : Type} (env : Env β) (tree : Tree)
    (h : tree.grouped.Readable env.targetPointerWidth) :
    ∃ expr, Settles (fun fuel => parseExpr env fuel ⟨tree.grouped.tokens, 0⟩)
      (.ok (expr, ⟨[], 0⟩)) ∧ expr.strip = tree.toExpr.strip := by
  have hfits := tree.fits_grouped
  have hread := (tree.grouped.readsOn hfits.levelled h).operand (hfits.left_pos false)
    (tree.grouped.follows_end 0) (Nat.zero_le _)
  rw [append_nil] at hread
  exact ⟨tree.grouped.toExpr, hread, tree.strip_grouped⟩

end Sengoo.Parser
