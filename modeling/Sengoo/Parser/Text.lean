import Sengoo.Parser.RoundTrip

/-!
The text of a printed tree: the spellings of its tokens with a blank behind
each. The lexer gives back the tokens, so the parser reads the text.
-/

namespace Sengoo.Parser

open Fuel List

/-- The characters of a printed token. -/
def Token.spelling : Token → List Char
  | .ident name => name.toList
  | .int _ raw => raw
  | token =>
    match (keywords ++ operators).find? fun entry => entry.2 = token with
    | some entry => entry.1.toList
    | none => []

def text (tokens : List Token) : List Char :=
  tokens.flatMap fun token => token.spelling ++ [' ']

/-- The lexer takes the spelling for the token when a blank follows. -/
def Lexes (token : Token) : Prop :=
  token.spelling ≠ [] ∧ ∀ (env : LexEnv) (rest : List Char),
    lexStep env (token.spelling ++ ' ' :: rest) = (some token, ' ' :: rest)

variable (env : LexEnv)

/-- A text of such tokens is taken apart into them. -/
theorem lexLoop_text {tokens : List Token} (h : ∀ token ∈ tokens, Lexes token)
    {fuel : Nat} (hfuel : (text tokens).length ≤ fuel) :
    lexLoop env fuel (text tokens) = tokens := by
  induction tokens generalizing fuel with
  | nil => cases fuel <;> rfl
  | cons token tokens ih =>
    obtain ⟨hne, hstep⟩ := h token (mem_cons_self ..)
    obtain ⟨c, word, hword⟩ := exists_cons_of_ne_nil hne
    have htext : text (token :: tokens) = token.spelling ++ ' ' :: text tokens := by
      simp [text]
    rw [htext] at hfuel ⊢
    have hlength : (text tokens).length + 2 ≤ fuel := by
      rw [hword] at hfuel
      simp only [length_cons, length_append] at hfuel
      omega
    obtain ⟨fuel, rfl⟩ := Nat.exists_eq_add_of_le' hlength
    have hloop : lexLoop env (fuel + ((text tokens).length + 2))
        (token.spelling ++ ' ' :: text tokens) =
          token :: lexLoop env (fuel + (text tokens).length + 1) (' ' :: text tokens) := by
      have hs := hstep env (text tokens)
      rw [hword] at hs ⊢
      show (lexStep env _).1.toList ++ lexLoop env _ (lexStep env _).2 = _
      rw [hs]
      rfl
    rw [hloop]
    show token :: lexLoop env (fuel + (text tokens).length) (text tokens) = token :: tokens
    rw [ih (forall_mem_cons.mp h).2 (Nat.le_add_left _ _)]

theorem tokenize_text {tokens : List Token} (h : ∀ token ∈ tokens, Lexes token) :
    tokenize env (text tokens) = tokens :=
  lexLoop_text env h (Nat.le_refl _)

/-! ### Keywords and operators -/

theorem spelling_entry : ∀ entry ∈ keywords ++ operators, entry.2.spelling = entry.1.toList := by
  decide +kernel

variable (rest : List Char)

theorem lexStep_operator : ∀ entry ∈ operators,
      lexStep env (entry.1.toList ++ ' ' :: rest) = (some entry.2, ' ' :: rest) := by
  simp only [operators, forall_mem_cons, not_mem_nil, false_implies, implies_true,
    and_true]
  and_intros <;> rfl

/-! ### Words and numbers -/

variable {c : Char} {word : List Char} {suffix : String}

theorem decide_eq_false_of_isIdentContinue (hc : isIdentContinue c = true) (d : Char)
    (hd : isIdentContinue d = false) : decide (c = d) = false := by
  apply decide_eq_false
  rintro rfl
  rw [hc] at hd
  cases hd

theorem isIdentContinue_of_isIdentStart (h : isIdentStart c = true) : isIdentContinue c = true := by
  simp only [isIdentStart, isIdentContinue, Char.isAlphanum, Bool.or_eq_true] at h ⊢
  exact h.imp_left .inl

theorem isBlank_eq_false (h : isIdentContinue c = true) : isBlank c = false := by
  have hne := decide_eq_false_of_isIdentContinue h
  simp only [isBlank, hne ' ' (by decide), hne '\t' (by decide), hne '\r' (by decide),
    hne '\n' (by decide), hne (Char.ofNat 12) (by decide), Bool.or_false]

theorem takeWhile_word
    (hword : word.all isIdentContinue = true) :
    (word ++ ' ' :: rest).takeWhile isIdentContinue = word := by
  rw [takeWhile_append_of_pos (all_eq_true.mp hword),
    takeWhile_cons_of_neg (by decide), append_nil]

theorem dropWhile_word
    (hword : word.all isIdentContinue = true) :
    (word ++ ' ' :: rest).dropWhile isIdentContinue = ' ' :: rest := by
  rw [dropWhile_append_of_pos (all_eq_true.mp hword),
    dropWhile_cons_of_neg (by decide)]

theorem beginsLiteral_word (hword : (c :: word).all isIdentContinue = true) :
    beginsLiteral (c :: (word ++ ' ' :: rest)) = false := by
  obtain ⟨hc, hword⟩ := Bool.and_eq_true_iff.mp hword
  have hne := decide_eq_false_of_isIdentContinue hc
  -- the character behind the first one is the blank or another one of the word
  obtain ⟨d, more, hmore, hd⟩ : ∃ d more, word ++ ' ' :: rest = d :: more ∧
      decide (d = quote) = false := by
    cases word with
    | nil => exact ⟨' ', rest, rfl, by decide⟩
    | cons d word =>
      have hd := (Bool.and_eq_true_iff.mp hword).1
      exact ⟨d, _, rfl, decide_eq_false_of_isIdentContinue hd quote (by decide)⟩
  rw [hmore]
  show (_ || _ || (_ && decide (d = quote)) || _) = false
  rw [hne quote (by decide), hne apostrophe (by decide), hne '/' (by decide), hd,
    Bool.and_false, Bool.false_and]
  rfl

/-- A word in front of a blank is one token. -/
theorem lexStep_word
    (hbegin : word.head?.any isIdentStart = true) (hword : word.all isIdentContinue = true) :
    lexStep env (word ++ ' ' :: rest) = (some (wordToken word), ' ' :: rest) := by
  cases word with
  | nil => cases hbegin
  | cons c word =>
    have hc : isIdentStart c = true := hbegin
    have htake := takeWhile_word rest hword
    have hdrop := dropWhile_word rest hword
    have hliteral := beginsLiteral_word rest hword
    rw [cons_append] at htake hdrop ⊢
    simp only [lexStep, isBlank_eq_false (isIdentContinue_of_isIdentStart hc), hliteral, hc,
      htake, hdrop, Bool.false_eq_true, if_false, if_true]

theorem lexStep_keyword : ∀ entry ∈ keywords,
      lexStep env (entry.1.toList ++ ' ' :: rest) = (some entry.2, ' ' :: rest) := by
  have hkeywords : ∀ entry ∈ keywords, entry.1.toList.head?.any isIdentStart = true ∧
      entry.1.toList.all isIdentContinue = true ∧ wordToken entry.1.toList = entry.2 := by
    decide +kernel
  intro entry hentry
  obtain ⟨hbegin, hword, htoken⟩ := hkeywords entry hentry
  rw [lexStep_word env rest hbegin hword, htoken]

/-- A token of the tables is lexed back. -/
theorem lexes_fixed {token : Token}
    (h : token ∈ (keywords ++ operators).map Prod.snd := by decide +kernel) : Lexes token := by
  obtain ⟨entry, hentry, rfl⟩ := mem_map.mp h
  have hne : ∀ entry ∈ keywords ++ operators, entry.1.toList ≠ [] := by decide +kernel
  refine ⟨by rw [spelling_entry entry hentry]; exact hne entry hentry, fun env rest => ?_⟩
  rw [spelling_entry entry hentry]
  rcases mem_append.mp hentry with hentry | hentry
  · exact lexStep_keyword env rest entry hentry
  · exact lexStep_operator env rest entry hentry

theorem lexes_name (name : Name) : Lexes (.ident name.text) := by
  have hvalid := name.valid
  simp only [isName, Bool.and_eq_true, Bool.not_eq_true', any_eq_false] at hvalid
  obtain ⟨⟨hbegin, hword⟩, hkeyword⟩ := hvalid
  refine ⟨fun hnil => ?_, fun env rest => ?_⟩
  · rw [show name.text.toList = [] from hnil] at hbegin
    cases hbegin
  · have hfind : (keywords.find? fun keyword => keyword.1.toList = name.text.toList) = none :=
      find?_eq_none.mpr hkeyword
    show lexStep env (name.text.toList ++ ' ' :: rest) = _
    rw [lexStep_word env rest hbegin hword, wordToken, hfind, String.ofList_toList]

theorem intSuffixes_subset : ∀ suffix ∈ intSuffixes, suffix ∈ numericSuffixes := by decide

theorem stripIntSuffix_digits (n : Nat) :
    stripIntSuffix (Nat.toDigits 10 n) = Nat.toDigits 10 n := by
  have hfind : (intSuffixes.find? fun suffix =>
      suffix.toList.isSuffixOf (Nat.toDigits 10 n)) = none := by
    have hnone := find?_eq_none.mp (numericLiteralSuffix_digits n)
    exact find?_eq_none.mpr fun suffix hsuffix =>
      hnone suffix (intSuffixes_subset suffix hsuffix)
  simp only [stripIntSuffix, hfind]

theorem stripIntSuffix_append (n : Nat) (h : suffix ∈ intSuffixes) :
    stripIntSuffix (Nat.toDigits 10 n ++ suffix.toList) = Nat.toDigits 10 n := by
  simp only [stripIntSuffix, find_suffix n intSuffixes_subset h, length_append,
    String.length_toList, Nat.add_sub_cancel, take_left]

theorem radixDigits_digits {digits : List Char} (h : ∀ c ∈ digits, c.isDigit = true) :
    radixDigits digits = (10, digits) := by
  unfold radixDigits
  split
  · exact absurd (h 'b' (by simp)) (by decide)
  · exact absurd (h 'o' (by simp)) (by decide)
  · exact absurd (h 'x' (by simp)) (by decide)
  · rfl

theorem digitGroups_digits {digits : List Char} (h : ∀ c ∈ digits, c.isDigit = true)
    {afterDigit : Bool} (hne : afterDigit = true ∨ digits ≠ []) :
    digitGroups (radixDigit 10) afterDigit digits = true := by
  induction digits generalizing afterDigit with
  | nil => exact hne.resolve_right fun hnil => hnil rfl
  | cons c digits ih =>
    have hc : radixDigit 10 c = true := h c (mem_cons_self ..)
    rw [digitGroups, if_pos hc]
    exact ih (forall_mem_cons.mp h).2 (.inl rfl)

theorem radixValue_digits (n : Nat) : radixValue 10 (Nat.toDigits 10 n) = n := by
  have hvalue : radixValue 10 (Nat.toDigits 10 n) = Nat.ofDigitChars 10 (Nat.toDigits 10 n) 0 := by
    refine foldl_ext _ _ _ fun value c hc => ?_
    simp only [digitValue, isDigit_of_mem_digits hc, if_true]
  rw [hvalue, Nat.ofDigitChars_toDigits (by decide) (by decide)]

/-- A number below the largest unsigned value, with a suffix or without. -/
theorem numberWord_digits {n : Nat} (hn : n < 2 ^ 64)
    (hstrip : stripIntSuffix word = Nat.toDigits 10 n) :
    numberWord word = .int (some (UInt64.ofNat n)) word := by
  have hdigits : ∀ c ∈ Nat.toDigits 10 n, c.isDigit = true := fun c => isDigit_of_mem_digits
  have hform : isIntForm word = true := by
    rw [isIntForm, hstrip, radixDigits_digits hdigits]
    exact digitGroups_digits hdigits (.inr Nat.toDigits_ne_nil)
  have hfilter : (Nat.toDigits 10 n).filter (· ≠ '_') = Nat.toDigits 10 n := by
    refine filter_eq_self.mpr fun c hc => decide_eq_true ?_
    rintro rfl
    exact absurd (hdigits _ hc) (by decide)
  have hvalue : parseIntLiteral word = some (UInt64.ofNat n) := by
    simp only [parseIntLiteral, hstrip, hfilter, radixDigits_digits hdigits, radixValue_digits,
      hn, if_true]
  rw [numberWord, if_pos hform, hvalue]

theorem isIdentContinue_of_isDigit (h : c.isDigit = true) : isIdentContinue c = true := by
  simp [isIdentContinue, Char.isAlphanum, h]

theorem isIdentStart_eq_false_of_isDigit (h : c.isDigit = true) : isIdentStart c = false := by
  have hne : c ≠ '_' := by
    rintro rfl
    exact absurd h (by decide)
  simp only [Char.isDigit, Bool.and_eq_true, decide_eq_true_eq, ge_iff_le,
    UInt32.le_iff_toNat_le] at h
  change (decide (c.val ≥ 65 ∧ c.val ≤ 90) ||
    decide (c.val ≥ 97) && decide (c.val ≤ 122) || decide (c = '_')) = false
  simp only [hne, decide_false, Bool.or_false, Bool.or_eq_false_iff, Bool.and_eq_false_iff,
    decide_eq_false_iff_not, ge_iff_le, UInt32.le_iff_toNat_le]
  have hnine : c.val.toNat ≤ 57 := h.2
  have hupper : ¬ 65 ≤ c.val.toNat := by omega
  have hlower : ¬ 97 ≤ c.val.toNat := by omega
  exact ⟨fun h => hupper h.1, .inl hlower⟩

theorem lexStep_number
    (hbegin : word.head?.any Char.isDigit = true) (hword : word.all isIdentContinue = true) :
    lexStep env (word ++ ' ' :: rest) = (some (numberWord word), ' ' :: rest) := by
  cases word with
  | nil => cases hbegin
  | cons c word =>
    have hc : c.isDigit = true := hbegin
    have hstart := isIdentStart_eq_false_of_isDigit hc
    have htake := takeWhile_word rest hword
    have hdrop := dropWhile_word rest hword
    have hliteral := beginsLiteral_word rest hword
    have hfloat : floatLength (c :: word) (c :: word ++ ' ' :: rest) = none := by
      rw [floatLength, drop_left]
      rfl
    rw [cons_append] at htake hdrop hfloat ⊢
    simp only [lexStep, isBlank_eq_false (isIdentContinue_of_isDigit hc), hliteral, hstart, hc,
      htake, hdrop, hfloat, Bool.false_eq_true, if_false, if_true]

theorem lexes_number {n : Nat} (hn : n < 2 ^ 64)
    (h : suffix = "" ∨ suffix ∈ intSuffixes) : Lexes (numberToken n suffix) := by
  have hstrip : stripIntSuffix (Nat.toDigits 10 n ++ suffix.toList) = Nat.toDigits 10 n := by
    rcases h with rfl | h
    · simpa using stripIntSuffix_digits n
    · exact stripIntSuffix_append n h
  have hsuffix : suffix.toList.all isIdentContinue = true := by
    rcases h with rfl | h
    · rfl
    · exact (show ∀ suffix ∈ intSuffixes, suffix.toList.all isIdentContinue = true by decide)
        suffix h
  obtain ⟨c, digits, hdigits⟩ := exists_cons_of_ne_nil (Nat.toDigits_ne_nil (n := n) (b := 10))
  have hword : (Nat.toDigits 10 n ++ suffix.toList).all isIdentContinue = true := by
    rw [all_append, hsuffix, Bool.and_true]
    exact all_eq_true.mpr fun d hd => isIdentContinue_of_isDigit (isDigit_of_mem_digits hd)
  have hbegin : (Nat.toDigits 10 n ++ suffix.toList).head?.any Char.isDigit = true := by
    rw [hdigits]
    exact isDigit_of_mem_digits (n := n) (hdigits ▸ mem_cons_self ..)
  refine ⟨fun hnil => ?_, fun env rest => ?_⟩
  · rw [show Nat.toDigits 10 n ++ suffix.toList = [] from hnil] at hbegin
    cases hbegin
  · show lexStep env (Nat.toDigits 10 n ++ suffix.toList ++ ' ' :: rest) = _
    rw [lexStep_number env rest hbegin hword, numberWord_digits hn hstrip]
    rfl

/-! ### Printed trees -/

theorem lexes_pathTokens (first : Name) (rest : List Name) :
    ∀ token ∈ pathTokens first rest, Lexes token := by
  intro token htoken
  simp only [pathTokens, mem_cons, mem_flatMap, not_mem_nil, or_false] at htoken
  rcases htoken with rfl | ⟨segment, -, rfl | rfl⟩
  · exact lexes_name first
  · exact lexes_fixed
  · exact lexes_name segment

theorem lexes_signedTokens (value : Int64)
    (h : suffix = "" ∨ suffix ∈ intSuffixes) :
    ∀ token ∈ signedTokens value suffix, Lexes token := by
  have hlow := value.le_toInt
  have hhigh := value.toInt_lt
  have hnumber : Lexes (numberToken value.toInt.natAbs suffix) := lexes_number (by omega) h
  rw [signedTokens]
  split
  · exact forall_mem_cons.mpr ⟨lexes_fixed, forall_mem_singleton.mpr hnumber⟩
  · exact forall_mem_singleton.mpr hnumber

theorem lexes_literal (literal : IntLiteral) : ∀ token ∈ literal.tokens, Lexes token := by
  cases literal with
  | plain value => exact lexes_signedTokens value (.inl rfl)
  | signed value suffix =>
    exact lexes_signedTokens value (.inr (by cases suffix <;> decide))
  | unsigned value suffix =>
    exact forall_mem_singleton.mpr
      (lexes_number value.toNat_lt (.inr (by cases suffix <;> decide)))

theorem lexes_member (member : Member) : Lexes member.token := by
  cases member with
  | named name => exact lexes_name name
  | position n => exact lexes_number n.toNat_lt (.inl rfl)

theorem Tree.lexes_tokens (tree : Tree) : ∀ token ∈ tree.tokens, Lexes token := by
  induction tree <;> simp only [tokens, forall_mem_append, forall_mem_cons]
  case path first rest => exact lexes_pathTokens first rest
  case selfValue => exact ⟨lexes_fixed, by simp⟩
  case int literal => exact lexes_literal literal
  case binary op _ _ ihl ihr | assignOp op _ _ ihl ihr =>
    exact ⟨ihl, lexes_fixed (by cases op <;> decide +kernel), ihr⟩
  case unary op operand ih =>
    have hop : ∀ token ∈ op.tokens, Lexes token := fun token htoken =>
      lexes_fixed (by
        revert token
        cases op <;> decide +kernel)
    exact ⟨hop, ih⟩
  case await operand ih => exact ⟨lexes_fixed, ih⟩
  case assign target value iht ihv => exact ⟨iht, lexes_fixed, ihv⟩
  case range start stop inclusive ihl ihr =>
    have hop : ∀ token ∈ rangeTokens inclusive, Lexes token := fun token htoken =>
      lexes_fixed (by
        revert token
        cases inclusive <;> decide +kernel)
    exact ⟨ihl, hop, ihr⟩
  case field base member ih =>
    exact ⟨ih, lexes_fixed, lexes_member member, by simp⟩
  case index base position ih ihp =>
    exact ⟨ih, lexes_fixed, ihp, lexes_fixed, by simp⟩
  case «try» base ih => exact ⟨ih, lexes_fixed, by simp⟩
  case cast expr first rest ih =>
    exact ⟨ih, lexes_fixed, lexes_pathTokens first rest⟩
  case paren inner ih =>
    exact ⟨lexes_fixed, ih, lexes_fixed, by simp⟩

/-- A tree as text, with parentheses where the precedence table asks for them. -/
def Tree.print (tree : Tree) : List Char := text tree.grouped.tokens

/-- `parse_expr` on a text. -/
def parseText {β : Type} (lexEnv : LexEnv) (env : Env β) (input : List Char) (fuel : Nat) :
    Except ParseError (Expr β × Cursor) :=
  parseExpr env fuel ⟨tokenize lexEnv input, 0⟩

/-- Parsing the print consumes all of it and returns the tree up to its
parentheses. -/
def ReadsBack {β : Type} (lexEnv : LexEnv) (env : Env β) (tree : Tree) : Prop :=
  ∃ expr, Settles (parseText lexEnv env tree.print) (.ok (expr, ⟨[], 0⟩)) ∧
    expr.strip = tree.toExpr.strip

theorem parseText_print {β : Type} (lexEnv : LexEnv) (env : Env β) (tree : Tree) :
    parseText lexEnv env tree.print = fun fuel => parseExpr env fuel ⟨tree.grouped.tokens, 0⟩ := by
  funext fuel
  rw [parseText, Tree.print, tokenize_text lexEnv tree.grouped.lexes_tokens]

/-- Parsing follows the precedence table: every tree, printed with the
parentheses the table asks for, is read back, unless the print has one of the
spellings `Readable` leaves out. -/
theorem parseText_follows_precedence {β : Type} (lexEnv : LexEnv) (env : Env β) (tree : Tree)
    (h : tree.grouped.Readable env.targetPointerWidth) : ReadsBack lexEnv env tree := by
  rw [ReadsBack, parseText_print]
  exact exists_parseExpr_tokens env tree h

/-! ### The spellings left out -/

/-- Rules for texts without comments and quoted literals, and nothing outside
the expressions of the model. -/
def plainLexEnv : LexEnv := ⟨fun input => (none, input.tail), fun _ => none⟩

def plainEnv : Env Unit :=
  ⟨64, false, fun _ _ => .error (.outside "construct"), fun _ => .error (.outside "bounds")⟩

def nameA : Name := ⟨"a", by decide⟩

def nameB : Name := ⟨"b", by decide⟩

/-- Subtraction, multiplication, a negated operand and a cast without
parentheses, a right operand in parentheses, and a chain of assignments. -/
theorem parseText_follows_precedence_mixed :
    ReadsBack plainLexEnv plainEnv
      (.assign (.path nameA []) (.assign (.path nameB [])
        (.binary .sub (.path nameA [])
          (.binary .sub (.cast (.unary .neg (.path nameB [])) nameA [])
            (.binary .mul (.int (.plain 2)) (.path nameB [])))))) :=
  parseText_follows_precedence plainLexEnv plainEnv _ (by
    simp [Tree.grouped, Tree.Readable, IntLiteral.InRange, Tree.parenIf, Tree.parenOperand,
      Tree.prec, BinOp.precedence, BinOp.token, getInfixPrecedence, Tree.tokens, pathTokens,
      Tree.beginsWithOperator, Token.foldsMinus])

theorem not_readsBack {tree : Tree} (result : Except ParseError (Expr Unit × Cursor))
    (bound : Nat)
    (h : ∀ fuel, parseExpr plainEnv (fuel + bound) ⟨tree.grouped.tokens, 0⟩ = result)
    (hne : ∀ expr, result = .ok (expr, ⟨[], 0⟩) → expr.strip ≠ tree.toExpr.strip) :
    ¬ ReadsBack plainLexEnv plainEnv tree := by
  rw [ReadsBack, parseText_print]
  rintro ⟨expr, hsettles, hstrip⟩
  exact hne expr ((Settles.of_rounds bound h).unique hsettles) hstrip

/-- The negation of the literal 5 is the literal -5, a comparison of a cast is
no expression, an inclusive range is an assignment and a range up to a
reference a bitwise and. -/
theorem prints_not_read_back :
    ¬ ReadsBack plainLexEnv plainEnv (.unary .neg (.int (.plain 5))) ∧
    ¬ ReadsBack plainLexEnv plainEnv
      (.binary .lt (.cast (.path nameA []) nameA []) (.path nameB [])) ∧
    ¬ ReadsBack plainLexEnv plainEnv (.range (.path nameA []) (.path nameB []) true) ∧
    ¬ ReadsBack plainLexEnv plainEnv
      (.range (.path nameA []) (.unary .ref (.path nameB [])) false) := by
  refine ⟨not_readsBack (.ok (.literal (.int (-5)), ⟨[], 0⟩)) 20 (fun fuel => rfl) ?_,
    not_readsBack (.error .expectedType) 20 (fun fuel => rfl) ?_,
    not_readsBack (.ok (.assign (.range (some (.path ["a"])) none false) (.path ["b"]),
      ⟨[], 0⟩)) 20 (fun fuel => rfl) ?_,
    not_readsBack (.ok (.binary .bitAnd (.range (some (.path ["a"])) none false) (.path ["b"]),
      ⟨[], 0⟩)) 20 (fun fuel => rfl) ?_⟩
  all_goals simp [Tree.toExpr, Expr.strip]

end Sengoo.Parser
