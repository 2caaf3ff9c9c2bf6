import Sengoo.Parser.Expressions

/-!
The lexer as the token rules define it: at each position the longest match is
taken, a keyword before an identifier of the same length and an integer before
a malformed number. The rules for comments and for quoted literals, and the
value of a float, are a parameter. A character no rule matches is dropped.
-/

namespace Sengoo.Parser

def isBlank (c : Char) : Bool :=
  c = ' ' || c = '\t' || c = '\r' || c = '\n' || c = Char.ofNat 12

def isIdentStart (c : Char) : Bool := c.isAlpha || c = '_'

def isIdentContinue (c : Char) : Bool := c.isAlphanum || c = '_'

def keywords : List (String × Token) :=
  [("def", .other "def"), ("fn", .fnKw), ("class", .other "class"), ("struct", .other "struct"),
    ("enum", .other "enum"), ("impl", .other "impl"), ("trait", .other "trait"),
    ("dyn", .dynKw), ("type", .other "type"), ("const", .constKw), ("static", .other "static"),
    ("let", .other "let"), ("if", .ifKw), ("elif", .other "elif"), ("else", .other "else"),
    ("match", .matchKw), ("case", .other "case"), ("default", .defaultKw), ("for", .forKw),
    ("while", .whileKw), ("loop", .loopKw), ("break", .breakKw), ("continue", .continueKw),
    ("return", .returnKw), ("yield", .yieldKw), ("await", .awaitKw), ("async", .asyncKw),
    ("parallel", .parallelKw), ("import", .other "import"), ("from", .other "from"),
    ("as", .asKw), ("export", .other "export"), ("extern", .other "extern"),
    ("unsafe", .other "unsafe"), ("try", .tryKw), ("except", .other "except"),
    ("finally", .other "finally"), ("raise", .other "raise"), ("throw", .other "throw"),
    ("pub", .other "pub"), ("priv", .other "priv"), ("mut", .mutKw), ("where", .other "where"),
    ("requires", .other "requires"), ("ensures", .other "ensures"), ("Self", .selfKw),
    ("self", .selfLowerKw), ("true", .trueKw), ("false", .falseKw), ("none", .other "none"),
    ("null", .nullKw), ("in", .other "in"), ("is", .other "is"), ("not", .notKw),
    ("and", .andKw), ("or", .orKw), ("pass", .other "pass"), ("_", .underscore)]

/-- The operators and separators, longer ones first. -/
def operators : List (String × Token) :=
  [("<<=", .shlAssign), (">>=", .shrAssign), ("...", .other "..."),
    ("<<", .shl), (">>", .shr), ("&&", .and), ("||", .or), ("==", .eq), ("!=", .notEq),
    ("<=", .le), (">=", .ge), ("+=", .addAssign), ("-=", .subAssign), ("*=", .mulAssign),
    ("/=", .divAssign), ("%=", .modAssign), ("&=", .bitAndAssign), ("|=", .bitOrAssign),
    ("^=", .bitXorAssign), ("::", .colonColon), ("..", .dotDot), ("->", .arrow),
    ("=>", .other "=>"),
    ("+", .plus), ("-", .minus), ("*", .star), ("/", .slash), ("%", .percent), ("&", .bitAnd),
    ("|", .bitOr), ("^", .bitXor), ("~", .bitNot), ("!", .not), ("<", .lt), (">", .gt),
    ("=", .assign), ("(", .lParen), (")", .rParen), ("\x7b", .lBrace), ("\x7d", .rBrace),
    ("[", .lBracket), ("]", .rBracket), (":", .other ":"), (";", .semicolon), (",", .comma),
    (".", .dot), ("@", .other "@"), ("?", .question), ("$", .other "$"), ("#", .other "#")]

/-! ### Numbers -/

def intSuffixes : List String :=
  ["isize", "usize", "i64", "i32", "i16", "i8", "u64", "u32", "u16", "u8"]

/-- The number without the suffix it ends in. -/
def stripIntSuffix (raw : List Char) : List Char :=
  match intSuffixes.find? fun suffix => suffix.toList.isSuffixOf raw with
  | some suffix => raw.take (raw.length - suffix.length)
  | none => raw

/-- Digits in groups separated by single underscores. -/
def digitGroups (isDigit : Char → Bool) : Bool → List Char → Bool
  | afterDigit, [] => afterDigit
  | afterDigit, c :: rest =>
    if isDigit c then digitGroups isDigit true rest
    else c = '_' && afterDigit && digitGroups isDigit false rest

def isHexDigit (c : Char) : Bool :=
  c.isDigit || ('a' ≤ c && c ≤ 'f') || ('A' ≤ c && c ≤ 'F')

/-- The base of a number and its digits behind the mark of the base. -/
def radixDigits : List Char → Nat × List Char
  | '0' :: 'b' :: rest => (2, rest)
  | '0' :: 'o' :: rest => (8, rest)
  | '0' :: 'x' :: rest => (16, rest)
  | digits => (10, digits)

def radixDigit (base : Nat) (c : Char) : Bool :=
  if base = 2 then c = '0' || c = '1'
  else if base = 8 then '0' ≤ c && c ≤ '7'
  else if base = 16 then isHexDigit c
  else c.isDigit

/-- One of the four integer rules matches all of the word. -/
def isIntForm (raw : List Char) : Bool :=
  digitGroups (radixDigit (radixDigits (stripIntSuffix raw)).1) false
    (radixDigits (stripIntSuffix raw)).2

def digitValue (c : Char) : Nat :=
  if c.isDigit then c.toNat - '0'.toNat
  else if 'a' ≤ c && c ≤ 'f' then c.toNat - 'a'.toNat + 10
  else c.toNat - 'A'.toNat + 10

def radixValue (base : Nat) (digits : List Char) : Nat :=
  digits.foldl (fun value c => base * value + digitValue c) 0

/-- `parse_int_literal`; a value that does not fit is none. -/
def parseIntLiteral (raw : List Char) : Option UInt64 :=
  let normalized := (stripIntSuffix raw).filter (· ≠ '_')
  let value := radixValue (radixDigits normalized).1 (radixDigits normalized).2
  if value < 2 ^ 64 then some (UInt64.ofNat value) else none

/-- The exponent of a float, if one is written. -/
def exponentLength : List Char → Nat
  | c :: rest =>
    if c = 'e' || c = 'E' then
      let (sign, digits) := match rest with
        | '+' :: more => (1, more)
        | '-' :: more => (1, more)
        | more => (0, more)
      if (digits.head?.any Char.isDigit) then
        1 + sign + groupsLength digits
      else 0
    else 0
  | [] => 0
where
  /-- The longest run of digit groups at the start. -/
  groupsLength : List Char → Nat
    | c :: '_' :: d :: rest =>
      if c.isDigit then
        if d.isDigit then 2 + groupsLength (d :: rest) else 1
      else 0
    | c :: rest => if c.isDigit then 1 + groupsLength rest else 0
    | [] => 0

/-- The length of the float at the start of the input, whose part before the
point is the given word. -/
def floatLength (word input : List Char) : Option Nat :=
  match input.drop word.length with
  | '.' :: fraction =>
    if digitGroups Char.isDigit false word && fraction.head?.any Char.isDigit then
      let point := exponentLength.groupsLength fraction
      let exponent := exponentLength (fraction.drop point)
      let behind := fraction.drop (point + exponent)
      let suffix := if ['f', '3', '2'].isPrefixOf behind || ['f', '6', '4'].isPrefixOf behind
        then 3 else 0
      some (word.length + 1 + point + exponent + suffix)
    else none
  | _ => none

/-! ### Steps -/

/-- The rules that are not part of the model: for an input that begins with a
comment or a quoted literal, the token and what is left behind it; and the
value of a float. -/
structure LexEnv where
  literal : List Char → Option Token × List Char
  parseFloat : List Char → Option UInt64

def quote : Char := Char.ofNat 34

def apostrophe : Char := Char.ofNat 39

/-- The input begins with a comment, a string, a character or a literal with a
letter in front. -/
def beginsLiteral : List Char → Bool
  | c :: d :: _ =>
    c = quote || c = apostrophe || ((c = 'r' || c = 'b' || c = 'f') && d = quote) ||
      (c = '/' && (d = '/' || d = '*'))
  | [c] => c = quote || c = apostrophe
  | [] => false

def wordToken (word : List Char) : Token :=
  match keywords.find? fun keyword => keyword.1.toList = word with
  | some keyword => keyword.2
  | none => .ident (String.ofList word)

def numberWord (word : List Char) : Token :=
  if isIntForm word then .int (parseIntLiteral word) word else .invalidNumber word

/-- One match at the start of the input. -/
def lexStep (env : LexEnv) : List Char → Option Token × List Char
  | [] => (none, [])
  | c :: rest =>
    let input := c :: rest
    if isBlank c then (none, rest)
    else if beginsLiteral input then env.literal input
    else if isIdentStart c then
      (some (wordToken (input.takeWhile isIdentContinue)), input.dropWhile isIdentContinue)
    else if c.isDigit then
      let word := input.takeWhile isIdentContinue
      match floatLength word input with
      | some length =>
        (some (.float (env.parseFloat (input.take length)) (input.take length)), input.drop length)
      | none => (some (numberWord word), input.dropWhile isIdentContinue)
    else
      match operators.find? fun operator => operator.1.toList.isPrefixOf input with
      | some operator => (some operator.2, input.drop operator.1.length)
      | none => (none, rest)

/-- The tokens of an input; every match takes a character. -/
def lexLoop (env : LexEnv) : Nat → List Char → List Token
  | 0, _ => []
  | _ + 1, [] => []
  | fuel + 1, input =>
    (lexStep env input).1.toList ++ lexLoop env fuel (lexStep env input).2

def tokenize (env : LexEnv) (input : List Char) : List Token :=
  lexLoop env input.length input

/-! ### Names -/

/-- A word the lexer takes for an identifier. -/
def isName (word : List Char) : Bool :=
  word.head?.any isIdentStart && word.all isIdentContinue &&
    !keywords.any fun keyword => keyword.1.toList = word

structure Name where
  text : String
  valid : isName text.toList = true
deriving DecidableEq

end Sengoo.Parser
