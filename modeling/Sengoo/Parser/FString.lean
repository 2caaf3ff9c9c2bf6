import Sengoo.Utf8
import Sengoo.Parser.Lexer

/-!
Interpolated strings: the lexer callback that scans the body behind the
opening `f` and quote, the decoding of escapes, the format template the body
becomes, and the scanner the textual expanders use to step over such a
literal. The byte cursors of the source are the bytes still to come.
-/

namespace Sengoo.Parser

open Utf8

def backslash : Char := Char.ofNat 92

def openBrace : Char := Char.ofNat 123

def closeBrace : Char := Char.ofNat 125

def newline : Char := Char.ofNat 10

/-! ### Escapes -/

def digitInBase (base : Nat) (c : Char) : Option Nat :=
  let value :=
    if c.isDigit then some (c.toNat - '0'.toNat)
    else if 'a' ≤ c && c ≤ 'z' then some (c.toNat - 'a'.toNat + 10)
    else if 'A' ≤ c && c ≤ 'Z' then some (c.toNat - 'A'.toNat + 10)
    else none
  value.filter (· < base)

/-- The digits behind a plus sign, which may be left out. -/
def stripPlus : List Char → List Char
  | [] => []
  | c :: rest => if c = '+' then rest else c :: rest

def radixNumber (base : Nat) (digits : List Char) : Option Nat :=
  digits.foldlM (fun value c => (digitInBase base c).map (value * base + ·)) 0

/-- `from_str_radix` of an unsigned type with values below the bound. -/
def fromStrRadix (base bound : Nat) (text : List Char) : Option Nat :=
  if (stripPlus text).isEmpty then none
  else (radixNumber base (stripPlus text)).filter (· < bound)

/-- The character of `\x` and two characters; anything but a byte in
hexadecimal is the null character. -/
def hexChar (first second : Char) : Char :=
  Char.ofNat ((fromStrRadix 16 256 [first, second]).getD 0)

/-- The character of a code between braces, if it is one. -/
def codeChar (code : List Char) : List Char :=
  match fromStrRadix 16 (2 ^ 32) code with
  | some value => if value.isValidChar then [Char.ofNat value] else []
  | none => []

/-- The escapes of one character behind the backslash. -/
def simpleEscape (c : Char) : Option Char :=
  if c = 'n' then some newline
  else if c = 't' then some (Char.ofNat 9)
  else if c = 'r' then some (Char.ofNat 13)
  else if c = '0' then some (Char.ofNat 0)
  else if c = backslash then some backslash
  else if c = quote then some quote
  else if c = apostrophe then some apostrophe
  else none

/-- Where the loop of `unescape_string` stands between two characters. -/
inductive EscapeState where
  | text
  | escape
  | hexFirst
  | hexSecond (first : Char)
  | unicodeOpen
  | unicode (code : List Char)

/-- What a character adds to the result, and where the loop stands behind it. -/
def escapeStep : EscapeState → Char → List Char × EscapeState
  | .text, c => if c = backslash then ([], .escape) else ([c], .text)
  | .escape, c =>
    match simpleEscape c with
    | some d => ([d], .text)
    | none =>
      if c = 'x' then ([], .hexFirst)
      else if c = 'u' then ([], .unicodeOpen)
      else ([backslash, c], .text)
  | .hexFirst, c => ([], .hexSecond c)
  | .hexSecond first, c => ([hexChar first c], .text)
  -- a character other than the brace is consumed and dropped
  | .unicodeOpen, c => if c = openBrace then ([], .unicode []) else ([], .text)
  | .unicode code, c =>
    if c = closeBrace then (codeChar code, .text) else ([], .unicode (code ++ [c]))

/-- What the end of the text adds; missing hexadecimal digits are zeros. -/
def escapeEnd : EscapeState → List Char
  | .text => []
  | .escape => [backslash]
  | .hexFirst => [hexChar '0' '0']
  | .hexSecond first => [hexChar first '0']
  | .unicodeOpen => []
  | .unicode code => codeChar code

def unescape : EscapeState → List Char → List Char
  | state, [] => escapeEnd state
  | state, c :: rest => (escapeStep state c).1 ++ unescape (escapeStep state c).2 rest

def unescapeString (s : List Char) : List Char := unescape .text s

/-! ### Interpolations -/

/-- Stepping over a quoted literal from behind its opening quote; both
scanners do it this way. The result is what follows the closing quote. -/
def quotedRest (close : UInt8) : List UInt8 → Option (List UInt8)
  | [] => none
  | [b] => if b = 92 then none else if b = 10 then none else if b = close then some [] else none
  | b :: next :: rest =>
    if b = 92 then quotedRest close rest
    else if b = 10 then none
    else if b = close then some (next :: rest)
    else quotedRest close (next :: rest)

/-- Stepping over an interpolation from behind its opening brace up to and
over the closing one. Every round takes a byte. -/
def interpolationRest : Nat → Nat → List UInt8 → Option (List UInt8)
  | 0, _, _ => none
  | _ + 1, _, [] => none
  | fuel + 1, depth, b :: rest =>
    if b = 125 then
      match depth with
      | 0 => some rest
      | depth + 1 => interpolationRest fuel depth rest
    else if b = 123 then interpolationRest fuel (depth + 1) rest
    else if b = 34 ∨ b = 39 then
      match quotedRest b rest with
      | some rest => interpolationRest fuel depth rest
      | none => none
    else if b = 10 then none
    else interpolationRest fuel depth rest

/-- `scan_interpolation_end` with `skip_fstring_quoted`. -/
def scanInterpolationEnd (rest : List UInt8) : Option (List UInt8) :=
  interpolationRest (rest.length + 1) 0 rest

/-- `skip_interpolation` with `skip_quoted`. -/
def skipInterpolation (rest : List UInt8) : Option (List UInt8) :=
  interpolationRest (rest.length + 1) 0 rest

/-! ### The lexer callback -/

structure FStringLiteral where
  template : List Char
  interpolations : List (UInt32 × UInt32)
deriving DecidableEq

def fstringPrefixLen : Nat := 2

/-- What the source cannot go on from: a slice that does not begin between two
characters. `outOfFuel` is the bound of the loop in the model. -/
inductive ScanPanic where
  | sliceOffBoundary
  | outOfFuel
deriving DecidableEq

/-- The loop of `scan_fstring_body`, with the number of bytes of the whole
remainder and the characters from the current position on. -/
def scanFstringLoop (total : Nat) : Nat → List Char → List (UInt32 × UInt32) → List Char →
    Except ScanPanic (Option (FStringLiteral × Nat))
  | 0, _, _, _ => .error .outOfFuel
  | _ + 1, _, _, [] => .ok none
  | fuel + 1, raw, spans, c :: rest =>
    let i := total - size (c :: rest)
    if c = quote then .ok (some (⟨unescapeString raw, spans⟩, i + 1))
    else if c = newline then .ok none
    else if c = backslash then
      match rest with
      | [] => scanFstringLoop total fuel (raw ++ [backslash]) spans []
      | d :: rest => scanFstringLoop total fuel (raw ++ [backslash, d]) spans rest
    else if c = openBrace ∧ rest.head? = some openBrace then
      scanFstringLoop total fuel (raw ++ [openBrace, openBrace]) spans rest.tail
    else if c = closeBrace ∧ rest.head? = some closeBrace then
      scanFstringLoop total fuel (raw ++ [closeBrace, closeBrace]) spans rest.tail
    else if c = openBrace then
      match scanInterpolationEnd (bytes rest) with
      | none => .ok none
      | some behind =>
        let exprLo := i + 1
        let exprHi := total - behind.length - 1
        match afterBytes rest (exprHi + 1 - exprLo) with
        | none => .error .sliceOffBoundary
        | some rest =>
          scanFstringLoop total fuel (raw ++ [openBrace, closeBrace])
            (spans ++ [(UInt32.ofNat (exprLo + fstringPrefixLen),
              UInt32.ofNat (exprHi + fstringPrefixLen))]) rest
    else scanFstringLoop total fuel (raw ++ [c]) spans rest

/-- `scan_fstring_body`: the literal and the number of bytes consumed. -/
def scanFstringBody (remainder : List Char) : Except ScanPanic (Option (FStringLiteral × Nat)) :=
  scanFstringLoop (size remainder) (remainder.length + 1) [] [] remainder

/-! ### The scanner of the textual expanders -/

def isIdentByte (b : UInt8) : Bool := isIdentContinue (Char.ofNat b.toNat)

/-- The loop of `skip_fstring_literal`; the result is what follows the closing
quote. -/
def skipFstringLoop : Nat → List UInt8 → Option (List UInt8)
  | 0, _ => none
  | _ + 1, [] => none
  | fuel + 1, b :: rest =>
    if b = 34 then some rest
    else if b = 10 then none
    else if b = 92 then skipFstringLoop fuel rest.tail
    else if b = 123 ∧ rest.head? = some 123 then skipFstringLoop fuel rest.tail
    else if b = 123 then
      match skipInterpolation rest with
      | some rest => skipFstringLoop fuel rest
      | none => none
    else skipFstringLoop fuel rest

/-- `skip_fstring_literal`: the index behind the literal that starts at the
index, if one does. -/
def skipFstringLiteral (source : List UInt8) (start : Nat) : Option Nat :=
  if source[start]? = some 102 ∧ source[start + 1]? = some 34 then
    if 0 < start ∧ (source[start - 1]?).any isIdentByte then none
    else
      let rest := source.drop (start + 2)
      (skipFstringLoop (rest.length + 1) rest).map fun behind => source.length - behind.length
  else none

/-! ### Format templates -/

inductive FormatStyle where
  | display
  | debug
deriving DecidableEq

inductive FormatAlign where
  | none
  | right
deriving DecidableEq

structure FormatPlaceholder where
  position : Option Nat
  style : FormatStyle
  align : FormatAlign
  width : Option Nat
  precision : Option Nat
deriving DecidableEq

inductive FormatSegment where
  | literal (text : List Char)
  | placeholder (placeholder : FormatPlaceholder)
deriving DecidableEq

inductive FormatTemplateError where
  | unmatchedBrace
  | unsupportedSpec (body : List Char)
deriving DecidableEq

def displayPlaceholder : FormatPlaceholder := ⟨none, .display, .none, none, none⟩

def parseUsize (text : List Char) : Option Nat := fromStrRadix 10 (2 ^ 64) text

/-- The text before and behind the first separator. -/
def splitOnce (separator : Char) : List Char → Option (List Char × List Char)
  | [] => none
  | c :: rest =>
    if c = separator then some ([], rest)
    else (splitOnce separator rest).map fun parts => (c :: parts.1, parts.2)

/-- A number, or the error that names the whole body. -/
def expectUsize (body text : List Char) : Except FormatTemplateError Nat :=
  match parseUsize text with
  | some n => .ok n
  | none => .error (.unsupportedSpec body)

/-- The part of a specification before the precision. -/
def parseWidth (body : List Char) (placeholder : FormatPlaceholder) :
    List Char → Except FormatTemplateError FormatPlaceholder
  | [] => .ok placeholder
  | c :: width =>
    if c = '>' then do
      let n ← expectUsize body width
      pure { placeholder with align := .right, width := some n }
    else .error (.unsupportedSpec body)

/-- A specification that is neither empty nor the question mark. -/
def parseSpec (body : List Char) (placeholder : FormatPlaceholder) (spec : List Char) :
    Except FormatTemplateError FormatPlaceholder :=
  match splitOnce '.' spec with
  | none => parseWidth body placeholder spec
  | some (mainSpec, precision) => do
      let n ← expectUsize body precision
      parseWidth body { placeholder with precision := some n } mainSpec

/-- The position and the specification of a placeholder. -/
def placeholderParts (body : List Char) : List Char × List Char :=
  (splitOnce ':' body).getD (body, [])

def parsePosition (body position : List Char) : Except FormatTemplateError FormatPlaceholder :=
  if position.isEmpty then .ok displayPlaceholder
  else do
    let n ← expectUsize body position
    pure { displayPlaceholder with position := some n }

def parsePlaceholderBody (body : List Char) : Except FormatTemplateError FormatPlaceholder := do
  let placeholder ← parsePosition body (placeholderParts body).1
  if (placeholderParts body).2.isEmpty then pure placeholder
  else if (placeholderParts body).2 = ['?'] then pure { placeholder with style := .debug }
  else parseSpec body placeholder (placeholderParts body).2

/-- Literal text becomes a segment when there is any. -/
def flushLiteral (literal : List Char) (segments : List FormatSegment) : List FormatSegment :=
  if literal.isEmpty then segments else segments ++ [.literal literal]

/-- The loop of `parse_format_template`; inside a placeholder the body read so
far is kept. -/
def parseTemplateLoop (segments : List FormatSegment) (literal : List Char) :
    Option (List Char) → List Char → Except FormatTemplateError (List FormatSegment)
  | none, [] => .ok (flushLiteral literal segments)
  | some _, [] => .error .unmatchedBrace
  | some body, c :: rest =>
    if c = closeBrace then
      match parsePlaceholderBody body with
      | .error e => .error e
      | .ok placeholder =>
        parseTemplateLoop (flushLiteral literal segments ++ [.placeholder placeholder]) [] none rest
    else parseTemplateLoop segments literal (some (body ++ [c])) rest
  | none, [c] =>
    if c = openBrace ∨ c = closeBrace then .error .unmatchedBrace
    else parseTemplateLoop segments (literal ++ [c]) none []
  | none, c :: d :: rest =>
    if c = openBrace then
      if d = openBrace then parseTemplateLoop segments (literal ++ [openBrace]) none rest
      else parseTemplateLoop segments literal (some []) (d :: rest)
    else if c = closeBrace then
      if d = closeBrace then parseTemplateLoop segments (literal ++ [closeBrace]) none rest
      else .error .unmatchedBrace
    else parseTemplateLoop segments (literal ++ [c]) none (d :: rest)

def parseFormatTemplate (template : List Char) :
    Except FormatTemplateError (List FormatSegment) :=
  parseTemplateLoop [] [] none template

/-- The arguments `required_arg_count` has seen so far: how many placeholders
without a position, and one more than the largest position. -/
def countArg (counts : Nat × Nat) : FormatSegment → Nat × Nat
  | .literal _ => counts
  | .placeholder placeholder =>
    match placeholder.position with
    | some position => (counts.1, max counts.2 (position + 1))
    | none => (counts.1 + 1, counts.2)

end Sengoo.Parser
