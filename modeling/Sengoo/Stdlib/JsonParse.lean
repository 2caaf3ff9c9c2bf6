import Sengoo.Json.Grammar

/-!
The JSON parser of `runtime_json.c`. A document is a table of nodes that refer to
one another by their position, counted from one; the parser reads bytes and adds
nodes, each container before its children.

The remaining input stands for the position, which is needed only for the offset of
an error. The recursion is on the levels left below the depth limit; the loops are on
a number of rounds that the remaining bytes bound, as every round takes at least one.
-/

namespace Sengoo.Stdlib

open Json

inductive JsonStatus where
  | parse
  | outOfMemory
  | overflow
  | invalidArgument
  | invalidHandle
  | bufferTooSmall
  deriving DecidableEq

structure JsonError where
  status : JsonStatus
  offset : Int
  message : String
  deriving DecidableEq

inductive JsonNode where
  | null
  | bool (value : Bool)
  | number (text : Option Bytes)
  | string (value : Bytes)
  | array (items : List Nat)
  | object (members : List (Bytes × Nat))
  deriving DecidableEq

/-- A document; the two counters and the limit matter for bounded documents only. -/
structure JsonDoc where
  nodes : List JsonNode
  root : Nat
  bounded : Bool
  byteLimit : Nat
  ownedPayload : Nat
  ownedEdges : Nat
  deriving DecidableEq

def jsonMaxBytes : Nat := 1024 * 1024

def jsonMaxDepth : Nat := 64

def jsonMaxNodes : Nat := 4096

def jsonDocAllocate (explicitLimit : Nat) : JsonDoc :=
  ⟨[], 0, explicitLimit != 0, if explicitLimit = 0 then jsonMaxBytes else explicitLimit, 0, 0⟩

def jsonPayloadCharge (doc : JsonDoc) (bytes : Nat) : Except JsonError JsonDoc :=
  if doc.bounded = false then .ok doc
  else if doc.byteLimit - doc.ownedPayload < bytes then
    .error ⟨.overflow, -1, "bounded JSON owned payload limit exceeded"⟩
  else .ok { doc with ownedPayload := doc.ownedPayload + bytes }

def jsonEdgeCharge (doc : JsonDoc) : Except JsonError JsonDoc :=
  if doc.bounded = false then .ok doc
  else if jsonMaxNodes ≤ doc.ownedEdges then
    .error ⟨.overflow, -1, "bounded JSON container link limit exceeded"⟩
  else .ok { doc with ownedEdges := doc.ownedEdges + 1 }

/-- The new node with what is stored in it, and its position. -/
def jsonDocAddNode (doc : JsonDoc) (node : JsonNode) : Except JsonError (Nat × JsonDoc) :=
  if jsonMaxNodes ≤ doc.nodes.length then .error ⟨.parse, -1, "json node limit exceeded"⟩
  else .ok (doc.nodes.length + 1, { doc with nodes := doc.nodes ++ [node] })

def jsonNodeFromId (doc : JsonDoc) (id : Nat) : Option JsonNode :=
  if id = 0 then none else doc.nodes[id - 1]?

def jsonSetNode (doc : JsonDoc) (id : Nat) (node : JsonNode) : JsonDoc :=
  { doc with nodes := doc.nodes.set (id - 1) node }

/-- A child behind the items of an array. -/
def jsonArrayAppend (doc : JsonDoc) (id child : Nat) : Except JsonError JsonDoc :=
  match jsonNodeFromId doc id with
  | some (.array items) => do
      let doc ← jsonEdgeCharge doc
      .ok (jsonSetNode doc id (.array (items ++ [child])))
  | _ => .error ⟨.outOfMemory, -1, "json array allocation failed"⟩

/-- The value of a member replaced, or a new member behind the others. -/
def jsonObjectSetMember (doc : JsonDoc) (id : Nat) (key : Bytes) (child : Nat) :
    Except JsonError JsonDoc :=
  match jsonNodeFromId doc id with
  | some (.object members) =>
    if members.any (fun member => member.1 == key) then
      .ok (jsonSetNode doc id (.object (setMember key child members)))
    else do
      let doc ← jsonPayloadCharge doc key.length
      let doc ← jsonEdgeCharge doc
      .ok (jsonSetNode doc id (.object (setMember key child members)))
  | _ => .error ⟨.outOfMemory, -1, "json object allocation failed"⟩

structure JsonParser where
  len : Nat
  rest : Bytes
  doc : JsonDoc

def JsonParser.pos (parser : JsonParser) : Nat := parser.len - parser.rest.length

def JsonParser.fail {α : Type} (parser : JsonParser) (message : String) : Except JsonError α :=
  .error ⟨.parse, parser.pos, message⟩

def JsonParser.skipWs (parser : JsonParser) : JsonParser :=
  { parser with rest := parser.rest.dropWhile isSpace }

section Strings

def jsonHexValue (c : UInt8) : Option Nat :=
  if byte '0' ≤ c ∧ c ≤ byte '9' then some (c.toNat - 0x30)
  else if byte 'a' ≤ c ∧ c ≤ byte 'f' then some (c.toNat - 0x61 + 10)
  else if byte 'A' ≤ c ∧ c ≤ byte 'F' then some (c.toNat - 0x41 + 10)
  else none

def jsonHex4 : Bytes → Option (Nat × Bytes)
  | a :: b :: c :: d :: rest => do
      let code := 0 <<< 4 ||| (← jsonHexValue a)
      let code := code <<< 4 ||| (← jsonHexValue b)
      let code := code <<< 4 ||| (← jsonHexValue c)
      let code := code <<< 4 ||| (← jsonHexValue d)
      some (code, rest)
  | _ => none

/-- How many bytes follow a first byte, its bits of the code and the least code. -/
def jsonUtf8Lead (c : Nat) : Option (Nat × Nat × Nat) :=
  if 0xc2 ≤ c ∧ c ≤ 0xdf then some (1, c &&& 31, 0x80)
  else if 0xe0 ≤ c ∧ c ≤ 0xef then some (2, c &&& 15, 0x800)
  else if 0xf0 ≤ c ∧ c ≤ 0xf4 then some (3, c &&& 7, 0x10000)
  else none

/-- The code after the following bytes, each with two bits that mark it. -/
def jsonUtf8Code : Nat → Nat → Bytes → Option Nat
  | 0, code, _ => some code
  | _ + 1, _, [] => none
  | tail + 1, code, next :: rest =>
    if next.toNat &&& 0xc0 ≠ 0x80 then none
    else jsonUtf8Code tail (code <<< 6 ||| (next.toNat &&& 63)) rest

/-- The number of bytes that follow the first byte of a well-formed character. -/
def jsonUtf8Tail (c : UInt8) (rest : Bytes) : Option Nat := do
  let (tail, code, minimum) ← jsonUtf8Lead c.toNat
  let code ← jsonUtf8Code tail code rest
  if code < minimum ∨ 0x10ffff < code ∨ (0xd800 ≤ code ∧ code ≤ 0xdfff) then none else some tail

def jsonEncodeScalar (code : Nat) : Bytes :=
  if code < 0x80 then [UInt8.ofNat code]
  else if code < 0x800 then [UInt8.ofNat (0xc0 ||| code >>> 6), UInt8.ofNat (0x80 ||| code &&& 63)]
  else if 0x10000 ≤ code then
    [UInt8.ofNat (0xf0 ||| code >>> 18), UInt8.ofNat (0x80 ||| code >>> 12 &&& 63),
      UInt8.ofNat (0x80 ||| code >>> 6 &&& 63), UInt8.ofNat (0x80 ||| code &&& 63)]
  else
    [UInt8.ofNat (0xe0 ||| code >>> 12), UInt8.ofNat (0x80 ||| code >>> 6 &&& 63),
      UInt8.ofNat (0x80 ||| code &&& 63)]

def jsonSimpleEscape (escaped : UInt8) : Option UInt8 :=
  if escaped = quote then some quote
  else if escaped = backslash then some backslash
  else if escaped = byte '/' then some (byte '/')
  else if escaped = byte 'b' then some 8
  else if escaped = byte 'f' then some 12
  else if escaped = byte 'n' then some (byte '\n')
  else if escaped = byte 'r' then some (byte '\r')
  else if escaped = byte 't' then some (byte '\t')
  else none

/-- The code of a `u` escape, with the low half of a surrogate pair; a failure tells
where the parser stands. -/
def jsonUnicodeEscape (rest : Bytes) : Except Bytes (Nat × Bytes) :=
  match jsonHex4 rest with
  | none => .error rest
  | some (code, after) =>
    if 0xd800 ≤ code ∧ code ≤ 0xdbff then
      match after with
      | b :: u :: after' =>
        if b ≠ backslash ∨ u ≠ byte 'u' then .error after
        else
          match jsonHex4 after' with
          | none => .error after'
          | some (low, last) =>
            if low < 0xdc00 ∨ 0xdfff < low then .error last
            else .ok (0x10000 + (code - 0xd800) <<< 10 + low - 0xdc00, last)
      | _ => .error after
    else if 0xdc00 ≤ code ∧ code ≤ 0xdfff then .error after
    else .ok (code, after)

/-- What one round of the string loop does. -/
inductive StringPiece where
  | close
  | piece (bytes : Bytes)
  deriving DecidableEq

def jsonStringStep (len : Nat) (c : UInt8) (rest : Bytes) :
    Except JsonError (StringPiece × Bytes) :=
  if c = quote then .ok (.close, rest)
  else if c < 0x20 then
    .error ⟨.parse, (len - rest.length : Nat) - 1, "control character in json string"⟩
  else if c ≠ backslash then
    if 0x80 ≤ c then
      match jsonUtf8Tail c rest with
      | none =>
        .error ⟨.parse, (len - rest.length : Nat), "invalid JSON Unicode scalar or escape"⟩
      | some tail => .ok (.piece (c :: rest.take tail), rest.drop tail)
    else .ok (.piece [c], rest)
  else
    match rest with
    | [] => .error ⟨.parse, len, "unterminated json escape"⟩
    | escaped :: rest =>
      if escaped = byte 'u' then
        match jsonUnicodeEscape rest with
        | .error rest =>
          .error ⟨.parse, (len - rest.length : Nat), "invalid JSON Unicode scalar or escape"⟩
        | .ok (code, rest) => .ok (.piece (jsonEncodeScalar code), rest)
      else
        match jsonSimpleEscape escaped with
        | none => .error ⟨.parse, (len - rest.length : Nat) - 1, "invalid json escape"⟩
        | some decoded => .ok (.piece [decoded], rest)

/-- The loop over a string; the builder of a bounded document has a limit. -/
def jsonStringLoop (len limit : Nat) : Nat → Bytes → Bytes → Except JsonError (Bytes × Bytes)
  | 0, rest, _ => .error ⟨.parse, (len - rest.length : Nat), "unterminated json string"⟩
  | _ + 1, [], _ => .error ⟨.parse, len, "unterminated json string"⟩
  | rounds + 1, c :: rest, built => do
      match ← jsonStringStep len c rest with
      | (.close, rest) => .ok (built, rest)
      | (.piece bytes, rest) =>
        if limit ≠ 0 ∧ limit < built.length + bytes.length then
          -- an escape is read before it is built, the bytes of a character one by one
          let unread := if c = backslash then 0 else built.length + bytes.length - limit - 1
          .error ⟨.outOfMemory, (len - rest.length : Nat) - (unread : Int),
            "json string allocation failed"⟩
        else jsonStringLoop len limit rounds rest (built ++ bytes)

def jsonParseStringRaw (parser : JsonParser) : Except JsonError (Bytes × JsonParser) :=
  match parser.rest with
  | [] => parser.fail "expected json string"
  | c :: rest =>
    if c ≠ quote then parser.fail "expected json string"
    else do
      let limit := if parser.doc.bounded then parser.doc.byteLimit else 0
      let (value, rest) ← jsonStringLoop parser.len limit rest.length rest []
      .ok (value, { parser with rest := rest })

end Strings

section Numbers

/-- The digits a part of a number must have, at least one. -/
def jsonSkipDigits (len : Nat) (message : String) (rest : Bytes) : Except JsonError Bytes :=
  match rest with
  | [] => .error ⟨.parse, (len - rest.length : Nat), message⟩
  | d :: _ =>
    if isDigit d = false then .error ⟨.parse, (len - rest.length : Nat), message⟩
    else .ok (rest.dropWhile isDigit)

def jsonSkipFraction (len : Nat) (rest : Bytes) : Except JsonError Bytes :=
  match rest with
  | [] => .ok []
  | b :: after =>
    if b = byte '.' then jsonSkipDigits len "expected json fraction digit" after else .ok rest

def jsonSkipExponent (len : Nat) (rest : Bytes) : Except JsonError Bytes :=
  match rest with
  | [] => .ok []
  | b :: after =>
    if b = byte 'e' ∨ b = byte 'E' then
      match after with
      | [] => jsonSkipDigits len "expected json exponent digit" []
      | sign :: digits =>
        if sign = byte '+' ∨ sign = byte '-' then
          jsonSkipDigits len "expected json exponent digit" digits
        else jsonSkipDigits len "expected json exponent digit" after
    else .ok rest

def jsonSkipInteger (len : Nat) (rest : Bytes) : Except JsonError Bytes :=
  match rest with
  | [] => .error ⟨.parse, len, "expected json number"⟩
  | d :: after =>
    if isDigit d = false then .error ⟨.parse, (len - rest.length : Nat), "expected json number"⟩
    else if d = byte '0' then .ok after
    else .ok (rest.dropWhile isDigit)

def jsonSkipNumber (len : Nat) (rest : Bytes) : Except JsonError Bytes := do
  let rest := match rest with
    | b :: after => if b = byte '-' then after else rest
    | [] => []
  let rest ← jsonSkipInteger len rest
  let rest ← jsonSkipFraction len rest
  jsonSkipExponent len rest

def jsonParseNumber (parser : JsonParser) : Except JsonError (Nat × JsonParser) := do
  let rest ← jsonSkipNumber parser.len parser.rest
  let text := parser.rest.take (parser.rest.length - rest.length)
  let doc ← jsonPayloadCharge parser.doc text.length
  let (id, doc) ← jsonDocAddNode doc (.number (some text))
  .ok (id, { parser with rest := rest, doc := doc })

end Numbers

section Values

/-- How a value is parsed one level further down. -/
abbrev ParseValue := JsonParser → Except JsonError (Nat × JsonParser)

def jsonArrayLoop (parseValue : ParseValue) (id : Nat) :
    Nat → JsonParser → Except JsonError JsonParser
  | 0, parser => parser.fail "unterminated json array"
  | rounds + 1, parser =>
    if parser.rest = [] then parser.fail "unterminated json array"
    else do
      let (child, parser) ← parseValue parser
      match jsonArrayAppend parser.doc id child with
      | .error _ => .error ⟨.outOfMemory, parser.pos, "json array allocation failed"⟩
      | .ok doc =>
        let parser := JsonParser.skipWs { parser with doc := doc }
        match parser.rest with
        | [] => parser.fail "expected comma or array end"
        | b :: rest =>
          if b = byte ',' then
            jsonArrayLoop parseValue id rounds (JsonParser.skipWs { parser with rest := rest })
          else if b = byte ']' then .ok { parser with rest := rest }
          else parser.fail "expected comma or array end"

/-- The parser stands behind the opening bracket. -/
def jsonParseArray (parseValue : ParseValue) (parser : JsonParser) :
    Except JsonError (Nat × JsonParser) := do
  let (id, doc) ← jsonDocAddNode parser.doc (.array [])
  let parser := JsonParser.skipWs { parser with doc := doc }
  match parser.rest with
  | [] => parser.fail "unterminated json array"
  | b :: rest =>
    if b = byte ']' then .ok (id, { parser with rest := rest })
    else do
      let parser ← jsonArrayLoop parseValue id parser.rest.length parser
      .ok (id, parser)

/-- A key and the colon behind it. -/
def jsonParseKey (parser : JsonParser) : Except JsonError (Bytes × JsonParser) := do
  let (key, parser) ← jsonParseStringRaw parser
  let parser := parser.skipWs
  match parser.rest with
  | [] => parser.fail "expected object colon"
  | colon :: rest =>
    if colon ≠ byte ':' then parser.fail "expected object colon"
    else .ok (key, { parser with rest := rest })

def jsonObjectLoop (parseValue : ParseValue) (id : Nat) :
    Nat → JsonParser → Except JsonError JsonParser
  | 0, parser => parser.fail "unterminated json object"
  | rounds + 1, parser =>
    if parser.rest = [] then parser.fail "unterminated json object"
    else do
      let (key, parser) ← jsonParseKey parser
      let (child, parser) ← parseValue parser
      match jsonObjectSetMember parser.doc id key child with
      | .error _ => .error ⟨.outOfMemory, parser.pos, "json object allocation failed"⟩
      | .ok doc =>
        let parser := JsonParser.skipWs { parser with doc := doc }
        match parser.rest with
        | [] => parser.fail "expected comma or object end"
        | b :: rest =>
          if b = byte ',' then
            jsonObjectLoop parseValue id rounds (JsonParser.skipWs { parser with rest := rest })
          else if b = closeBrace then .ok { parser with rest := rest }
          else parser.fail "expected comma or object end"

/-- The parser stands behind the opening brace. -/
def jsonParseObject (parseValue : ParseValue) (parser : JsonParser) :
    Except JsonError (Nat × JsonParser) := do
  let (id, doc) ← jsonDocAddNode parser.doc (.object [])
  let parser := JsonParser.skipWs { parser with doc := doc }
  match parser.rest with
  | [] => parser.fail "unterminated json object"
  | b :: rest =>
    if b = closeBrace then .ok (id, { parser with rest := rest })
    else do
      let parser ← jsonObjectLoop parseValue id parser.rest.length parser
      .ok (id, parser)

def jsonMatchLiteral (literal : Bytes) (parser : JsonParser) (node : JsonNode) :
    Except JsonError (Nat × JsonParser) :=
  if parser.rest.take literal.length = literal then do
    let (id, doc) ← jsonDocAddNode parser.doc node
    .ok (id, { parser with rest := parser.rest.drop literal.length, doc := doc })
  else parser.fail "invalid literal"

/-- The levels left are those of the depth limit that are not used up. -/
def jsonParseValue : Nat → JsonParser → Except JsonError (Nat × JsonParser)
  | 0, parser => parser.skipWs.fail "json depth limit exceeded"
  | levels + 1, parser =>
    let parser := parser.skipWs
    match parser.rest with
    | [] => parser.fail "expected json value"
    | c :: rest =>
      if c = quote then do
        let (value, parser) ← jsonParseStringRaw parser
        let doc ← jsonPayloadCharge parser.doc value.length
        let (id, doc) ← jsonDocAddNode doc (.string value)
        .ok (id, { parser with doc := doc })
      else if c = openBrace then
        jsonParseObject (jsonParseValue levels) { parser with rest := rest }
      else if c = byte '[' then
        jsonParseArray (jsonParseValue levels) { parser with rest := rest }
      else if c = byte 't' then jsonMatchLiteral (ascii "true") parser (.bool true)
      else if c = byte 'f' then jsonMatchLiteral (ascii "false") parser (.bool false)
      else if c = byte 'n' then jsonMatchLiteral (ascii "null") parser .null
      else if c = byte '-' ∨ isDigit c then jsonParseNumber parser
      else parser.fail "unexpected json token"

def jsonParseBytesLimit (data : Bytes) (explicitLimit : Nat) : Except JsonError JsonDoc :=
  if (if explicitLimit = 0 then jsonMaxBytes else explicitLimit) < data.length then
    .error ⟨if explicitLimit = 0 then .parse else .overflow, 0, "json input byte limit exceeded"⟩
  else do
    let (root, parser) ←
      jsonParseValue jsonMaxDepth ⟨data.length, data, jsonDocAllocate explicitLimit⟩
    let parser := parser.skipWs
    if parser.rest ≠ [] then parser.fail "trailing json input"
    else .ok { parser.doc with root := root }

def jsonParseText (data : Bytes) : Except JsonError JsonDoc := jsonParseBytesLimit data 0

end Values

end Sengoo.Stdlib
