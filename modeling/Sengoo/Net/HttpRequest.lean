import Sengoo.Pattern
import Sengoo.Table

/-!
Reading HTTP/1.1 requests from a connection. The connection is the list of what
its reads return, at most a buffer each, and how it ends after them: closed by the
peer or with an error. A request is read into one growing buffer, and what the
buffer holds behind the request is dropped with it.

Texts are lists of characters. The flag that tells the caller whether any byte
arrived is whether a read was taken off the list.
-/

namespace Sengoo.Net.Http

inductive NetErrorCode where
  | ioError
  | timeout
  | httpProtocolError
  | httpChunkDecodeError
  | remoteClosed
  deriving DecidableEq

structure HttpServerRequest where
  method : List Char
  path : List Char
  version : List Char
  headers : Table (List Char) (List Char)
  body : List UInt8

/-- Equality by fields, with the entries of the headers, so that it can be evaluated. -/
instance : DecidableEq HttpServerRequest := fun a b =>
  decidable_of_iff (a.method = b.method ∧ a.path = b.path ∧ a.version = b.version ∧
      a.headers.entries = b.headers.entries ∧ a.body = b.body) <| by
    cases a
    cases b
    simp [AList.ext_iff]

def bufferSize : Nat := 1024

/-- What a successful read returns: at least one byte, at most the buffer. -/
abbrev Segment := { bytes : List UInt8 // bytes ≠ [] ∧ bytes.length ≤ bufferSize }

def bytesOf (segments : List Segment) : List UInt8 := segments.flatMap Subtype.val

/-- What the reads of a connection return after its segments. -/
inductive Ending where
  | closed
  | failed (code : NetErrorCode)
  deriving DecidableEq

/-- The limits of a server; the setter takes them as 32-bit numbers. -/
structure Limits where
  maxHeaderBytes : Nat
  maxBodyBytes : Nat
  header_lt : maxHeaderBytes < 2 ^ 32
  body_lt : maxBodyBytes < 2 ^ 32

def saturatingAdd (a b : Nat) : Nat := min (a + b) (2 ^ 64 - 1)

section Text

def crlf : List UInt8 := [13, 10]
def headEnd : List UInt8 := [13, 10, 13, 10]
def lastChunk : List UInt8 := [48, 13, 10, 13, 10]

def fromUtf8 (bytes : List UInt8) : Option (List Char) :=
  bytes.toByteArray.utf8Decode?.map Array.toList

/-- The characters with the Unicode property White_Space. -/
def isWhitespace (c : Char) : Bool :=
  let v := c.toNat
  (9 ≤ v && v ≤ 13) || v == 0x20 || v == 0x85 || v == 0xA0 || v == 0x1680 ||
    (0x2000 ≤ v && v ≤ 0x200A) || v == 0x2028 || v == 0x2029 || v == 0x202F || v == 0x205F ||
    v == 0x3000

def trim (text : List Char) : List Char :=
  ((text.dropWhile isWhitespace).reverse.dropWhile isWhitespace).reverse

def splitWhitespace (text : List Char) : List (List Char) :=
  (text.splitOnP isWhitespace).filter (· ≠ [])

/-- The parts between line ends; the second argument is the part begun, backwards. -/
def splitLines : List Char → List Char → List (List Char)
  | [], part => [part.reverse]
  | [c], part => [(c :: part).reverse]
  | c :: d :: text, part =>
    if c = '\r' ∧ d = '\n' then part.reverse :: splitLines text []
    else splitLines (d :: text) (c :: part)

def splitOnce (separator : Char) : List Char → Option (List Char × List Char)
  | [] => none
  | c :: text =>
    if c = separator then some ([], text)
    else (splitOnce separator text).map fun (before, after) => (c :: before, after)

def toAsciiUppercase (text : List Char) : List Char := text.map Char.toUpper
def toAsciiLowercase (text : List Char) : List Char := text.map Char.toLower

def digitValue (radix : Nat) (c : Char) : Option Nat :=
  let value :=
    if c.isDigit then some (c.toNat - 48)
    else if 'a' ≤ c ∧ c ≤ 'z' then some (c.toNat - 87)
    else if 'A' ≤ c ∧ c ≤ 'Z' then some (c.toNat - 55)
    else none
  value.filter (· < radix)

/-- The digits after a value, unless the number does not fit 64 bits. -/
def parseDigits (radix : Nat) : Nat → List Char → Option Nat
  | value, [] => some value
  | value, c :: text => do
    let digit ← digitValue radix c
    let value := value * radix + digit
    if value < 2 ^ 64 then parseDigits radix value text else none

/-- `usize::from_str_radix`: a sign is allowed before the digits. -/
def fromStrRadix (radix : Nat) : List Char → Option Nat
  | [] => none
  | ['+'] => none
  | '+' :: text => parseDigits radix 0 text
  | text => parseDigits radix 0 text

end Text

section Reading

def parseHeaderLines : List (List Char) → Table (List Char) (List Char) →
    Except NetErrorCode (Table (List Char) (List Char))
  | [], headers => .ok headers
  | line :: lines, headers =>
    if line = [] then parseHeaderLines lines headers
    else
      match splitOnce ':' line with
      | none => .error .httpProtocolError
      | some (name, value) =>
        parseHeaderLines lines (headers.insert (toAsciiLowercase (trim name)) (trim value))

def parseHttpRequestHead (headerBytes : List UInt8) :
    Except NetErrorCode (List Char × List Char × List Char × Table (List Char) (List Char)) :=
  match fromUtf8 headerBytes with
  | none => .error .httpProtocolError
  | some headerText =>
    match splitLines headerText [] with
    | [] => .error .httpProtocolError
    | requestLine :: lines =>
      match splitWhitespace requestLine with
      | [method, path, version] =>
        if path.head? ≠ some '/' ∨ ¬ "HTTP/1.".toList <+: version then .error .httpProtocolError
        else
          match parseHeaderLines lines ∅ with
          | .error code => .error code
          | .ok headers => .ok (toAsciiUppercase method, path, version, headers)
      | _ => .error .httpProtocolError

/-- One chunk after the other. The sum of position and size does not overflow, since
a buffer has less than `2 ^ 63` bytes; the fuel is the number of bytes left. -/
def decodeChunks : Nat → List UInt8 → List UInt8 → Except NetErrorCode (List UInt8)
  | 0, _, _ => .error .httpChunkDecodeError
  | fuel + 1, body, decoded =>
    match Pattern.position crlf body with
    | none => .error .httpChunkDecodeError
    | some position =>
      match fromUtf8 (body.take position) with
      | none => .error .httpChunkDecodeError
      | some sizeLine =>
        match fromStrRadix 16 (trim (sizeLine.takeWhile (· ≠ ';'))) with
        | none => .error .httpChunkDecodeError
        | some size =>
          let body := body.drop (position + 2)
          if size = 0 then
            if crlf <+: body ∨ body = [] then .ok decoded else .error .httpChunkDecodeError
          else if body.length < size then .error .httpChunkDecodeError
          else if (body.drop size).take 2 ≠ crlf then .error .httpChunkDecodeError
          else decodeChunks fuel (body.drop (size + 2)) (decoded ++ body.take size)

def decodeChunkedBody (body : List UInt8) : Except NetErrorCode (List UInt8) :=
  decodeChunks (body.length + 1) body []

/-- The loop that reads up to the end of the head. -/
def readHead (limits : Limits) (ending : Ending) :
    List UInt8 → List Segment → Except NetErrorCode (Nat × List UInt8) × List Segment
  | _, [] =>
    match ending with
    | .closed => (.error .remoteClosed, [])
    | .failed code => (.error code, [])
  | raw, segment :: segments =>
    let raw := raw ++ segment.1
    if saturatingAdd (saturatingAdd limits.maxHeaderBytes limits.maxBodyBytes) 8192 < raw.length
    then (.error .httpProtocolError, segments)
    else
      match Pattern.position headEnd raw with
      | some position => (.ok (position, raw), segments)
      | none => readHead limits ending raw segments

/-- The loop that reads a chunked body. -/
def readChunked (limits : Limits) (ending : Ending) :
    List UInt8 → List Segment → Except NetErrorCode (List UInt8) × List Segment
  | body, [] =>
    if Pattern.occurs lastChunk body then (.ok body, [])
    else
      match ending with
      | .closed => (.ok body, [])
      | .failed code => (.error code, [])
  | body, segment :: segments =>
    if Pattern.occurs lastChunk body then (.ok body, segment :: segments)
    else
      let body := body ++ segment.1
      if saturatingAdd limits.maxBodyBytes 4096 < body.length
      then (.error .httpProtocolError, segments)
      else readChunked limits ending body segments

/-- The loop that reads a body of known length. -/
def readLength (ending : Ending) (contentLength : Nat) :
    List UInt8 → List Segment → Except NetErrorCode (List UInt8) × List Segment
  | body, [] =>
    if contentLength ≤ body.length then (.ok (body.take contentLength), [])
    else
      match ending with
      | .closed => (.error .httpProtocolError, [])
      | .failed code => (.error code, [])
  | body, segment :: segments =>
    if contentLength ≤ body.length then (.ok (body.take contentLength), segment :: segments)
    else readLength ending contentLength (body ++ segment.1) segments

def isChunked (headers : Table (List Char) (List Char)) : Bool :=
  match headers.lookup "transfer-encoding".toList with
  | some value => Pattern.occurs "chunked".toList (toAsciiLowercase value)
  | none => false

/-- The length the headers announce, none when it is not a number. -/
def contentLength (headers : Table (List Char) (List Char)) : Option Nat :=
  match headers.lookup "content-length".toList with
  | some value => fromStrRadix 10 (trim value)
  | none => some 0

def readBody (limits : Limits) (ending : Ending) (headers : Table (List Char) (List Char))
    (body : List UInt8) (segments : List Segment) :
    Except NetErrorCode (List UInt8) × List Segment :=
  if isChunked headers then
    match readChunked limits ending body segments with
    | (.error code, segments) => (.error code, segments)
    | (.ok body, segments) =>
      match decodeChunkedBody body with
      | .error code => (.error code, segments)
      | .ok decoded =>
        if limits.maxBodyBytes < decoded.length then (.error .httpProtocolError, segments)
        else (.ok decoded, segments)
  else
    match contentLength headers with
    | none => (.error .httpProtocolError, segments)
    | some length =>
      if limits.maxBodyBytes < length then (.error .httpProtocolError, segments)
      else readLength ending length body segments

/-- One call: the request or the error, and what is left of the connection. -/
def readHttpRequest (limits : Limits) (ending : Ending) (segments : List Segment) :
    Except NetErrorCode HttpServerRequest × List Segment :=
  match readHead limits ending [] segments with
  | (.error code, segments) => (.error code, segments)
  | (.ok (headerEnd, raw), segments) =>
    if limits.maxHeaderBytes < headerEnd then (.error .httpProtocolError, segments)
    else
      match parseHttpRequestHead (raw.take headerEnd) with
      | .error code => (.error code, segments)
      | .ok (method, path, version, headers) =>
        match readBody limits ending headers (raw.drop (headerEnd + 4)) segments with
        | (.error code, segments) => (.error code, segments)
        | (.ok body, segments) => (.ok ⟨method, path, version, headers, body⟩, segments)

end Reading

end Sengoo.Net.Http
