import Sengoo.Stdlib.JsonParse

/-!
The calls that build JSON documents and the serialiser, from `runtime_json.c`. A call
returns what the runtime function returns and leaves a document, also when it fails.
Pointers are the bytes they point to, with `none` for the null pointer; the spelling of
a double by `%.17g` is a parameter.

Nodes may be linked into any container of their document, so a document is a graph. The
serialiser walks it by recursion, which the model cuts off after a number of levels.
-/

namespace Sengoo.Stdlib

open Json

section Building

/-- What a call returns, and the document after it. -/
abbrev JsonOutcome := Except JsonError Nat × JsonDoc

def runtimeMaxBufferBytes : Nat := 64 * 1024 * 1024

def jsonDocNewNode (node : JsonNode) (doc : JsonDoc) : JsonOutcome :=
  match jsonDocAddNode doc node with
  | .error e => (.error e, doc)
  | .ok (id, doc) => (.ok id, doc)

def jsonDocNewObject (doc : JsonDoc) : JsonOutcome := jsonDocNewNode (.object []) doc

def jsonDocNewArray (doc : JsonDoc) : JsonOutcome := jsonDocNewNode (.array []) doc

def jsonDocNewBool (value : Int) (doc : JsonDoc) : JsonOutcome :=
  jsonDocNewNode (.bool (decide (value ≠ 0))) doc

def jsonDocNewNull (doc : JsonDoc) : JsonOutcome := jsonDocNewNode .null doc

def jsonDocNewStringBytes (value : Option Bytes) (length : Int) (doc : JsonDoc) : JsonOutcome :=
  if length < 0 ∨ runtimeMaxBufferBytes < length.toNat then
    (.error ⟨.invalidArgument, -1, "invalid json string length"⟩, doc)
  else
    match jsonPayloadCharge doc length.toNat with
    | .error e => (.error e, doc)
    | .ok charged =>
      if value = none ∧ length ≠ 0 then
        (.error ⟨.invalidArgument, -1, "json string input is null"⟩, doc)
      else
        match jsonDocAddNode charged (.string ((value.getD []).take length.toNat)) with
        | .error e => (.error e, doc)
        | .ok (id, doc) => (.ok id, doc)

/-- The bytes of a text are counted to one behind the limit at most. -/
def jsonBoundedCstrLength (value : Bytes) (limit : Nat) : Nat := min value.length (limit + 1)

def jsonDocNewString (value : Option Bytes) (doc : JsonDoc) : JsonOutcome :=
  match value with
  | none => (.error ⟨.invalidArgument, -1, "json string input is null"⟩, doc)
  | some text =>
    if doc.bounded then
      jsonDocNewStringBytes value (jsonBoundedCstrLength text doc.byteLimit) doc
    else jsonDocNewNode (.string text) doc

/-- A number is added before its text is charged: a failed charge leaves the node
without text. -/
def jsonDocNewNumberText (text : Bytes) (doc : JsonDoc) : JsonOutcome :=
  match jsonDocAddNode doc (.number none) with
  | .error e => (.error e, doc)
  | .ok (id, doc) =>
    match jsonPayloadCharge doc text.length with
    | .error e => (.error e, doc)
    | .ok doc => (.ok id, jsonSetNode doc id (.number (some text)))

def jsonDocNewNumber {Double : Type} (format : Double → Bytes) (value : Double) (doc : JsonDoc) :
    JsonOutcome :=
  jsonDocNewNumberText (format value) doc

/-- The decimal spelling `%lld` gives. -/
def decimalText (value : Int) : Bytes :=
  (if value < 0 then [byte '-'] else []) ++ (Nat.toDigits 10 value.natAbs).map byte

def jsonDocNewI64 (value : Int) (doc : JsonDoc) : JsonOutcome :=
  jsonDocNewNumberText (decimalText value) doc

def jsonObjectSet (node : Nat) (key : Option Bytes) (value : Nat) (doc : JsonDoc) : JsonOutcome :=
  match jsonNodeFromId doc node, jsonNodeFromId doc value, key with
  | some (.object _), some _, some key =>
    let key := if doc.bounded then key.take (jsonBoundedCstrLength key doc.byteLimit) else key
    match jsonObjectSetMember doc node key value with
    | .error e => (.error ⟨e.status, -1, "json object allocation failed"⟩, doc)
    | .ok doc => (.ok 1, doc)
  | _, _, _ => (.error ⟨.invalidArgument, -1, "invalid json object set"⟩, doc)

def jsonArrayPush (node value : Nat) (doc : JsonDoc) : JsonOutcome :=
  match jsonNodeFromId doc node, jsonNodeFromId doc value with
  | some (.array _), some _ =>
    match jsonArrayAppend doc node value with
    | .error e => (.error ⟨e.status, -1, "json array allocation failed"⟩, doc)
    | .ok doc => (.ok 1, doc)
  | _, _ => (.error ⟨.invalidArgument, -1, "invalid json array push"⟩, doc)

end Building

section Copying

/-- The destination of a copy and the bytes its text would have so far. -/
structure JsonCopy where
  destination : JsonDoc
  bytes : Nat

def jsonCopyCharge (bytes : Nat) (copy : JsonCopy) : Except JsonError JsonCopy :=
  if copy.destination.byteLimit - copy.bytes < bytes then
    .error ⟨if copy.destination.bounded then .overflow else .parse, -1,
      "json copy byte limit exceeded"⟩
  else .ok { copy with bytes := copy.bytes + bytes }

def jsonEncodedLength (b : UInt8) : Nat :=
  if b = 8 ∨ b = 12 ∨ b = byte '\n' ∨ b = byte '\r' ∨ b = byte '\t' ∨ b = quote ∨ b = backslash
  then 2 else if b < 0x20 then 6 else 1

def jsonCopyStringCharge (value : Bytes) (copy : JsonCopy) : Except JsonError JsonCopy := do
  let copy ← jsonCopyCharge 2 copy
  value.foldlM (fun copy b => jsonCopyCharge (jsonEncodedLength b) copy) copy

/-- The copy with a node more, and the payload of the node charged. -/
def jsonCopyAdd (node : JsonNode) (payload : Nat)
    (charge : JsonCopy → Except JsonError JsonCopy) (copy : JsonCopy) :
    Except JsonError (Nat × JsonCopy) := do
  let (id, doc) ← jsonDocAddNode copy.destination node
  let copy ← charge { copy with destination := doc }
  let doc ← jsonPayloadCharge copy.destination payload
  .ok (id, { copy with destination := doc })

def jsonCopyComma (first : Bool) (copy : JsonCopy) : Except JsonError JsonCopy :=
  if first then .ok copy else jsonCopyCharge 1 copy

/-- How a child is copied one level further down. -/
abbrev CopyChild := Nat → JsonCopy → Except JsonError (Nat × JsonCopy)

def jsonCopyItems (copyChild : CopyChild) (target : Nat) :
    Bool → List Nat → JsonCopy → Except JsonError JsonCopy
  | _, [], copy => .ok copy
  | first, item :: items, copy => do
      let copy ← jsonCopyComma first copy
      let (child, copy) ← copyChild item copy
      let doc ← jsonArrayAppend copy.destination target child
      jsonCopyItems copyChild target false items { copy with destination := doc }

def jsonCopyMembers (copyChild : CopyChild) (target : Nat) :
    Bool → List (Bytes × Nat) → JsonCopy → Except JsonError JsonCopy
  | _, [], copy => .ok copy
  | first, (key, value) :: members, copy => do
      let copy ← jsonCopyComma first copy
      let copy ← jsonCopyStringCharge key copy
      let copy ← jsonCopyCharge 1 copy
      let (child, copy) ← copyChild value copy
      let doc ← jsonObjectSetMember copy.destination target key child
      jsonCopyMembers copyChild target false members { copy with destination := doc }

/-- The source of a copy may be its destination, which grows meanwhile. -/
def jsonCopySource (source : Option JsonDoc) (copy : JsonCopy) : JsonDoc :=
  source.getD copy.destination

def jsonCopyNode (source : Option JsonDoc) : Nat → List Nat → CopyChild
  | 0, _, _, _ => .error ⟨.parse, -1, "json copy depth limit exceeded"⟩
  | levels + 1, path, id, copy =>
    if id ∈ path then .error ⟨.invalidArgument, -1, "cyclic JSON value cannot be copied"⟩
    else
      match jsonNodeFromId (jsonCopySource source copy) id with
      | none => .error ⟨.invalidHandle, -1, "json source value not found"⟩
      | some .null => jsonCopyAdd .null 0 (jsonCopyCharge 4) copy
      | some (.bool value) =>
        jsonCopyAdd (.bool value) 0 (jsonCopyCharge (if value then 4 else 5)) copy
      | some (.number text) =>
        jsonCopyAdd (.number (some (text.getD (ascii "0")))) (text.getD (ascii "0")).length
          (jsonCopyCharge (text.getD (ascii "0")).length) copy
      | some (.string value) =>
        jsonCopyAdd (.string value) value.length (jsonCopyStringCharge value) copy
      | some (.array items) => do
          let (target, copy) ← jsonCopyAdd (.array []) 0 (jsonCopyCharge 2) copy
          let copy ← jsonCopyItems (jsonCopyNode source levels (id :: path)) target true items copy
          .ok (target, copy)
      | some (.object members) => do
          let (target, copy) ← jsonCopyAdd (.object []) 0 (jsonCopyCharge 2) copy
          let copy ←
            jsonCopyMembers (jsonCopyNode source levels (id :: path)) target true members copy
          .ok (target, copy)

/-- A copy that fails leaves the destination as it was. -/
def jsonDocCopy (source : Option JsonDoc) (id : Nat) (destination : JsonDoc) : JsonOutcome :=
  if jsonNodeFromId (source.getD destination) id = none then
    (.error ⟨.invalidHandle, -1, "json copy document or value not found"⟩, destination)
  else
    match jsonCopyNode source jsonMaxDepth [] id ⟨destination, 0⟩ with
    | .error e => (.error e, destination)
    | .ok (copied, copy) => (.ok copied, copy.destination)

end Copying

section Calls

def jsonBoundedMaxBytes : Nat := 16 * 1024 * 1024

def jsonBoundedTotalReservation : Nat := 512 * 1024 * 1024

def jsonBoundedMaxDocs : Nat := 64

def jsonReservation (limit : Nat) : Nat := 6 * limit + 4 * 1024 * 1024

/-- Bounded documents are admitted while their number and what they reserve allow it. -/
def jsonAdmitted (docs : List JsonDoc) (limit : Nat) : Bool :=
  let live := docs.filter (·.bounded)
  limit == 0 || (decide (live.length < jsonBoundedMaxDocs) && decide (jsonReservation limit ≤
      jsonBoundedTotalReservation - (live.map fun doc => jsonReservation doc.byteLimit).sum))

/-- The calls; a limit of zero stands for the call without an explicit limit. -/
inductive JsonCall (Double : Type) where
  | parse (data : Bytes) (limit : Nat)
  | docObjectNew (limit : Nat)
  | newObject (handle : Nat)
  | newArray (handle : Nat)
  | newStringBytes (handle : Nat) (value : Option Bytes) (length : Int)
  | newString (handle : Nat) (value : Option Bytes)
  | newBool (handle : Nat) (value : Int)
  | newNumber (handle : Nat) (value : Double)
  | newI64 (handle : Nat) (value : Int)
  | newNull (handle : Nat)
  | objectSet (handle node : Nat) (key : Option Bytes) (valueHandle value : Nat)
  | arrayPush (handle node valueHandle value : Nat)
  | docCopy (destination source id : Nat)

def jsonDocObjectNew (limit : Nat) : JsonDoc :=
  { jsonDocAllocate limit with nodes := [.object []], root := 1 }

/-- A new document under the handle that comes next. -/
def jsonDocIntoHandle (docs : List JsonDoc) (limit : Nat) (admitted : Bool)
    (result : Except JsonError JsonDoc) : Except JsonError Nat × List JsonDoc :=
  if jsonBoundedMaxBytes < limit then
    (.error ⟨.invalidArgument, 0, "bounded JSON limit must be 1..16MiB"⟩, docs)
  else if admitted = false then
    (.error ⟨.overflow, -1, "bounded JSON aggregate admission exhausted"⟩, docs)
  else
    match result with
    | .error e => (.error e, docs)
    | .ok doc => (.ok docs.length, docs ++ [doc])

/-- A text that is too long is refused before its document is admitted. -/
def jsonParseInto (docs : List JsonDoc) (data : Bytes) (limit : Nat) :
    Except JsonError Nat × List JsonDoc :=
  let tooLong := decide ((if limit = 0 then jsonMaxBytes else limit) < data.length)
  jsonDocIntoHandle docs limit (tooLong || jsonAdmitted docs limit) (jsonParseBytesLimit data limit)

/-- A call on the document of a handle. -/
def jsonWithDoc (docs : List JsonDoc) (handle : Nat) (missing : JsonError)
    (call : JsonDoc → JsonOutcome) : Except JsonError Nat × List JsonDoc :=
  match docs[handle]? with
  | none => (.error missing, docs)
  | some doc => ((call doc).1, docs.set handle (call doc).2)

def jsonNewIn (docs : List JsonDoc) (handle : Nat) (call : JsonDoc → JsonOutcome) :
    Except JsonError Nat × List JsonDoc :=
  jsonWithDoc docs handle ⟨.invalidHandle, -1, "json document handle not found"⟩ call

/-- A value is linked within its document only. -/
def jsonLinkIn (docs : List JsonDoc) (handle valueHandle : Nat) (missing : JsonError)
    (call : JsonDoc → JsonOutcome) : Except JsonError Nat × List JsonDoc :=
  if handle ≠ valueHandle then
    (.error ⟨.invalidArgument, -1, "json value belongs to a different document"⟩, docs)
  else jsonWithDoc docs handle missing call

def jsonCopyIn (docs : List JsonDoc) (destination source id : Nat) :
    Except JsonError Nat × List JsonDoc :=
  let missing : JsonError := ⟨.invalidHandle, -1, "json copy document or value not found"⟩
  match docs[source]? with
  | none => (.error missing, docs)
  | some doc =>
    jsonWithDoc docs destination missing
      (jsonDocCopy (if destination = source then none else some doc) id)

def jsonPerform {Double : Type} (format : Double → Bytes) (docs : List JsonDoc) :
    JsonCall Double → Except JsonError Nat × List JsonDoc
  | .parse data limit => jsonParseInto docs data limit
  | .docObjectNew limit =>
    jsonDocIntoHandle docs limit (jsonAdmitted docs limit) (.ok (jsonDocObjectNew limit))
  | .newObject handle => jsonNewIn docs handle jsonDocNewObject
  | .newArray handle => jsonNewIn docs handle jsonDocNewArray
  | .newStringBytes handle value length =>
    jsonNewIn docs handle (jsonDocNewStringBytes value length)
  | .newString handle value => jsonNewIn docs handle (jsonDocNewString value)
  | .newBool handle value => jsonNewIn docs handle (jsonDocNewBool value)
  | .newNumber handle value => jsonNewIn docs handle (jsonDocNewNumber format value)
  | .newI64 handle value => jsonNewIn docs handle (jsonDocNewI64 value)
  | .newNull handle => jsonNewIn docs handle jsonDocNewNull
  | .objectSet handle node key valueHandle value =>
    jsonLinkIn docs handle valueHandle ⟨.invalidArgument, -1, "invalid json object set"⟩
      (jsonObjectSet node key value)
  | .arrayPush handle node valueHandle value =>
    jsonLinkIn docs handle valueHandle ⟨.invalidArgument, -1, "invalid json array push"⟩
      (jsonArrayPush node value)
  | .docCopy destination source id => jsonCopyIn docs destination source id

end Calls

section Serialising

/-- Why there is no text: the call failed, or it has not come to an end. -/
inductive JsonStop where
  | failed (error : JsonError)
  | unfinished
  deriving DecidableEq

def jsonBuilderAppend (limit : Nat) (bytes built : Bytes) : Except JsonStop Bytes :=
  if limit ≠ 0 ∧ limit < built.length + bytes.length then
    .error (.failed ⟨.overflow, -1, "bounded JSON output byte limit exceeded"⟩)
  else .ok (built ++ bytes)

def jsonHexDigit (n : Nat) : UInt8 :=
  if n < 10 then UInt8.ofNat (0x30 + n) else UInt8.ofNat (0x57 + n)

def jsonEscapeByte (c : UInt8) : Bytes :=
  if c = quote then [backslash, quote]
  else if c = backslash then [backslash, backslash]
  else if c = 8 then [backslash, byte 'b']
  else if c = 12 then [backslash, byte 'f']
  else if c = byte '\n' then [backslash, byte 'n']
  else if c = byte '\r' then [backslash, byte 'r']
  else if c = byte '\t' then [backslash, byte 't']
  else if c < 0x20 then
    [backslash, byte 'u', byte '0', byte '0', jsonHexDigit (c.toNat / 16),
      jsonHexDigit (c.toNat % 16)]
  else [c]

def jsonAppendEscapedString (limit : Nat) (value built : Bytes) : Except JsonStop Bytes := do
  let built ← jsonBuilderAppend limit [quote] built
  let built ← value.foldlM (fun built c => jsonBuilderAppend limit (jsonEscapeByte c) built) built
  jsonBuilderAppend limit [quote] built

/-- All items but the first have a comma before them. -/
def jsonAppendComma (limit : Nat) (first : Bool) (built : Bytes) : Except JsonStop Bytes :=
  if first then .ok built else jsonBuilderAppend limit [byte ','] built

/-- How a child is serialised one level further down. -/
abbrev SerializeChild := Nat → Bytes → Except JsonStop Bytes

def jsonSerializeItems (limit : Nat) (serializeChild : SerializeChild) :
    Bool → List Nat → Bytes → Except JsonStop Bytes
  | _, [], built => .ok built
  | first, item :: items, built => do
      let built ← jsonAppendComma limit first built
      let built ← serializeChild item built
      jsonSerializeItems limit serializeChild false items built

def jsonSerializeMembers (limit : Nat) (serializeChild : SerializeChild) :
    Bool → List (Bytes × Nat) → Bytes → Except JsonStop Bytes
  | _, [], built => .ok built
  | first, (key, value) :: members, built => do
      let built ← jsonAppendComma limit first built
      let built ← jsonAppendEscapedString limit key built
      let built ← jsonBuilderAppend limit [byte ':'] built
      let built ← serializeChild value built
      jsonSerializeMembers limit serializeChild false members built

/-- Only bounded documents are checked for their depth and for cycles. -/
def jsonSerializeNode (doc : JsonDoc) (limit : Nat) : Nat → List Nat → SerializeChild
  | 0, _, _, _ => .error .unfinished
  | levels + 1, path, id, built =>
    if doc.bounded ∧ jsonMaxDepth ≤ path.length then
      .error (.failed ⟨.overflow, -1, "bounded JSON serialization depth exceeded"⟩)
    else if doc.bounded ∧ id ∈ path then
      .error (.failed ⟨.invalidArgument, -1, "cyclic JSON cannot be serialized"⟩)
    else
      match jsonNodeFromId doc id with
      | none => .error (.failed ⟨.outOfMemory, -1, "json serialization failed"⟩)
      | some .null => jsonBuilderAppend limit (ascii "null") built
      | some (.bool value) =>
        jsonBuilderAppend limit (if value then ascii "true" else ascii "false") built
      | some (.number text) => jsonBuilderAppend limit (text.getD (ascii "0")) built
      | some (.string value) => jsonAppendEscapedString limit value built
      | some (.array items) => do
          let built ← jsonBuilderAppend limit [byte '['] built
          let built ← jsonSerializeItems limit (jsonSerializeNode doc limit levels (id :: path))
            true items built
          jsonBuilderAppend limit [byte ']'] built
      | some (.object members) => do
          let built ← jsonBuilderAppend limit [openBrace] built
          let built ← jsonSerializeMembers limit
            (jsonSerializeNode doc limit levels (id :: path)) true members built
          jsonBuilderAppend limit [closeBrace] built

/-- The text of the document in a buffer of so many bytes. -/
def jsonDocSerialize (levels : Nat) (doc : JsonDoc) (capacity : Nat) : Except JsonStop Bytes :=
  if doc.root = 0 then .error (.failed ⟨.invalidHandle, -1, "json document handle not found"⟩)
  else
    match jsonSerializeNode doc (if doc.bounded then doc.byteLimit else 0) levels [] doc.root [] with
    | .error .unfinished => .error .unfinished
    | .error (.failed e) => .error (.failed ⟨e.status, -1, "json serialization failed"⟩)
    | .ok built =>
      if capacity < built.length then
        .error (.failed ⟨.bufferTooSmall, -1, "json serialization buffer too small"⟩)
      else .ok built

end Serialising

end Sengoo.Stdlib
