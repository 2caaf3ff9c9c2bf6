import Sengoo.History
import Sengoo.Stdlib.JsonCopies

/-!
Documents over whole histories of calls. As long as strings and keys are UTF-8, numbers
are finite and no container of a document without limits is put below itself, every
document can be serialised, and its text parses back to its value.
-/

namespace Sengoo.Stdlib

open Json Fallible List

section Documents

/-- The table is sane and the root is one of its nodes. -/
structure DocSane (fine : Prop) (doc : JsonDoc) : Prop where
  table : TableSane fine doc.nodes doc.bounded
  root : 0 < doc.root ∧ doc.root ≤ doc.nodes.length

variable {fine : Prop} {doc doc' : JsonDoc}

theorem DocSane.grow (h : DocSane fine doc) (hframe : SameFrame doc doc')
    (htable : TableSane fine doc'.nodes doc.bounded) (hle : doc.nodes.length ≤ doc'.nodes.length) :
    DocSane fine doc' := by
  refine ⟨hframe.1 ▸ htable, ?_⟩
  rw [hframe.2]
  exact ⟨h.root.1, Nat.le_trans h.root.2 hle⟩

theorem DocSane.addNode (h : DocSane fine doc) {node : JsonNode} {id payload : Nat}
    (hgood : NodeGood fine node) (hchildren : nodeChildren node = [])
    (hadd : jsonDocAddNode { doc with ownedPayload := payload } node = .ok (id, doc')) :
    DocSane fine doc' := by
  obtain ⟨-, -, rfl⟩ := jsonDocAddNode_eq_ok hadd
  refine h.grow ⟨rfl, rfl⟩ (h.table.append hgood hchildren) ?_
  rw [length_append]
  exact Nat.le_add_right ..

theorem DocSane.newNode (h : DocSane fine doc) {node : JsonNode} (hgood : NodeGood fine node)
    (hchildren : nodeChildren node = []) : DocSane fine (jsonDocNewNode node doc).2 := by
  unfold jsonDocNewNode
  cases hadd : jsonDocAddNode doc node with
  | error e => exact h
  | ok result => exact h.addNode hgood hchildren hadd

/-- A charge a bounded document can bear is within its limit. -/
theorem le_of_jsonPayloadCharge {bytes : Nat} (h : jsonPayloadCharge doc bytes = .ok doc')
    (hbounded : doc.bounded = true) : bytes ≤ doc.byteLimit := by
  unfold jsonPayloadCharge at h
  rw [if_neg (by simp [hbounded])] at h
  split_ifs at h with hlimit
  omega

theorem DocSane.newStringBytes (h : DocSane fine doc) {value : Option Bytes} {length : Int}
    (hgood : fine → (doc.bounded = true → length.toNat ≤ doc.byteLimit) →
      IsText ((value.getD []).take length.toNat)) :
    DocSane fine (jsonDocNewStringBytes value length doc).2 := by
  unfold jsonDocNewStringBytes
  by_cases hlength : length < 0 ∨ runtimeMaxBufferBytes < length.toNat
  · rw [if_pos hlength]
    exact h
  rw [if_neg hlength]
  cases hcharge : jsonPayloadCharge doc length.toNat with
  | error e => exact h
  | ok charged =>
    dsimp only
    by_cases hnull : value = none ∧ length ≠ 0
    · rw [if_pos hnull]
      exact h
    rw [if_neg hnull]
    have hnode : NodeGood fine (.string ((value.getD []).take length.toNat)) :=
      fun hfine => hgood hfine (le_of_jsonPayloadCharge hcharge)
    cases hadd : jsonDocAddNode charged (.string ((value.getD []).take length.toNat)) with
    | error e => exact h
    | ok result =>
      obtain ⟨payload, rfl⟩ := jsonPayloadCharge_eq_ok hcharge
      exact h.addNode hnode rfl hadd

/-- A text that was cut off is over the limit. -/
theorem take_jsonBoundedCstrLength {text : Bytes} {limit : Nat}
    (h : jsonBoundedCstrLength text limit ≤ limit) :
    text.take (jsonBoundedCstrLength text limit) = text := by
  unfold jsonBoundedCstrLength at h ⊢
  exact take_of_length_le (by omega)

theorem DocSane.newString (h : DocSane fine doc) {value : Option Bytes}
    (hgood : fine → ∀ text ∈ value, IsText text) : DocSane fine (jsonDocNewString value doc).2 := by
  cases value with
  | none => exact h
  | some text =>
    have htext : fine → IsText text := fun hfine => hgood hfine text rfl
    unfold jsonDocNewString
    dsimp only
    by_cases hbounded : doc.bounded = true
    · rw [if_pos hbounded]
      refine h.newStringBytes fun hfine hle => ?_
      have htake := take_jsonBoundedCstrLength (hle hbounded)
      rw [Int.toNat_natCast, Option.getD_some, htake]
      exact htext hfine
    · rw [if_neg hbounded]
      have hnode : NodeGood fine (.string text) := htext
      exact h.newNode hnode rfl

theorem DocSane.newNumberText (h : DocSane fine doc) {text : Bytes} (htext : fine → NumberText text) :
    DocSane fine (jsonDocNewNumberText text doc).2 := by
  have hnone : NodeGood fine (.number none) := trivial
  have hsome : NodeGood fine (.number (some text)) := htext
  unfold jsonDocNewNumberText
  cases hadd : jsonDocAddNode doc (.number none) with
  | error e => exact h
  | ok result =>
    obtain ⟨id, added⟩ := result
    dsimp only
    cases hcharge : jsonPayloadCharge added text.length with
    | error e => exact h.addNode hnone rfl hadd
    | ok charged =>
      obtain ⟨-, rfl, rfl⟩ := jsonDocAddNode_eq_ok hadd
      obtain ⟨payload, rfl⟩ := jsonPayloadCharge_eq_ok hcharge
      have htable := h.table.append hsome rfl
      have hnodes : (doc.nodes ++ [JsonNode.number none]).set doc.nodes.length (.number text) =
          doc.nodes ++ [.number text] := by simp
      rw [← hnodes] at htable
      refine h.grow ⟨rfl, rfl⟩ htable ?_
      simp [jsonSetNode]

end Documents

section Numbers

theorem byte_digitChar {n : Nat} (h : n < 10) :
    isDigit (byte n.digitChar) = true ∧ (byte n.digitChar = byte '0' → n = 0) := by
  have hall : ∀ n < 10, isDigit (byte n.digitChar) = true ∧
      (byte n.digitChar = byte '0' → n = 0) := by decide +kernel
  exact hall n h

/-- A positive number starts with a digit other than zero. -/
theorem toDigits_pos {n : Nat} (hn : 0 < n) : ∃ d ds, (Nat.toDigits 10 n).map byte = d :: ds ∧
    isDigit d = true ∧ d ≠ byte '0' ∧ ∀ b ∈ ds, isDigit b = true := by
  induction n using Nat.strongRecOn with
  | ind n ih =>
    rw [Nat.toDigits_eq_if (by decide)]
    by_cases hlt : n < 10
    · rw [if_pos hlt]
      obtain ⟨hdigit, hzero⟩ := byte_digitChar hlt
      exact ⟨_, [], rfl, hdigit, fun heq => absurd (hzero heq) (by omega), nofun⟩
    · rw [if_neg hlt, map_append]
      obtain ⟨d, ds, heq, hd, hne, hds⟩ := ih (n / 10) (by omega) (by omega)
      refine ⟨d, ds ++ [byte (n % 10).digitChar], by rw [heq]; rfl, hd, hne, fun b hb => ?_⟩
      rcases mem_append.mp hb with hb | hb
      · exact hds b hb
      · rw [mem_singleton.mp hb]
        exact (byte_digitChar (Nat.mod_lt n (by decide))).1

theorem numberText_decimalText (value : Int) : NumberText (decimalText value) := by
  have hinteger : IntegerText ((Nat.toDigits 10 value.natAbs).map byte) := by
    by_cases hzero : value.natAbs = 0
    · rw [hzero]
      exact .zero
    · obtain ⟨d, ds, heq, hd, hne, hds⟩ := toDigits_pos (Nat.pos_of_ne_zero hzero)
      rw [heq]
      exact .nonzero hd hne hds
  have hminus : (if value < 0 then [byte '-'] else []) = [] ∨
      (if value < 0 then [byte '-'] else []) = [byte '-'] := by
    split_ifs
    · exact .inr rfl
    · exact .inl rfl
  have hnumber := NumberText.mk hminus hinteger .none .none
  simpa [decimalText] using hnumber

end Numbers

section Links

variable {fine : Prop} {doc doc' : JsonDoc}

/-- Linking the value below the node closes no cycle in a document without limits. -/
def NoCycle (doc : JsonDoc) (node value : Nat) : Prop :=
  doc.bounded = false → ¬ Relation.ReflTransGen (Link doc.nodes) value node

theorem exists_slot {id : Nat} {node : JsonNode} (h : jsonNodeFromId doc id = some node) :
    ∃ slot, id = slot + 1 ∧ doc.nodes[slot]? = some node := by
  obtain ⟨hpos, hnode⟩ := nodeAt_of_jsonNodeFromId h
  exact ⟨id - 1, by omega, hnode⟩

theorem valid_of_jsonNodeFromId {id : Nat} {node : JsonNode}
    (h : jsonNodeFromId doc id = some node) : 0 < id ∧ id ≤ doc.nodes.length := by
  have hnode := nodeAt_of_jsonNodeFromId h
  exact ⟨hnode.1, hnode.le_length⟩

/-- A key that is stored was there before, or its bytes were charged. -/
theorem jsonObjectSetMember_key {id child : Nat} {key : Bytes} {members : List (Bytes × Nat)}
    (hnode : jsonNodeFromId doc id = some (.object members))
    (h : jsonObjectSetMember doc id key child = .ok doc') :
    key ∈ members.map Prod.fst ∨ (doc.bounded = true → key.length ≤ doc.byteLimit) := by
  unfold jsonObjectSetMember at h
  rw [hnode] at h
  dsimp only at h
  by_cases hany : members.any (fun member => member.1 == key) = true
  · obtain ⟨member, hmember, heq⟩ := any_eq_true.mp hany
    exact .inl (mem_map.mpr ⟨member, hmember, eq_of_beq heq⟩)
  · rw [if_neg hany] at h
    obtain ⟨paid, hpaid, -⟩ := bind_eq_ok h
    exact .inr (le_of_jsonPayloadCharge hpaid)

/-- A key whose bytes were charged was not cut. -/
theorem cutKey_eq {text cut : Bytes}
    (hcut : (if doc.bounded = true then text.take (jsonBoundedCstrLength text doc.byteLimit)
      else text) = cut)
    (hle : doc.bounded = true → cut.length ≤ doc.byteLimit) : cut = text := by
  by_cases hbounded : doc.bounded = true
  · have hlength := hle hbounded
    rw [if_pos hbounded] at hcut
    rw [← hcut, length_take] at hlength
    rw [← hcut]
    exact take_jsonBoundedCstrLength (by unfold jsonBoundedCstrLength at hlength ⊢; omega)
  · rw [← hcut, if_neg hbounded]

theorem DocSane.objectSet (h : DocSane fine doc) {node value : Nat} {key : Option Bytes}
    (hkey : fine → ∀ text ∈ key, IsText text) (hno : fine → NoCycle doc node value) :
    DocSane fine (jsonObjectSet node key value doc).2 := by
  unfold jsonObjectSet
  cases hnode : jsonNodeFromId doc node with
  | none => exact h
  | some container =>
    cases container with
    | object members =>
      cases hvalue : jsonNodeFromId doc value with
      | none => exact h
      | some found =>
        cases key with
        | none => exact h
        | some text =>
          dsimp only
          generalize hcut : (if doc.bounded = true then
            text.take (jsonBoundedCstrLength text doc.byteLimit) else text) = cut
          cases hset : jsonObjectSetMember doc node cut value with
          | error e => exact h
          | ok linked =>
            have hcutKey (hfine : fine) : cut ∈ members.map Prod.fst ∨ IsText cut := by
              rcases jsonObjectSetMember_key hnode hset with hmem | hle
              · exact .inl hmem
              · rw [cutKey_eq hcut hle]
                exact .inr (hkey hfine text rfl)
            obtain ⟨slot, rfl, hslot⟩ := exists_slot hnode
            obtain ⟨hnodes, hframe⟩ := jsonObjectSetMember_eq_ok hset
            rw [linkMember_eq hslot] at hnodes
            have hgood := nodeGood_setMember value
              (h.table.good _ (mem_of_getElem? hslot)) hcutKey
            refine h.grow hframe ?_ ?_
            · rw [hnodes]
              exact h.table.set hslot hgood (fun _ => mem_values_setMember)
                (valid_of_jsonNodeFromId hvalue) hno
            · rw [hnodes, length_set]
    | _ => exact h

theorem DocSane.arrayPush (h : DocSane fine doc) {node value : Nat}
    (hno : fine → NoCycle doc node value) :
    DocSane fine (jsonArrayPush node value doc).2 := by
  unfold jsonArrayPush
  cases hnode : jsonNodeFromId doc node with
  | none => exact h
  | some container =>
    cases container with
    | array items =>
      cases hvalue : jsonNodeFromId doc value with
      | none => exact h
      | some found =>
        cases hset : jsonArrayAppend doc node value with
        | error e => exact h
        | ok linked =>
          obtain ⟨slot, rfl, hslot⟩ := exists_slot hnode
          obtain ⟨hnodes, hframe⟩ := jsonArrayAppend_eq_ok hset
          rw [linkItem_eq hslot] at hnodes
          have hgood : NodeGood fine (.array (items ++ [value])) := trivial
          refine h.grow hframe ?_ ?_
          · rw [hnodes]
            exact h.table.set hslot hgood (children_append items value)
              (valid_of_jsonNodeFromId hvalue) hno
          · rw [hnodes, length_set]
    | _ => exact h

/-- A copy adds the tree of its source, which is one of a sane table. -/
theorem DocSane.copy (h : DocSane fine doc) {source : Option JsonDoc}
    (hsource : DocSane fine (source.getD doc)) (id : Nat) : DocSane fine (jsonDocCopy source id doc).2 := by
  rcases jsonDocCopy_cases source id doc with ⟨e, heq⟩ | ⟨child, copy, heq, hcopy, hid⟩
  · rw [heq]
    exact h
  · obtain ⟨tree, htree, -, ⟨hnodes, hframe⟩, -⟩ := jsonCopyNode_exact hsource.table.closed
      jsonMaxDepth [] hcopy (.start source doc) hid
    rw [heq]
    refine h.grow hframe ?_ ?_
    · rw [hnodes]
      exact h.table.emitTree fun hfine => htree.spelled hfine hsource.table.good tree
    · rw [hnodes, length_emitTree]
      exact Nat.le_add_right ..

theorem docSane_parse {data : Bytes} {limit : Nat} (h : jsonParseBytesLimit data limit = .ok doc) :
    DocSane fine doc := by
  obtain ⟨tree, hdata, -, -, hnodes, hroot⟩ := jsonParseBytesLimit_sound h
  have hspelled : Spelled tree := by
    cases hdata with
    | mk _ ht _ => exact spelled_of_valueText tree ht
  refine ⟨?_, ?_⟩
  · rw [hnodes]
    exact (tableSane_nil fine doc.bounded).emitTree fun _ => hspelled
  · have hcount := one_le_count tree
    rw [hroot, hnodes, length_emitTree]
    exact ⟨Nat.one_pos, Nat.le_trans hcount (Nat.le_add_left ..)⟩

theorem docSane_objectNew (limit : Nat) : DocSane fine (jsonDocObjectNew limit) := by
  have hgood : NodeGood fine (.object []) := ⟨nodup_nil, fun _ => forall_mem_nil _⟩
  refine ⟨?_, Nat.one_pos, Nat.le_refl _⟩
  exact (tableSane_nil fine _).append hgood rfl

end Links

section Histories

variable {Double : Type}

/-- What a call must not do: store bytes that are no UTF-8 or a number that is not finite,
or close a cycle in a document without limits. -/
def CallFine (finite : Double → Prop) (docs : List JsonDoc) : JsonCall Double → Prop
  | .newStringBytes _ value length => IsText ((value.getD []).take length.toNat)
  | .newString _ value => ∀ text ∈ value, IsText text
  | .newNumber _ value => finite value
  | .objectSet handle node key _ value =>
    (∀ text ∈ key, IsText text) ∧ ∀ doc, docs[handle]? = some doc → NoCycle doc node value
  | .arrayPush handle node _ value => ∀ doc, docs[handle]? = some doc → NoCycle doc node value
  | _ => True

def JsonStep (format : Double → Bytes) (docs : List JsonDoc) (call : JsonCall Double)
    (docs' : List JsonDoc) : Prop :=
  (jsonPerform format docs call).2 = docs'

def FineStep (format : Double → Bytes) (finite : Double → Prop) (docs : List JsonDoc)
    (call : JsonCall Double) (docs' : List JsonDoc) : Prop :=
  CallFine finite docs call ∧ JsonStep format docs call docs'

/-- The document's text is one of the grammar for its value, and parses to that value. -/
def SerializesToItself (doc : JsonDoc) : Prop :=
  ∀ capacity, (∃ levels, jsonDocSerialize levels doc capacity ≠ .error .unfinished) ∧
    ∀ levels out, jsonDocSerialize levels doc capacity = .ok out →
      ∃ tree, (∀ held, Reads doc.nodes 0 doc.root held ↔ held = tree) ∧ DocumentText out tree ∧
        (out.length ≤ jsonMaxBytes → WithinLimits tree → ∃ parsed, jsonParseText out = .ok parsed ∧
            ∀ held, Reads parsed.nodes 0 parsed.root held ↔ held = tree)

theorem DocSane.serializesToItself {doc : JsonDoc} (h : DocSane True doc) :
    SerializesToItself doc := by
  intro capacity
  constructor
  · refine exists_jsonDocSerialize_ends capacity ?_
    cases hbounded : doc.bounded with
    | true => exact .inl rfl
    | false => exact .inr (h.table.exists_reads (h.table.ranked trivial hbounded) doc.root h.root)
  · intro levels out hout
    obtain ⟨tree, htree, rfl⟩ := jsonDocSerialize_writes hout
    obtain ⟨hspelled, hdistinct⟩ := Reads.good trivial h.table.good tree htree
    have htext := documentText_renderTree hspelled
    refine ⟨tree, fun held => ⟨fun hheld => Reads.unique _ _ hheld htree, ?_⟩, htext,
      fun hbytes hlimits => ?_⟩
    · rintro rfl
      exact htree
    · have hparsed := exists_jsonParseText hbytes htext hlimits
      rwa [denote_of_distinct tree hdistinct] at hparsed

/-- All documents of the runtime. -/
def AllSane (fine : Prop) (docs : List JsonDoc) : Prop := ∀ doc ∈ docs, DocSane fine doc

variable {fine : Prop} {docs : List JsonDoc}

theorem AllSane.withDoc (h : AllSane fine docs) {handle : Nat} {missing : JsonError}
    {call : JsonDoc → JsonOutcome}
    (hcall : ∀ doc, docs[handle]? = some doc → DocSane fine doc → DocSane fine (call doc).2) :
    AllSane fine (jsonWithDoc docs handle missing call).2 := by
  unfold jsonWithDoc
  cases hdoc : docs[handle]? with
  | none => exact h
  | some doc =>
    intro found hfound
    rcases mem_or_eq_of_mem_set hfound with hfound | rfl
    · exact h found hfound
    · exact hcall doc hdoc (h doc (mem_of_getElem? hdoc))

theorem AllSane.intoHandle (h : AllSane fine docs) {limit : Nat} {admitted : Bool}
    {result : Except JsonError JsonDoc} (hresult : ∀ doc, result = .ok doc → DocSane fine doc) :
    AllSane fine (jsonDocIntoHandle docs limit admitted result).2 := by
  unfold jsonDocIntoHandle
  split_ifs
  · exact h
  · exact h
  cases result with
  | error e => exact h
  | ok doc =>
    intro found hfound
    rcases mem_append.mp hfound with hfound | hfound
    · exact h found hfound
    · rw [mem_singleton.mp hfound]
      exact hresult doc rfl

theorem AllSane.linkIn (h : AllSane fine docs) {handle valueHandle : Nat} {missing : JsonError}
    {call : JsonDoc → JsonOutcome}
    (hcall : ∀ doc, docs[handle]? = some doc → DocSane fine doc → DocSane fine (call doc).2) :
    AllSane fine (jsonLinkIn docs handle valueHandle missing call).2 := by
  unfold jsonLinkIn
  split_ifs
  · exact h
  · exact h.withDoc hcall

theorem AllSane.copyIn (h : AllSane fine docs) (destination source id : Nat) :
    AllSane fine (jsonCopyIn docs destination source id).2 := by
  unfold jsonCopyIn
  cases hsource : docs[source]? with
  | none => exact h
  | some doc =>
    refine h.withDoc fun target htarget hsane => hsane.copy ?_ id
    split_ifs with hsame
    · exact hsane
    · exact h doc (mem_of_getElem? hsource)

/-- One call keeps all documents sane. -/
theorem AllSane.perform {format : Double → Bytes} {finite : Double → Prop}
    (hformat : fine → ∀ value, finite value → NumberText (format value)) (h : AllSane fine docs)
    (call : JsonCall Double) (hfine : fine → CallFine finite docs call) :
    AllSane fine (jsonPerform format docs call).2 := by
  have hobject : NodeGood fine (.object []) := ⟨nodup_nil, fun _ => forall_mem_nil _⟩
  cases call with
  | parse data limit => exact h.intoHandle fun doc => docSane_parse
  | docObjectNew limit =>
    refine h.intoHandle fun doc hdoc => ?_
    cases hdoc
    exact docSane_objectNew limit
  | newObject handle => exact h.withDoc fun doc _ hsane => hsane.newNode hobject rfl
  | newArray handle =>
    have harray : NodeGood fine (.array []) := trivial
    exact h.withDoc fun doc _ hsane => hsane.newNode harray rfl
  | newStringBytes handle value length =>
    exact h.withDoc fun doc _ hsane => hsane.newStringBytes fun hf _ => hfine hf
  | newString handle value => exact h.withDoc fun doc _ hsane => hsane.newString hfine
  | newBool handle value =>
    have hbool : NodeGood fine (.bool (decide (value ≠ 0))) := trivial
    exact h.withDoc fun doc _ hsane => hsane.newNode hbool rfl
  | newNumber handle value =>
    exact h.withDoc fun doc _ hsane => hsane.newNumberText fun hf => hformat hf value (hfine hf)
  | newI64 handle value =>
    exact h.withDoc fun doc _ hsane => hsane.newNumberText fun _ => numberText_decimalText value
  | newNull handle =>
    have hnull : NodeGood fine .null := trivial
    exact h.withDoc fun doc _ hsane => hsane.newNode hnull rfl
  | objectSet handle node key valueHandle value =>
    exact h.linkIn fun doc hdoc hsane => hsane.objectSet (fun hf => (hfine hf).1) fun hf =>
      (hfine hf).2 doc hdoc
  | arrayPush handle node valueHandle value =>
    exact h.linkIn fun doc hdoc hsane => hsane.arrayPush fun hf => hfine hf doc hdoc
  | docCopy destination source id => exact h.copyIn destination source id

/-- In every history of such calls, every document serialises to a text of its value. -/
theorem documents_serialize_to_themselves (format : Double → Bytes) (finite : Double → Prop)
    (hformat : ∀ value, finite value → NumberText (format value)) {calls : List (JsonCall Double)}
    (hrun : History.Run (FineStep format finite) [] calls docs) :
    ∀ doc ∈ docs, SerializesToItself doc := by
  have hsane : AllSane True docs := by
    refine hrun.invariant (P := fun _ docs => AllSane True docs) (fun doc hdoc => nomatch hdoc) ?_
    rintro _ docs call docs' _ hsane ⟨hfine, rfl⟩
    exact hsane.perform (fun _ => hformat) call fun _ => hfine
  exact fun doc hdoc => (hsane doc hdoc).serializesToItself

theorem documents_serialize_to_themselves_member :
    ∃ docs, docs.length = 1 ∧
      History.Run (FineStep (fun _ : Unit => ascii "0") fun _ => True) []
        [.docObjectNew 0, .newNull 0, .objectSet 0 1 (some (ascii "a")) 0 2] docs ∧
      ∀ doc ∈ docs, SerializesToItself doc := by
  have hno : NoCycle ⟨[.object [], .null], 1, false, jsonMaxBytes, 0, 0⟩ 1 2 := by
    rintro - hreach
    rcases Relation.ReflTransGen.cases_head hreach with heq | ⟨child, ⟨node, hnode, hchild⟩, -⟩
    · exact nomatch heq
    · cases hnode.2
      exact nomatch hchild
  have hfirst : FineStep (fun _ : Unit => ascii "0") (fun _ => True) [] (.docObjectNew 0)
      [⟨[.object []], 1, false, jsonMaxBytes, 0, 0⟩] := ⟨trivial, rfl⟩
  have hsecond : FineStep (fun _ : Unit => ascii "0") (fun _ => True)
      [⟨[.object []], 1, false, jsonMaxBytes, 0, 0⟩] (.newNull 0)
      [⟨[.object [], .null], 1, false, jsonMaxBytes, 0, 0⟩] := ⟨trivial, rfl⟩
  have hthird : FineStep (fun _ : Unit => ascii "0") (fun _ => True)
      [⟨[.object [], .null], 1, false, jsonMaxBytes, 0, 0⟩]
      (.objectSet 0 1 (some (ascii "a")) 0 2)
      [⟨[.object [(ascii "a", 2)], .null], 1, false, jsonMaxBytes, 0, 0⟩] := by
    refine ⟨⟨fun text htext => ?_, fun doc hdoc => ?_⟩, rfl⟩
    · cases htext
      exact ⟨['a'], rfl⟩
    · cases hdoc
      exact hno
  have hrun := History.Run.snoc (.snoc (.snoc (.nil []) hfirst) hsecond) hthird
  exact ⟨_, rfl, hrun, documents_serialize_to_themselves _ _ (fun _ _ => numberText_zero) hrun⟩

/-- An object that was made a member of itself. -/
def selfMember : JsonDoc := ⟨[.object [(ascii "a", 1)]], 1, false, jsonMaxBytes, 0, 0⟩

theorem jsonSerializeNode_selfMember : ∀ (levels : Nat) (path : List Nat) (built : Bytes),
    jsonSerializeNode selfMember 0 levels path 1 built = .error .unfinished
  | 0, _, _ => rfl
  | levels + 1, path, built => by
    have hnode : jsonSerializeNode selfMember 0 (levels + 1) path 1 built =
        (((jsonSerializeNode selfMember 0 levels (1 :: path) 1
          (built ++ [openBrace] ++ [quote] ++ [byte 'a'] ++ [quote] ++ [byte ':'])).bind
            fun built => .ok built).bind fun built => jsonBuilderAppend 0 [closeBrace] built) := rfl
    rw [hnode, jsonSerializeNode_selfMember levels]
    rfl

/-- A string of a byte that is no UTF-8. -/
def strayByte : JsonDoc :=
  ⟨[.object [(ascii "a", 2)], .string [0xff]], 1, false, jsonMaxBytes, 0, 0⟩

/-- An object made a member of itself is serialised without end; a string of arbitrary
bytes gives a text that is not accepted. -/
theorem documents_not_serialized :
    (History.Run (JsonStep fun _ : Unit => ascii "0") []
        [.docObjectNew 0, .objectSet 0 1 (some (ascii "a")) 0 1] [selfMember] ∧
      ∀ levels capacity, jsonDocSerialize levels selfMember capacity = .error .unfinished) ∧
    (History.Run (JsonStep fun _ : Unit => ascii "0") []
        [.docObjectNew 0, .newStringBytes 0 (some [0xff]) 1,
          .objectSet 0 1 (some (ascii "a")) 0 2] [strayByte] ∧
      ¬ SerializesToItself strayByte) := by
  have hfirst : JsonStep (fun _ : Unit => ascii "0") [] (.docObjectNew 0)
      [⟨[.object []], 1, false, jsonMaxBytes, 0, 0⟩] := rfl
  refine ⟨⟨.snoc (.snoc (.nil []) hfirst) rfl, fun levels capacity => ?_⟩, ?_, fun h => ?_⟩
  · have hlimit : (if selfMember.bounded then selfMember.byteLimit else 0) = 0 := rfl
    have hroot : selfMember.root = 1 := rfl
    unfold jsonDocSerialize
    rw [hlimit, hroot, jsonSerializeNode_selfMember]
    rfl
  · have hsecond : JsonStep (fun _ : Unit => ascii "0")
        [⟨[.object []], 1, false, jsonMaxBytes, 0, 0⟩] (.newStringBytes 0 (some [0xff]) 1)
        [⟨[.object [], .string [0xff]], 1, false, jsonMaxBytes, 0, 0⟩] := rfl
    exact .snoc (.snoc (.snoc (.nil []) hfirst) hsecond) rfl
  · have hout : jsonDocSerialize 2 strayByte 100 =
        .ok [openBrace, quote, byte 'a', quote, byte ':', quote, 0xff, quote, closeBrace] := rfl
    have hvalue : Reads strayByte.nodes 0 strayByte.root (.object [(ascii "a", .string [0xff])]) :=
      ⟨_, ⟨by decide, rfl⟩, ⟨rfl, by decide, rfl⟩, trivial⟩
    obtain ⟨tree, hheld, -, hparsed⟩ := (h 100).2 2 _ hout
    obtain rfl := (hheld _).mp hvalue
    obtain ⟨parsed, hparsed, -⟩ := hparsed (by decide) ⟨by decide, by decide⟩
    exact nomatch hparsed

end Histories

end Sengoo.Stdlib
