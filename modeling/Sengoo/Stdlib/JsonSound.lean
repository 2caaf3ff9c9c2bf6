import Sengoo.Fallible
import Sengoo.Stdlib.JsonNumbers
import Sengoo.Stdlib.JsonStrings
import Sengoo.Stdlib.JsonTable

/-!
What the parser accepts is a text of the grammar, and its table is the one the tree of
that text emits. The loops over items and members are treated for any parser of values
one level further down; the levels are the induction.
-/

namespace Sengoo.Stdlib

open Fallible Json List

variable {slot levels : Nat} {parser' parser : JsonParser} {parseValue : ParseValue}
  {node : JsonNode} {doc : JsonDoc} {t : Bytes}

section Nodes

variable {doc' : JsonDoc}

theorem jsonDocAddNode_eq_ok {id : Nat} (h : jsonDocAddNode doc node = .ok (id, doc')) :
    doc.nodes.length < jsonMaxNodes ∧ id = doc.nodes.length + 1 ∧
      doc' = { doc with nodes := doc.nodes ++ [node] } := by
  by_cases hfull : jsonMaxNodes ≤ doc.nodes.length
  · exact nomatch (if_pos hfull).symm.trans h
  · cases (if_neg hfull).symm.trans h
    exact ⟨Nat.not_le.mp hfull, rfl, rfl⟩

/-- Documents that differ in their nodes and counters only. -/
def SameFrame (doc doc' : JsonDoc) : Prop := doc'.bounded = doc.bounded ∧ doc'.root = doc.root

theorem jsonPayloadCharge_eq_ok {bytes : Nat} (h : jsonPayloadCharge doc bytes = .ok doc') :
    ∃ payload, doc' = { doc with ownedPayload := payload } := by
  unfold jsonPayloadCharge at h
  split_ifs at h
  · cases h
    exact ⟨_, rfl⟩
  · cases h
    exact ⟨_, rfl⟩

theorem jsonEdgeCharge_eq_ok (h : jsonEdgeCharge doc = .ok doc') :
    ∃ edges, doc' = { doc with ownedEdges := edges } := by
  unfold jsonEdgeCharge at h
  split_ifs at h
  · cases h
    exact ⟨_, rfl⟩
  · cases h
    exact ⟨_, rfl⟩

theorem jsonNodeFromId_succ (doc : JsonDoc) (slot : Nat) :
    jsonNodeFromId doc (slot + 1) = doc.nodes[slot]? :=
  if_neg (Nat.succ_ne_zero slot)

theorem jsonArrayAppend_eq_ok {child : Nat} (h : jsonArrayAppend doc (slot + 1) child = .ok doc') :
    doc'.nodes = linkItem doc.nodes slot child ∧ SameFrame doc doc' := by
  unfold jsonArrayAppend at h
  rw [jsonNodeFromId_succ] at h
  split at h
  case h_1 items hslot =>
    obtain ⟨charged, hcharge, h⟩ := bind_eq_ok h
    cases h
    obtain ⟨edges, rfl⟩ := jsonEdgeCharge_eq_ok hcharge
    rw [linkItem_eq hslot]
    exact ⟨rfl, rfl, rfl⟩
  case h_2 => exact nomatch h

theorem jsonObjectSetMember_eq_ok {child : Nat} {key : Bytes}
    (h : jsonObjectSetMember doc (slot + 1) key child = .ok doc') :
    doc'.nodes = linkMember doc.nodes slot key child ∧ SameFrame doc doc' := by
  unfold jsonObjectSetMember at h
  rw [jsonNodeFromId_succ] at h
  split at h
  case h_1 members hslot =>
    rw [linkMember_eq hslot]
    split at h
    · cases h
      exact ⟨rfl, rfl, rfl⟩
    · obtain ⟨paid, hpayload, h⟩ := bind_eq_ok h
      obtain ⟨charged, hcharge, h⟩ := bind_eq_ok h
      cases h
      obtain ⟨payload, rfl⟩ := jsonPayloadCharge_eq_ok hpayload
      obtain ⟨edges, rfl⟩ := jsonEdgeCharge_eq_ok hcharge
      exact ⟨rfl, rfl, rfl⟩
  case h_2 => exact nomatch h

end Nodes

section Loops

/-- A parser that looks at the byte behind the space succeeds only if there is one. -/
theorem skipWs_next {α : Type} {e : JsonError} {next : UInt8 → Bytes → Except JsonError α} {a : α}
    {text : Bytes} (h : (match text.dropWhile isSpace with
      | [] => Except.error e
      | b :: rest => next b rest) = .ok a) :
    ∃ w b rest, Space w ∧ text = w ++ b :: rest ∧ text.dropWhile isSpace = b :: rest ∧
      next b rest = .ok a := by
  obtain ⟨w, hw, hrest, -⟩ := exists_dropWhile isSpace text
  cases hnext : text.dropWhile isSpace with
  | nil => rw [hnext] at h; exact nomatch h
  | cons b rest =>
    rw [hnext] at h hrest
    exact ⟨w, b, rest, hw, hrest, rfl, h⟩

/-- A parser of values that accepts only texts of the grammar, of so many levels. -/
def Sound (parseValue : ParseValue) (levels : Nat) : Prop :=
  ∀ ⦃parser parser' : JsonParser⦄ ⦃id : Nat⦄, parseValue parser = .ok (id, parser') →
    ∃ w t tree, Space w ∧ ValueText t tree ∧ parser.rest = w ++ (t ++ parser'.rest) ∧
      tree.depth ≤ levels ∧ id = parser.doc.nodes.length + 1 ∧
      parser'.doc.nodes = emitTree tree parser.doc.nodes ∧
      parser'.doc.nodes.length ≤ jsonMaxNodes

theorem itemsText_space {w : Bytes} {items : List Tree} (hw : Space w) (ht : ItemsText t items) :
    ItemsText (w ++ t) items := by
  cases ht with
  | last hw₁ ht hw' =>
    rw [← append_assoc]
    exact .last (forall_mem_append.mpr ⟨hw, hw₁⟩) ht hw'
  | more hw₁ ht hw' hrest =>
    rw [← append_assoc]
    exact .more (forall_mem_append.mpr ⟨hw, hw₁⟩) ht hw' hrest

theorem membersText_space {w : Bytes} {members : List (Bytes × Tree)} (hw : Space w)
    (ht : MembersText t members) : MembersText (w ++ t) members := by
  cases ht with
  | last hw₁ hk hw₂ hw₃ ht hw' =>
    rw [← append_assoc]
    exact .last (forall_mem_append.mpr ⟨hw, hw₁⟩) hk hw₂ hw₃ ht hw'
  | more hw₁ hk hw₂ hw₃ ht hw' hrest =>
    rw [← append_assoc]
    exact .more (forall_mem_append.mpr ⟨hw, hw₁⟩) hk hw₂ hw₃ ht hw' hrest

theorem jsonArrayLoop_sound {parseValue : ParseValue} {levels slot : Nat}
    (hparse : Sound parseValue levels) : ∀ {rounds : Nat} {parser parser' : JsonParser},
    jsonArrayLoop parseValue (slot + 1) rounds parser = .ok parser' →
      ∃ t items, ItemsText t items ∧ parser.rest = t ++ byte ']' :: parser'.rest ∧
        itemsDepth items ≤ levels ∧ parser'.doc.nodes = emitItems slot items parser.doc.nodes ∧
        parser'.doc.nodes.length ≤ jsonMaxNodes
  | 0, _, _, h => nomatch h
  | rounds + 1, parser, parser', h => by
    obtain ⟨-, h⟩ := of_guard h
    obtain ⟨⟨child, after⟩, hvalue, h⟩ := bind_eq_ok h
    obtain ⟨w, t, tree, hw, ht, hrest, hdepth, rfl, hnodes, hmax⟩ := hparse hvalue
    simp only at h
    cases hlink : jsonArrayAppend after.doc (slot + 1) (parser.doc.nodes.length + 1) with
    | error e => rw [hlink] at h; cases h
    | ok doc =>
      rw [hlink] at h
      have hdoc := (jsonArrayAppend_eq_ok hlink).1
      rw [hnodes] at hdoc
      simp only [JsonParser.skipWs] at h
      obtain ⟨w', b, rest, hw', hrest', -, h⟩ := skipWs_next h
      by_cases hcomma : b = byte ','
      · -- another item follows, behind space that the loop skips
        obtain ⟨t', items, ht', hrest'', hdepth', hnodes', hmax'⟩ :=
          jsonArrayLoop_sound hparse ((if_pos hcomma).symm.trans h)
        obtain ⟨w'', hw'', hskip, -⟩ := exists_dropWhile isSpace rest
        refine ⟨_, tree :: items, .more hw ht hw' (itemsText_space hw'' ht'), ?_,
          Nat.max_le.mpr ⟨hdepth, hdepth'⟩, ?_, hmax'⟩
        · simp only at hrest''
          rw [hrest, hrest', hcomma, hskip, hrest'']
          simp
        · rw [hnodes']
          exact congrArg (emitItems slot items) hdoc
      · obtain ⟨hclose, h⟩ := of_check ((if_neg hcomma).symm.trans h)
        cases h
        refine ⟨_, [tree], .last hw ht hw', ?_, Nat.max_le.mpr ⟨hdepth, Nat.zero_le _⟩, hdoc, ?_⟩
        · rw [hrest, hrest', hclose]
          simp
        · simp only
          rw [hdoc, (relinked_linkItem ..).length, ← hnodes]
          exact hmax

theorem jsonParseKey_sound {key : Bytes} (h : jsonParseKey parser = .ok (key, parser')) :
    ∃ k w, StringText k key ∧ Space w ∧ parser.rest = k ++ (w ++ byte ':' :: parser'.rest) ∧
      parser'.doc = parser.doc := by
  obtain ⟨⟨value, after⟩, hstring, h⟩ := bind_eq_ok h
  obtain ⟨k, hk, hrest, hafter⟩ := jsonParseStringRaw_sound hstring
  obtain ⟨w, colon, rest, hw, hrest', -, h⟩ := skipWs_next h
  obtain ⟨hcolon, h⟩ := of_guard h
  cases h
  refine ⟨k, w, hk, hw, ?_, ?_⟩
  · rw [hrest, hrest', not_not.mp hcolon]
  · change after.doc = parser.doc
    exact hafter ▸ rfl

theorem jsonObjectLoop_sound
    (hparse : Sound parseValue levels) : ∀ {rounds : Nat} {parser parser' : JsonParser},
    jsonObjectLoop parseValue (slot + 1) rounds parser = .ok parser' →
      ∃ t members, MembersText t members ∧ parser.rest = t ++ closeBrace :: parser'.rest ∧
        membersDepth members ≤ levels ∧
        parser'.doc.nodes = emitMembers slot members parser.doc.nodes ∧
        parser'.doc.nodes.length ≤ jsonMaxNodes
  | 0, _, _, h => nomatch h
  | rounds + 1, parser, parser', h => by
    obtain ⟨-, h⟩ := of_guard h
    obtain ⟨⟨key, before⟩, hkey, h⟩ := bind_eq_ok h
    obtain ⟨⟨child, after⟩, hvalue, h⟩ := bind_eq_ok h
    obtain ⟨k, w₁, hk, hw₁, hrest, hdoc⟩ := jsonParseKey_sound hkey
    obtain ⟨w₂, t, tree, hw₂, ht, hrest₂, hdepth, rfl, hnodes, hmax⟩ := hparse hvalue
    rw [hdoc] at hnodes
    simp only [hdoc] at h
    cases hlink : jsonObjectSetMember after.doc (slot + 1) key (parser.doc.nodes.length + 1) with
    | error e => rw [hlink] at h; cases h
    | ok doc =>
      rw [hlink] at h
      have hlinked := (jsonObjectSetMember_eq_ok hlink).1
      rw [hnodes] at hlinked
      have hspace : Space [] := forall_mem_nil _
      simp only [JsonParser.skipWs] at h
      obtain ⟨w', b, rest, hw', hrest', -, h⟩ := skipWs_next h
      by_cases hcomma : b = byte ','
      · obtain ⟨t', members, ht', hrest'', hdepth', hnodes', hmax'⟩ :=
          jsonObjectLoop_sound hparse ((if_pos hcomma).symm.trans h)
        obtain ⟨w'', hw'', hskip, -⟩ := exists_dropWhile isSpace rest
        refine ⟨_, (key, tree) :: members, .more hspace hk hw₁ hw₂ ht hw'
          (membersText_space hw'' ht'), ?_, Nat.max_le.mpr ⟨hdepth, hdepth'⟩, ?_, hmax'⟩
        · simp only at hrest''
          rw [hrest, hrest₂, hrest', hcomma, hskip, hrest'']
          simp
        · rw [hnodes']
          exact congrArg (emitMembers slot members) hlinked
      · obtain ⟨hclose, h⟩ := of_check ((if_neg hcomma).symm.trans h)
        cases h
        refine ⟨_, [(key, tree)], .last hspace hk hw₁ hw₂ ht hw', ?_,
          Nat.max_le.mpr ⟨hdepth, Nat.zero_le _⟩, hlinked, ?_⟩
        · rw [hrest, hrest₂, hrest', hclose]
          simp
        · simp only
          rw [hlinked, (relinked_linkMember ..).length, ← hnodes]
          exact hmax

end Loops

section Values

/-- What a parser of values gives for the bytes from the first of the value on. -/
def Parsed (parser parser' : JsonParser) (text : Bytes) (levels id : Nat) : Prop :=
  ∃ t tree, ValueText t tree ∧ text = t ++ parser'.rest ∧ tree.depth ≤ levels ∧
    id = parser.doc.nodes.length + 1 ∧ parser'.doc.nodes = emitTree tree parser.doc.nodes ∧
    parser'.doc.nodes.length ≤ jsonMaxNodes

variable {id : Nat}

/-- A container from its opening byte on, with the loop over its entries. -/
def parseContainer (node : JsonNode) (close : UInt8) (unterminated : String)
    (loop : Nat → Nat → JsonParser → Except JsonError JsonParser) (parser : JsonParser) :
    Except JsonError (Nat × JsonParser) := do
  let (id, doc) ← jsonDocAddNode parser.doc node
  let parser := JsonParser.skipWs { parser with doc := doc }
  match parser.rest with
  | [] => parser.fail unterminated
  | b :: rest =>
    if b = close then .ok (id, { parser with rest := rest })
    else do
      let parser ← loop id parser.rest.length parser
      .ok (id, parser)

theorem parseContainer_sound {close : UInt8} {unterminated : String}
    {loop : Nat → Nat → JsonParser → Except JsonError JsonParser}
    (h : parseContainer node close unterminated loop parser = .ok (id, parser')) :
    id = parser.doc.nodes.length + 1 ∧ ∃ w, Space w ∧
      ((parser.rest = w ++ close :: parser'.rest ∧ parser'.doc.nodes = parser.doc.nodes ++ [node] ∧
          parser'.doc.nodes.length ≤ jsonMaxNodes) ∨
        ∃ after rounds, parser.rest = w ++ after.rest ∧
          after.doc.nodes = parser.doc.nodes ++ [node] ∧
          loop (parser.doc.nodes.length + 1) rounds after = .ok parser') := by
  obtain ⟨⟨slot, doc⟩, hadd, h⟩ := bind_eq_ok h
  obtain ⟨hlt, rfl, rfl⟩ := jsonDocAddNode_eq_ok hadd
  simp only [JsonParser.skipWs] at h
  obtain ⟨w, b, rest, hw, hrest, hnext, h⟩ := skipWs_next h
  by_cases hclose : b = close
  · cases (if_pos hclose).symm.trans h
    exact ⟨rfl, w, hw, .inl ⟨hclose ▸ hrest, rfl, by rw [length_append]; exact hlt⟩⟩
  · obtain ⟨last, hloop, h⟩ := bind_eq_ok ((if_neg hclose).symm.trans h)
    cases h
    exact ⟨rfl, w, hw, .inr ⟨_, _, hnext ▸ hrest, rfl, hloop⟩⟩

theorem jsonParseArray_sound (hparse : Sound parseValue levels)
    (h : jsonParseArray parseValue parser = .ok (id, parser')) :
    Parsed parser parser' (byte '[' :: parser.rest) (levels + 1) id := by
  obtain ⟨hid, w, hw, ⟨hrest, hnodes, hmax⟩ | ⟨after, rounds, hrest, hnodes, hloop⟩⟩ :=
    parseContainer_sound h
  · refine ⟨_, .array [], .emptyArray hw, ?_, Nat.succ_le_succ (Nat.zero_le _), hid, hnodes, hmax⟩
    rw [hrest]
    simp
  · obtain ⟨t, items, ht, hrest', hdepth, hnodes', hmax⟩ := jsonArrayLoop_sound hparse hloop
    refine ⟨_, .array items, .array (itemsText_space hw ht), ?_,
      Nat.succ_le_succ hdepth, hid, ?_, hmax⟩
    · rw [hrest, hrest']
      simp
    · rw [hnodes', hnodes, emitTree]

theorem jsonParseObject_sound (hparse : Sound parseValue levels)
    (h : jsonParseObject parseValue parser = .ok (id, parser')) :
    Parsed parser parser' (openBrace :: parser.rest) (levels + 1) id := by
  obtain ⟨hid, w, hw, ⟨hrest, hnodes, hmax⟩ | ⟨after, rounds, hrest, hnodes, hloop⟩⟩ :=
    parseContainer_sound h
  · refine ⟨_, .object [], .emptyObject hw, ?_, Nat.succ_le_succ (Nat.zero_le _), hid, hnodes, hmax⟩
    rw [hrest]
    simp
  · obtain ⟨t, members, ht, hrest', hdepth, hnodes', hmax⟩ := jsonObjectLoop_sound hparse hloop
    refine ⟨_, .object members, .object (membersText_space hw ht), ?_,
      Nat.succ_le_succ hdepth, hid, ?_, hmax⟩
    · rw [hrest, hrest']
      simp
    · rw [hnodes', hnodes, emitTree]

/-- A value without parts: one node is added for it. -/
theorem parsed_leaf {doc' : JsonDoc} {text : Bytes} {tree : Tree}
    (htext : text = t ++ parser'.rest) (hdoc : doc.nodes = parser.doc.nodes)
    (hadd : jsonDocAddNode doc node = .ok (id, doc')) (hparser : parser'.doc = doc')
    (ht : ValueText t tree) (hdepth : tree.depth = 1)
    (htree : emitTree tree parser.doc.nodes = parser.doc.nodes ++ [node]) :
    Parsed parser parser' text (levels + 1) id := by
  obtain ⟨hlt, hid, rfl⟩ := jsonDocAddNode_eq_ok hadd
  rw [hdoc] at hlt hid
  refine ⟨t, tree, ht, htext, by omega, hid, ?_, ?_⟩
  · rw [hparser, htree, ← hdoc]
  · rw [hparser]
    simp only [hdoc, length_append, length_singleton]
    omega

theorem jsonParseNumber_sound (h : jsonParseNumber parser = .ok (id, parser')) :
    Parsed parser parser' parser.rest (levels + 1) id := by
  obtain ⟨rest, hskip, h⟩ := bind_eq_ok h
  obtain ⟨t, ht, hrest⟩ := jsonSkipNumber_sound hskip
  have htake : parser.rest.take (parser.rest.length - rest.length) = t := by
    rw [hrest]
    simp
  rw [htake] at h
  obtain ⟨charged, hcharge, h⟩ := bind_eq_ok h
  obtain ⟨result, hadd, h⟩ := bind_eq_ok h
  cases h
  obtain ⟨payload, hpaid⟩ := jsonPayloadCharge_eq_ok hcharge
  exact parsed_leaf hrest (by rw [hpaid]) hadd rfl (.number ht) rfl rfl

theorem jsonMatchLiteral_sound {literal : Bytes} {tree : Tree}
    (h : jsonMatchLiteral literal parser node = .ok (id, parser')) (ht : ValueText literal tree)
    (hdepth : tree.depth = 1)
    (htree : emitTree tree parser.doc.nodes = parser.doc.nodes ++ [node]) :
    Parsed parser parser' parser.rest (levels + 1) id := by
  obtain ⟨hmatch, h⟩ := of_check h
  obtain ⟨result, hadd, h⟩ := bind_eq_ok h
  cases h
  have hrest := take_append_drop literal.length parser.rest
  rw [hmatch] at hrest
  exact parsed_leaf hrest.symm rfl hadd rfl ht hdepth htree

theorem jsonParseStringValue_sound (h : (do
      let (value, parser) ← jsonParseStringRaw parser
      let doc ← jsonPayloadCharge parser.doc value.length
      let (id, doc) ← jsonDocAddNode doc (.string value)
      .ok (id, { parser with doc := doc }) : Except JsonError (Nat × JsonParser)) =
        .ok (id, parser')) :
    Parsed parser parser' parser.rest (levels + 1) id := by
  obtain ⟨⟨value, after⟩, hstring, h⟩ := bind_eq_ok h
  obtain ⟨t, ht, hrest, hafter⟩ := jsonParseStringRaw_sound hstring
  obtain ⟨charged, hcharge, h⟩ := bind_eq_ok h
  obtain ⟨result, hadd, h⟩ := bind_eq_ok h
  cases h
  have hdoc : after.doc = parser.doc := hafter ▸ rfl
  rw [hdoc] at hcharge
  obtain ⟨payload, hpaid⟩ := jsonPayloadCharge_eq_ok hcharge
  exact parsed_leaf hrest (by rw [hpaid]) hadd rfl (.string ht) rfl rfl

/-- A value is parsed from its first byte on. -/
theorem jsonParseValue_first (hparse : Sound (jsonParseValue levels) levels)
    (h : jsonParseValue (levels + 1) parser = .ok (id, parser')) :
    Parsed parser parser' (parser.rest.dropWhile isSpace) (levels + 1) id := by
  unfold jsonParseValue at h
  simp only [JsonParser.skipWs] at h
  cases hnext : parser.rest.dropWhile isSpace with
  | nil => simp only [hnext] at h; exact nomatch h
  | cons c rest =>
    simp only [hnext] at h
    by_cases hquote : c = quote
    · exact jsonParseStringValue_sound ((if_pos hquote).symm.trans h)
    replace h := (if_neg hquote).symm.trans h
    by_cases hbrace : c = openBrace
    · rw [hbrace]
      exact jsonParseObject_sound hparse ((if_pos hbrace).symm.trans h)
    replace h := (if_neg hbrace).symm.trans h
    by_cases hbracket : c = byte '['
    · rw [hbracket]
      exact jsonParseArray_sound hparse ((if_pos hbracket).symm.trans h)
    replace h := (if_neg hbracket).symm.trans h
    by_cases htrue : c = byte 't'
    · exact jsonMatchLiteral_sound ((if_pos htrue).symm.trans h) .true rfl rfl
    replace h := (if_neg htrue).symm.trans h
    by_cases hfalse : c = byte 'f'
    · exact jsonMatchLiteral_sound ((if_pos hfalse).symm.trans h) .false rfl rfl
    replace h := (if_neg hfalse).symm.trans h
    by_cases hnull : c = byte 'n'
    · exact jsonMatchLiteral_sound ((if_pos hnull).symm.trans h) .null rfl rfl
    replace h := (if_neg hnull).symm.trans h
    by_cases hnumber : c = byte '-' ∨ isDigit c
    · exact jsonParseNumber_sound ((if_pos hnumber).symm.trans h)
    · exact nomatch (if_neg hnumber).symm.trans h

theorem jsonParseValue_sound : ∀ levels, Sound (jsonParseValue levels) levels
  | 0 => fun _ _ _ h => nomatch h
  | levels + 1 => by
    intro parser parser' id h
    obtain ⟨t, tree, ht, htext, hdepth, hid, hnodes, hmax⟩ :=
      jsonParseValue_first (jsonParseValue_sound levels) h
    obtain ⟨w, hw, hrest, -⟩ := exists_dropWhile isSpace parser.rest
    rw [htext] at hrest
    exact ⟨w, t, tree, hw, ht, hrest, hdepth, hid, hnodes, hmax⟩

/-- What is accepted, under any byte limit, is a document of the grammar within the limits
on levels and values; the table is the one its tree emits. -/
theorem jsonParseBytesLimit_sound {data : Bytes} {limit : Nat}
    (h : jsonParseBytesLimit data limit = .ok doc) :
    ∃ tree, DocumentText data tree ∧ tree.depth ≤ jsonMaxDepth ∧ tree.count ≤ jsonMaxNodes ∧
      doc.nodes = emitTree tree [] ∧ doc.root = 1 := by
  obtain ⟨-, h⟩ := of_guard h
  obtain ⟨⟨root, parser⟩, hvalue, h⟩ := bind_eq_ok h
  obtain ⟨w, t, tree, hw, ht, hrest, hdepth, hid, hnodes, hmax⟩ :=
    jsonParseValue_sound jsonMaxDepth hvalue
  obtain ⟨w', hw', hrest', -⟩ := exists_dropWhile isSpace parser.rest
  obtain ⟨hend, h⟩ := of_guard h
  cases h
  rw [show parser.rest.dropWhile isSpace = [] from not_not.mp hend, append_nil] at hrest'
  rw [hrest'] at hrest
  refine ⟨tree, ?_, hdepth, ?_, hnodes, hid⟩
  · simp only at hrest
    rw [hrest]
    exact .mk hw ht hw'
  · rw [hnodes, length_emitTree] at hmax
    simpa [jsonDocAllocate] using hmax

end Values

end Sengoo.Stdlib
