import Sengoo.Stdlib.JsonSound

/-!
The other direction, and both together: every text of the grammar within the limits is
accepted. For a document without explicit limit no charge is made, so the parser ends
in a state that can be written down.
-/

namespace Sengoo.Stdlib

open Json List

variable {rounds levels : Nat} {parseValue : ParseValue} {t w rest key : Bytes}
  {parser after : JsonParser} {members : List (Bytes × Tree)} {c b : UInt8} {tree : Tree}
  {items : List Tree} {doc : JsonDoc} {nodes : List JsonNode}

section Heads

theorem ne_of_test {test : UInt8 → Bool} (hc : test c = true) (hb : test b = false) : c ≠ b := by
  rintro rfl
  rw [hc] at hb
  exact nomatch hb

theorem isSpace_eq_false_of_isDigit (hc : isDigit c = true) : isSpace c = false := by
  have h₁ := ne_of_test hc (b := byte ' ') rfl
  have h₂ := ne_of_test hc (b := byte '\n') rfl
  have h₃ := ne_of_test hc (b := byte '\r') rfl
  have h₄ := ne_of_test hc (b := byte '\t') rfl
  simp [isSpace, h₁, h₂, h₃, h₄]

theorem numberByte_eq_false_of_isSpace (hc : isSpace c = true) : numberByte c = false := by
  have hdigit : isDigit c = false := by
    cases hd : isDigit c with
    | false => rfl
    | true => exact absurd hc (by simp [isSpace_eq_false_of_isDigit hd])
  have h₁ := ne_of_test hc (b := byte '.') rfl
  have h₂ := ne_of_test hc (b := byte 'e') rfl
  have h₃ := ne_of_test hc (b := byte 'E') rfl
  simp [numberByte, hdigit, h₁, h₂, h₃]

theorem stops_space_append (hw : Space w) (hrest : Stops numberByte rest) :
    Stops numberByte (w ++ rest) := by
  cases w with
  | nil => exact hrest
  | cons b w => exact stops_cons.mpr (numberByte_eq_false_of_isSpace (hw b (mem_cons_self ..)))

theorem numberText_head (ht : NumberText t) :
    ∃ c rest, t = c :: rest ∧ (c = byte '-' ∨ isDigit c = true) := by
  cases ht with
  | mk hminus hinteger =>
    obtain ⟨d, ds, rfl, hd⟩ := exists_integerText_head hinteger
    rcases hminus with rfl | rfl
    · exact ⟨d, _, rfl, .inr hd⟩
    · exact ⟨byte '-', _, rfl, .inl rfl⟩

theorem stringText_head {value : Bytes} (ht : StringText t value) : ∃ rest, t = quote :: rest := by
  cases ht with
  | mk => exact ⟨_, rfl⟩

/-- A value starts with a byte that is neither space nor the end of an array. -/
theorem valueText_head {tree : Tree} (ht : ValueText t tree) :
    ∃ c rest, t = c :: rest ∧ isSpace c = false ∧ c ≠ byte ']' := by
  cases ht with
  | null => exact ⟨byte 'n', _, rfl, rfl, by decide⟩
  | true => exact ⟨byte 't', _, rfl, rfl, by decide⟩
  | false => exact ⟨byte 'f', _, rfl, rfl, by decide⟩
  | number ht =>
    obtain ⟨c, rest, rfl, rfl | hd⟩ := numberText_head ht
    · exact ⟨_, _, rfl, rfl, by decide⟩
    · exact ⟨c, rest, rfl, isSpace_eq_false_of_isDigit hd, ne_of_test hd rfl⟩
  | string ht =>
    obtain ⟨rest, rfl⟩ := stringText_head ht
    exact ⟨_, _, rfl, rfl, by decide⟩
  | emptyArray | array | emptyObject | object => exact ⟨_, _, rfl, rfl, by decide⟩

/-- The next byte that is not space starts an item; it does not end the array. -/
theorem itemsText_first {items : List Tree} (ht : ItemsText t items) (rest : Bytes) :
    ∃ b after, (t ++ rest).dropWhile isSpace = b :: after ∧ b ≠ byte ']' := by
  cases ht with
  | last hw ht hw' | more hw ht hw' hrest =>
    obtain ⟨c, t', rfl, hc, hne⟩ := valueText_head ht
    rw [append_assoc]
    exact ⟨c, _, dropWhile_of_stops hw (stops_cons.mpr hc), hne⟩

theorem membersText_first (ht : MembersText t members)
    (rest : Bytes) : ∃ b after, (t ++ rest).dropWhile isSpace = b :: after ∧ b ≠ closeBrace := by
  cases ht with
  | last hw hk hw₁ hw₂ ht hw' | more hw hk hw₁ hw₂ ht hw' hrest =>
    obtain ⟨k', rfl⟩ := stringText_head hk
    rw [append_assoc]
    exact ⟨quote, _, dropWhile_of_stops hw (stops_cons.mpr rfl), by decide⟩

/-- The space before a value is what skipping takes. -/
theorem dropWhile_value (hw : Space w) (ht : ValueText t tree)
    (rest : Bytes) : (w ++ (t ++ rest)).dropWhile isSpace = t ++ rest := by
  obtain ⟨c, t', rfl, hc, -⟩ := valueText_head ht
  exact dropWhile_of_stops hw (stops_cons.mpr hc)

theorem dropWhile_string {k : Bytes} (hw : Space w) (hk : StringText k key) (rest : Bytes) :
    (w ++ (k ++ rest)).dropWhile isSpace = k ++ rest := by
  obtain ⟨k', rfl⟩ := stringText_head hk
  exact dropWhile_of_stops hw (stops_cons.mpr rfl)

theorem dropWhile_byte (hw : Space w) (hb : isSpace b = false)
    (rest : Bytes) : (w ++ b :: rest).dropWhile isSpace = b :: rest :=
  dropWhile_of_stops hw (stops_cons.mpr hb)

end Heads

section Nodes

theorem jsonDocAddNode_of_lt (h : doc.nodes.length < jsonMaxNodes) (node : JsonNode) :
    jsonDocAddNode doc node =
      .ok (doc.nodes.length + 1, { doc with nodes := doc.nodes ++ [node] }) :=
  if_neg (Nat.not_le.mpr h)

theorem jsonPayloadCharge_unbounded (h : doc.bounded = false) (bytes : Nat) :
    jsonPayloadCharge doc bytes = .ok doc :=
  if_pos h

theorem jsonEdgeCharge_unbounded (h : doc.bounded = false) : jsonEdgeCharge doc = .ok doc :=
  if_pos h

end Nodes

section Loops

/-- The parser further on in its input, with another table. -/
def JsonParser.moved (parser : JsonParser) (rest : Bytes) (nodes : List JsonNode) : JsonParser :=
  { parser with rest := rest, doc := { parser.doc with nodes := nodes } }

theorem jsonArrayAppend_moved (h : parser.doc.bounded = false) {slot : Nat} {items : List Nat}
    (hslot : nodes[slot]? = some (.array items)) (rest : Bytes) (child : Nat) :
    jsonArrayAppend (parser.moved rest nodes).doc (slot + 1) child =
      .ok (parser.moved rest (linkItem nodes slot child)).doc := by
  have hbounded : (parser.moved rest nodes).doc.bounded = false := h
  have hnode : (parser.moved rest nodes).doc.nodes[slot]? = some (.array items) := hslot
  unfold jsonArrayAppend
  rw [jsonNodeFromId_succ, hnode, linkItem_eq hslot]
  simp only [jsonEdgeCharge_unbounded hbounded]
  rfl

theorem jsonObjectSetMember_moved (h : parser.doc.bounded = false)
    {slot : Nat} {members : List (Bytes × Nat)}
    (hslot : nodes[slot]? = some (.object members)) (rest key : Bytes) (child : Nat) :
    jsonObjectSetMember (parser.moved rest nodes).doc (slot + 1) key child =
      .ok (parser.moved rest (linkMember nodes slot key child)).doc := by
  have hbounded : (parser.moved rest nodes).doc.bounded = false := h
  have hnode : (parser.moved rest nodes).doc.nodes[slot]? = some (.object members) := hslot
  unfold jsonObjectSetMember
  rw [jsonNodeFromId_succ, hnode, linkMember_eq hslot]
  simp only [jsonPayloadCharge_unbounded hbounded, bind, Except.bind,
    jsonEdgeCharge_unbounded hbounded]
  exact ite_self _

/-- A parser of values that accepts all texts of the grammar, of so many levels. -/
def Complete (parseValue : ParseValue) (levels : Nat) : Prop :=
  ∀ (parser : JsonParser) ⦃w t last : Bytes⦄ ⦃tree : Tree⦄, Space w → ValueText t tree →
    parser.rest = w ++ (t ++ last) → Stops numberByte last → tree.depth ≤ levels →
    parser.doc.bounded = false → parser.doc.nodes.length + tree.count ≤ jsonMaxNodes →
    parseValue parser =
      .ok (parser.doc.nodes.length + 1, parser.moved last (emitTree tree parser.doc.nodes))

theorem exists_round {before : Bytes} (hrest : parser.rest = before ++ b :: rest)
    (h : parser.rest.length ≤ rounds) :
    ∃ n, rounds = n + 1 ∧ rest.length ≤ n ∧ parser.rest ≠ [] := by
  rw [hrest, length_append, length_cons] at h
  exact ⟨rounds - 1, by omega, by omega, by simp [hrest]⟩

theorem jsonParseKey_complete {k last : Bytes} (hk : StringText k key)
    (hw : Space w) (hbounded : parser.doc.bounded = false)
    (hrest : parser.rest = k ++ (w ++ byte ':' :: last)) :
    jsonParseKey parser = .ok (key, { parser with rest := last }) := by
  unfold jsonParseKey
  rw [jsonParseStringRaw_complete hk hbounded hrest]
  simp only [bind, Except.bind, JsonParser.skipWs, dropWhile_byte hw (b := byte ':') rfl]
  exact if_neg (not_not_intro rfl)

section Rounds

variable {slot : Nat} {w' : Bytes} (hparse : Complete parseValue levels) (ht : ValueText t tree)
  (hw : Space w) (hw' : Space w') (hb : isSpace b = false) (hstop : numberByte b = false)
  (hdepth : tree.depth ≤ levels) (hbounded : parser.doc.bounded = false)
  (hcount : parser.doc.nodes.length + tree.count ≤ jsonMaxNodes)
  (hrounds : parser.rest.length ≤ rounds)
include hparse ht hw hw' hb hstop hdepth hbounded hcount hrounds

/-- A round of the loop over items, up to the byte behind the item. -/
theorem jsonArrayLoop_item {ids : List Nat}
    (hrest : parser.rest = (w ++ (t ++ (w' ++ b :: rest))).dropWhile isSpace)
    (hslot : parser.doc.nodes[slot]? = some (.array ids)) : ∃ n, rounds = n + 1 ∧ rest.length ≤ n ∧
      let nodes := linkItem (emitTree tree parser.doc.nodes) slot (parser.doc.nodes.length + 1)
      nodes[slot]? = some (.array (ids ++ [parser.doc.nodes.length + 1])) ∧
        jsonArrayLoop parseValue (slot + 1) rounds parser =
          if b = byte ',' then
            jsonArrayLoop parseValue (slot + 1) n (parser.moved (rest.dropWhile isSpace) nodes)
          else if b = byte ']' then .ok (parser.moved rest nodes)
          else (parser.moved (b :: rest) nodes).fail "expected comma or array end" := by
  obtain ⟨hlt, -⟩ := List.getElem?_eq_some_iff.mp hslot
  have hslot' := (getElem?_emitTree tree parser.doc.nodes hlt).trans hslot
  rw [dropWhile_value hw ht] at hrest
  have hspace : Space [] := fun b hb => nomatch hb
  have hvalue := hparse parser hspace ht hrest
    (stops_space_append hw' (stops_cons.mpr hstop)) hdepth hbounded hcount
  obtain ⟨n, rfl, hn, hne⟩ := exists_round (hrest.trans (append_assoc ..).symm) hrounds
  refine ⟨n, rfl, hn, getElem?_linkItem_self hslot' _, ?_⟩
  rw [jsonArrayLoop, if_neg hne, hvalue]
  simp only [bind, Except.bind, jsonArrayAppend_moved hbounded hslot']
  simp only [JsonParser.skipWs, JsonParser.moved, dropWhile_byte hw' hb]

theorem jsonObjectLoop_member {ids : List (Bytes × Nat)} {k w₁ w₂ : Bytes} (hk : StringText k key)
    (hw₁ : Space w₁) (hw₂ : Space w₂)
    (hrest : parser.rest =
      (w ++ (k ++ (w₁ ++ byte ':' :: (w₂ ++ (t ++ (w' ++ b :: rest)))))).dropWhile isSpace)
    (hslot : parser.doc.nodes[slot]? = some (.object ids)) : ∃ n, rounds = n + 1 ∧ rest.length ≤ n ∧
      let nodes := linkMember (emitTree tree parser.doc.nodes) slot key (parser.doc.nodes.length + 1)
      nodes[slot]? = some (.object (setMember key (parser.doc.nodes.length + 1) ids)) ∧
        jsonObjectLoop parseValue (slot + 1) rounds parser =
          if b = byte ',' then
            jsonObjectLoop parseValue (slot + 1) n (parser.moved (rest.dropWhile isSpace) nodes)
          else if b = closeBrace then .ok (parser.moved rest nodes)
          else (parser.moved (b :: rest) nodes).fail "expected comma or object end" := by
  obtain ⟨hlt, -⟩ := List.getElem?_eq_some_iff.mp hslot
  have hslot' := (getElem?_emitTree tree parser.doc.nodes hlt).trans hslot
  rw [dropWhile_string hw hk] at hrest
  have hkey := jsonParseKey_complete hk hw₁ hbounded hrest
  have hvalue : parseValue { parser with rest := w₂ ++ (t ++ (w' ++ b :: rest)) } =
      .ok (_, parser.moved (w' ++ b :: rest) (emitTree tree parser.doc.nodes)) :=
    hparse _ hw₂ ht rfl (stops_space_append hw' (stops_cons.mpr hstop)) hdepth hbounded hcount
  have hbytes : parser.rest = k ++ (w₁ ++ byte ':' :: (w₂ ++ (t ++ w'))) ++ b :: rest := by
    rw [hrest]
    simp
  obtain ⟨n, rfl, hn, hne⟩ := exists_round hbytes hrounds
  refine ⟨n, rfl, hn, getElem?_linkMember_self hslot' key _, ?_⟩
  rw [jsonObjectLoop, if_neg hne, hkey]
  simp only [bind, Except.bind, hvalue, jsonObjectSetMember_moved hbounded hslot']
  simp only [JsonParser.skipWs, JsonParser.moved, dropWhile_byte hw' hb]

end Rounds

theorem jsonArrayLoop_complete (hparse : Complete parseValue levels) (slot : Nat) (last : Bytes) :
    ∀ {items : List Tree} {t : Bytes} (parser : JsonParser) {rounds : Nat} {ids : List Nat},
    ItemsText t items → parser.rest = (t ++ byte ']' :: last).dropWhile isSpace →
      itemsDepth items ≤ levels → parser.doc.bounded = false →
      parser.doc.nodes[slot]? = some (.array ids) →
      parser.doc.nodes.length + itemsCount items ≤ jsonMaxNodes → parser.rest.length ≤ rounds →
      jsonArrayLoop parseValue (slot + 1) rounds parser =
        .ok (parser.moved last (emitItems slot items parser.doc.nodes)) := by
  intro items
  induction items with
  | nil =>
    intro t parser rounds ids ht
    exact nomatch ht
  | cons item items ih =>
    intro t parser rounds ids ht hrest hdepth hbounded hslot hcount hrounds
    obtain ⟨hitem, hitems⟩ := Nat.max_le.mp hdepth
    rw [itemsCount] at hcount
    cases ht with
    | last hw ht hw' =>
      simp only [append_assoc] at hrest
      obtain ⟨n, rfl, -, -, hloop⟩ := jsonArrayLoop_item hparse ht hw hw' rfl rfl hitem
        hbounded (by omega) hrounds hrest hslot
      exact hloop
    | more hw ht hw' ht' =>
      simp only [append_assoc] at hrest
      obtain ⟨n, rfl, hn, hslot', hloop⟩ := jsonArrayLoop_item hparse ht hw hw' rfl rfl hitem
        hbounded (by omega) hrounds hrest hslot
      rw [hloop]
      refine ih _ ht' rfl hitems hbounded hslot' ?_ ?_
      · simp only [JsonParser.moved]
        rw [(relinked_linkItem ..).length, length_emitTree]
        omega
      · exact (dropWhile_suffix isSpace).length_le.trans hn

theorem jsonObjectLoop_complete (hparse : Complete parseValue levels) (slot : Nat) (last : Bytes) :
    ∀ {members : List (Bytes × Tree)} {t : Bytes} (parser : JsonParser) {rounds : Nat}
      {ids : List (Bytes × Nat)},
    MembersText t members → parser.rest = (t ++ closeBrace :: last).dropWhile isSpace →
      membersDepth members ≤ levels → parser.doc.bounded = false →
      parser.doc.nodes[slot]? = some (.object ids) →
      parser.doc.nodes.length + membersCount members ≤ jsonMaxNodes →
      parser.rest.length ≤ rounds →
      jsonObjectLoop parseValue (slot + 1) rounds parser =
        .ok (parser.moved last (emitMembers slot members parser.doc.nodes)) := by
  intro members
  induction members with
  | nil =>
    intro t parser rounds ids ht
    exact nomatch ht
  | cons member members ih =>
    obtain ⟨key, value⟩ := member
    intro t parser rounds ids ht hrest hdepth hbounded hslot hcount hrounds
    obtain ⟨hvalue, hmembers⟩ := Nat.max_le.mp hdepth
    rw [membersCount] at hcount
    cases ht with
    | last hw hk hw₁ hw₂ ht hw' =>
      simp only [append_assoc, cons_append] at hrest
      obtain ⟨n, rfl, -, -, hloop⟩ := jsonObjectLoop_member hparse ht hw hw' rfl rfl hvalue
        hbounded (by omega) hrounds hk hw₁ hw₂ hrest hslot
      exact hloop
    | more hw hk hw₁ hw₂ ht hw' ht' =>
      simp only [append_assoc, cons_append] at hrest
      obtain ⟨n, rfl, hn, hslot', hloop⟩ := jsonObjectLoop_member hparse ht hw hw'
        rfl rfl hvalue hbounded (by omega) hrounds hk hw₁ hw₂ hrest hslot
      rw [hloop]
      refine ih _ ht' rfl hmembers hbounded hslot' ?_ ?_
      · simp only [JsonParser.moved]
        rw [(relinked_linkMember ..).length, length_emitTree]
        omega
      · exact (dropWhile_suffix isSpace).length_le.trans hn

end Loops

section Values

variable {last : Bytes}

theorem parseContainer_complete {node : JsonNode} {close : UInt8} {unterminated : String}
    {loop : Nat → Nat → JsonParser → Except JsonError JsonParser}
    (hcount : parser.doc.nodes.length < jsonMaxNodes)
    (hskip : parser.rest.dropWhile isSpace = b :: rest) (hb : b ≠ close)
    (hloop : loop (parser.doc.nodes.length + 1) (b :: rest).length
      (parser.moved (b :: rest) (parser.doc.nodes ++ [node])) = .ok (parser.moved last nodes)) :
    parseContainer node close unterminated loop parser =
      .ok (parser.doc.nodes.length + 1, parser.moved last nodes) := by
  unfold parseContainer
  rw [jsonDocAddNode_of_lt hcount]
  simp only [bind, Except.bind, JsonParser.skipWs, hskip, if_neg hb]
  simp only [JsonParser.moved] at hloop
  rw [hloop]
  rfl

theorem parseContainer_empty {node : JsonNode} {close : UInt8} {unterminated : String}
    {loop : Nat → Nat → JsonParser → Except JsonError JsonParser} (hw : Space w)
    (hclose : isSpace close = false) (hrest : parser.rest = w ++ close :: last)
    (hcount : parser.doc.nodes.length < jsonMaxNodes) :
    parseContainer node close unterminated loop parser =
      .ok (parser.doc.nodes.length + 1, parser.moved last (parser.doc.nodes ++ [node])) := by
  unfold parseContainer
  rw [jsonDocAddNode_of_lt hcount]
  simp only [JsonParser.skipWs, hrest, dropWhile_byte hw hclose]
  rfl

theorem jsonParseArray_complete (hparse : Complete parseValue levels) (ht : ItemsText t items)
    (hrest : parser.rest = t ++ byte ']' :: last) (hdepth : itemsDepth items ≤ levels)
    (hbounded : parser.doc.bounded = false)
    (hcount : parser.doc.nodes.length + (itemsCount items + 1) ≤ jsonMaxNodes) :
    jsonParseArray parseValue parser = .ok (parser.doc.nodes.length + 1,
      parser.moved last (emitTree (.array items) parser.doc.nodes)) := by
  obtain ⟨b, rest, hskip, hb⟩ := itemsText_first ht (byte ']' :: last)
  refine parseContainer_complete (by omega) (hrest ▸ hskip) hb (jsonArrayLoop_complete hparse _ _ _
    ht hskip.symm hdepth hbounded (nodeAt_append _ _).2 ?_ (Nat.le_refl _))
  simp only [JsonParser.moved, length_append, length_singleton]
  omega

theorem jsonParseObject_complete (hparse : Complete parseValue levels)
    (ht : MembersText t members) (hrest : parser.rest = t ++ closeBrace :: last)
    (hdepth : membersDepth members ≤ levels) (hbounded : parser.doc.bounded = false)
    (hcount : parser.doc.nodes.length + (membersCount members + 1) ≤ jsonMaxNodes) :
    jsonParseObject parseValue parser = .ok (parser.doc.nodes.length + 1,
      parser.moved last (emitTree (.object members) parser.doc.nodes)) := by
  obtain ⟨b, rest, hskip, hb⟩ := membersText_first ht (closeBrace :: last)
  refine parseContainer_complete (by omega) (hrest ▸ hskip) hb (jsonObjectLoop_complete hparse _ _ _
    ht hskip.symm hdepth hbounded (nodeAt_append _ _).2 ?_ (Nat.le_refl _))
  simp only [JsonParser.moved, length_append, length_singleton]
  omega

theorem jsonMatchLiteral_complete {literal : Bytes} (node : JsonNode)
    (hrest : parser.rest = literal ++ last)
    (hcount : parser.doc.nodes.length + 1 ≤ jsonMaxNodes) :
    jsonMatchLiteral literal parser node = .ok (parser.doc.nodes.length + 1,
      parser.moved last (parser.doc.nodes ++ [node])) := by
  unfold jsonMatchLiteral
  rw [hrest, if_pos (by simp), jsonDocAddNode_of_lt (by omega)]
  simp only [drop_left]
  rfl

theorem jsonParseNumber_complete (ht : NumberText t) (hrest : parser.rest = t ++ last)
    (hstop : Stops numberByte last) (hbounded : parser.doc.bounded = false)
    (hcount : parser.doc.nodes.length + 1 ≤ jsonMaxNodes) :
    jsonParseNumber parser = .ok (parser.doc.nodes.length + 1,
      parser.moved last (emitTree (.number t) parser.doc.nodes)) := by
  have htake : (t ++ last).take ((t ++ last).length - last.length) = t := by simp
  unfold jsonParseNumber
  rw [hrest, jsonSkipNumber_complete ht hstop]
  simp only [bind, Except.bind, htake, jsonPayloadCharge_unbounded hbounded]
  rw [jsonDocAddNode_of_lt (by omega)]
  rfl

theorem Tree.one_le_depth (tree : Tree) : 1 ≤ tree.depth := by
  cases tree with
  | array | object => exact Nat.succ_le_succ (Nat.zero_le _)
  | _ => exact Nat.le_refl 1

theorem jsonParseValue_complete : ∀ levels, Complete (jsonParseValue levels) levels
  | 0 => by
    intro parser w t last tree hw ht hrest hstop hdepth
    exact absurd (Nat.le_trans (Tree.one_le_depth tree) hdepth) (by decide)
  | levels + 1 => by
    intro parser w t last tree hw ht hrest hstop hdepth hbounded hcount
    have hparse := jsonParseValue_complete levels
    have hskip : parser.rest.dropWhile isSpace = t ++ last := by
      rw [hrest, dropWhile_value hw ht]
    -- what the parser does on a first byte
    rw [jsonParseValue]
    simp only [JsonParser.skipWs]
    cases ht with
    | null =>
      replace hskip : parser.rest.dropWhile isSpace = byte 'n' :: (ascii "ull" ++ last) := hskip
      simp only [hskip]
      rw [if_neg (by decide), if_neg (by decide),
        if_neg (by decide), if_neg (by decide), if_neg (by decide), if_pos trivial]
      exact jsonMatchLiteral_complete .null rfl hcount
    | true =>
      replace hskip : parser.rest.dropWhile isSpace = byte 't' :: (ascii "rue" ++ last) := hskip
      simp only [hskip]
      rw [if_neg (by decide), if_neg (by decide),
        if_neg (by decide), if_pos trivial]
      exact jsonMatchLiteral_complete (.bool true) rfl hcount
    | false =>
      replace hskip : parser.rest.dropWhile isSpace = byte 'f' :: (ascii "alse" ++ last) := hskip
      simp only [hskip]
      rw [if_neg (by decide), if_neg (by decide),
        if_neg (by decide), if_neg (by decide), if_pos trivial]
      exact jsonMatchLiteral_complete (.bool false) rfl hcount
    | number ht =>
      obtain ⟨c, rest, rfl, hc⟩ := numberText_head ht
      have hne : ∀ b, b ≠ byte '-' → isDigit b = false → c ≠ b := by
        intro b hb hdigit
        rcases hc with rfl | hc
        · exact hb.symm
        · exact ne_of_test hc hdigit
      simp only [hskip, cons_append]
      rw [if_neg (hne _ (by decide) rfl),
        if_neg (hne _ (by decide) rfl), if_neg (hne _ (by decide) rfl),
        if_neg (hne _ (by decide) rfl), if_neg (hne _ (by decide) rfl),
        if_neg (hne _ (by decide) rfl), if_pos hc]
      exact jsonParseNumber_complete ht rfl hstop hbounded hcount
    | @string _ value ht =>
      obtain ⟨rest, rfl⟩ := stringText_head ht
      replace hskip : parser.rest.dropWhile isSpace = quote :: (rest ++ last) := hskip
      have hraw : jsonParseStringRaw { parser with rest := quote :: (rest ++ last) } =
          .ok (value, { parser with rest := last }) :=
        jsonParseStringRaw_complete ht hbounded rfl
      simp only [hskip, hraw, if_true, bind, Except.bind, jsonPayloadCharge_unbounded hbounded]
      rw [jsonDocAddNode_of_lt hcount]
      rfl
    | emptyArray hw' =>
      simp only [hskip, cons_append]
      exact parseContainer_empty hw' rfl (by simp) hcount
    | array ht =>
      simp only [hskip, cons_append]
      exact jsonParseArray_complete hparse ht (by simp) (Nat.le_of_succ_le_succ hdepth) hbounded
        hcount
    | emptyObject hw' =>
      simp only [hskip, cons_append]
      exact parseContainer_empty hw' rfl (by simp) hcount
    | object ht =>
      simp only [hskip, cons_append]
      exact jsonParseObject_complete hparse ht (by simp) (Nat.le_of_succ_le_succ hdepth)
        hbounded hcount

end Values

section Documents

/-- The limits on the levels and the values of a document. -/
def WithinLimits (tree : Tree) : Prop := tree.depth ≤ jsonMaxDepth ∧ tree.count ≤ jsonMaxNodes

section

variable {data : Bytes} (hbytes : data.length ≤ jsonMaxBytes) (hdata : DocumentText data tree)
  (hlimits : WithinLimits tree)
include hbytes hdata hlimits

theorem jsonParseText_complete :
    jsonParseText data = .ok { jsonDocAllocate 0 with nodes := emitTree tree [], root := 1 } := by
  cases hdata with
  | @mk w t w' _ hw ht hw' =>
    have hstop : Stops numberByte w' := by
      have hstop := stops_space_append hw' (stops_nil numberByte)
      rwa [append_nil] at hstop
    have hvalue := jsonParseValue_complete jsonMaxDepth
      ⟨(w ++ (t ++ w')).length, w ++ (t ++ w'), jsonDocAllocate 0⟩ hw ht rfl hstop hlimits.1 rfl
      (by simpa [jsonDocAllocate] using hlimits.2)
    have hend : w'.dropWhile isSpace = [] := dropWhile_eq_nil_iff.mpr hw'
    have hlimit : ¬ (if 0 = 0 then jsonMaxBytes else 0) < (w ++ (t ++ w')).length :=
      Nat.not_lt.mpr hbytes
    unfold jsonParseText jsonParseBytesLimit
    rw [if_neg hlimit, hvalue]
    simp only [bind, Except.bind, JsonParser.skipWs, JsonParser.moved, hend]
    rfl

theorem exists_jsonParseText :
    ∃ doc, jsonParseText data = .ok doc ∧
      ∀ held, Reads doc.nodes 0 doc.root held ↔ held = tree.denote := by
  refine ⟨_, jsonParseText_complete hbytes hdata hlimits, fun held => ⟨fun hheld => ?_, ?_⟩⟩
  · exact Reads.unique _ _ hheld (reads_emitTree tree [])
  · rintro rfl
    exact reads_emitTree tree []

end

/-- Parsing is exact: within the byte limit a text is accepted if and only if it is a text
of the grammar within the limits on levels and values, and then the document holds what
its tree denotes, and nothing else. -/
theorem jsonParseText_exact (data : Bytes) (hbytes : data.length ≤ jsonMaxBytes) :
    ((∃ doc, jsonParseText data = .ok doc) ↔ ∃ tree, DocumentText data tree ∧ WithinLimits tree) ∧
      ∀ doc tree, jsonParseText data = .ok doc → DocumentText data tree → WithinLimits tree →
        ∀ held, Reads doc.nodes 0 doc.root held ↔ held = tree.denote := by
  constructor
  · constructor
    · rintro ⟨doc, hdoc⟩
      obtain ⟨tree, htree, hdepth, hcount, -⟩ := jsonParseBytesLimit_sound hdoc
      exact ⟨tree, htree, hdepth, hcount⟩
    · rintro ⟨tree, htree, hlimits⟩
      obtain ⟨doc, hdoc, -⟩ := exists_jsonParseText hbytes htree hlimits
      exact ⟨doc, hdoc⟩
  · intro doc tree hdoc htree hlimits held
    obtain ⟨doc', hdoc', hheld⟩ := exists_jsonParseText hbytes htree hlimits
    rw [hdoc] at hdoc'
    cases hdoc'
    exact hheld held

theorem documentText_array_true : DocumentText (ascii "[true]") (.array [.bool true]) := by
  have hspace : Space [] := fun b hb => nomatch hb
  have hitems : ItemsText ([] ++ (ascii "true" ++ [])) [.bool true] := .last hspace .true hspace
  have hdocument := DocumentText.mk hspace (ValueText.array hitems) hspace
  exact hdocument

theorem jsonParseText_exact_array_true :
    (∃ doc, jsonParseText (ascii "[true]") = .ok doc) ∧
      ∀ doc held, jsonParseText (ascii "[true]") = .ok doc →
        (Reads doc.nodes 0 doc.root held ↔ held = .array [.bool true]) := by
  have hlimits : WithinLimits (.array [.bool true]) := ⟨by decide, by decide⟩
  have hexact := jsonParseText_exact (ascii "[true]") (by decide)
  refine ⟨hexact.1.mpr ⟨_, documentText_array_true, hlimits⟩, fun doc held hdoc => ?_⟩
  exact hexact.2 doc _ hdoc documentText_array_true hlimits held

end Documents

end Sengoo.Stdlib
