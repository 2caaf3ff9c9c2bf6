import Sengoo.Stdlib.JsonGraph
import Sengoo.Stdlib.JsonSerialize

/-!
A copy that succeeds has emitted the tree of its source into the destination. The source
may be the destination itself: what is copied stands in the table as it was at the start,
which the nodes added meanwhile do not touch.
-/

namespace Sengoo.Stdlib

open Json Fallible List

variable {id : Nat} {copy copy' : JsonCopy} {charge : JsonCopy → Except JsonError JsonCopy}
  {first : Bool}

theorem SameFrame.trans {doc doc' doc'' : JsonDoc} (h : SameFrame doc doc')
    (h' : SameFrame doc' doc'') : SameFrame doc doc'' :=
  ⟨h'.1.trans h.1, h'.2.trans h.2⟩

section Charges

theorem jsonCopyCharge_eq_ok {bytes : Nat} (h : jsonCopyCharge bytes copy = .ok copy') :
    copy' = { copy with bytes := copy.bytes + bytes } := by
  unfold jsonCopyCharge at h
  split_ifs at h
  cases h
  rfl

theorem length_jsonEscapeByte (b : UInt8) : (jsonEscapeByte b).length = jsonEncodedLength b := by
  unfold jsonEscapeByte jsonEncodedLength
  split_ifs <;> simp_all

theorem foldlM_charge_eq_ok : ∀ {value : Bytes} {copy copy' : JsonCopy},
    value.foldlM (fun copy b => jsonCopyCharge (jsonEncodedLength b) copy) copy = .ok copy' →
      copy' = { copy with bytes := copy.bytes + (value.flatMap jsonEscapeByte).length }
  | [], _, _, h => by
    cases h
    rfl
  | b :: value, copy, copy', h => by
    obtain ⟨middle, hfirst, hrest⟩ := bind_eq_ok h
    rw [foldlM_charge_eq_ok hrest, jsonCopyCharge_eq_ok hfirst, flatMap_cons, length_append,
      length_jsonEscapeByte, Nat.add_assoc]

theorem jsonCopyStringCharge_eq_ok {value : Bytes}
    (h : jsonCopyStringCharge value copy = .ok copy') :
    copy' = { copy with bytes := copy.bytes + (renderString value).length } := by
  obtain ⟨middle, hfirst, hrest⟩ := bind_eq_ok h
  rw [foldlM_charge_eq_ok hrest, jsonCopyCharge_eq_ok hfirst, renderString, length_cons,
    length_append, Nat.add_assoc]
  congr 2
  exact Nat.add_comm 2 _

theorem jsonCopyComma_eq_ok (h : jsonCopyComma first copy = .ok copy') :
    copy' = { copy with bytes := copy.bytes + (if first then [] else [byte ',']).length } := by
  cases first with
  | true =>
    cases h
    rfl
  | false => exact jsonCopyCharge_eq_ok h

/-- The destination of the one copy grows to the table of the other. -/
def Copied (copy copy' : JsonCopy) (nodes : List JsonNode) : Prop :=
  copy'.destination.nodes = nodes ∧ SameFrame copy.destination copy'.destination

theorem jsonCopyAdd_copied {node : JsonNode} {payload bytes : Nat}
    (hcharge : ∀ c c', charge c = .ok c' → c' = { c with bytes := c.bytes + bytes })
    (h : jsonCopyAdd node payload charge copy = .ok (id, copy')) :
    id = copy.destination.nodes.length + 1 ∧
      Copied copy copy' (copy.destination.nodes ++ [node]) ∧ copy'.bytes = copy.bytes + bytes := by
  obtain ⟨⟨id', doc⟩, hadd, h⟩ := bind_eq_ok h
  obtain ⟨charged, hcharged, h⟩ := bind_eq_ok h
  obtain ⟨paid, hpaid, h⟩ := bind_eq_ok h
  cases h
  obtain rfl := hcharge _ _ hcharged
  obtain ⟨-, hid, rfl⟩ := jsonDocAddNode_eq_ok hadd
  obtain ⟨payload, rfl⟩ := jsonPayloadCharge_eq_ok hpaid
  exact ⟨hid, ⟨rfl, rfl, rfl⟩, rfl⟩

end Charges

section Copying

variable {source : Option JsonDoc} {base : List JsonNode}

/-- What the copy reads is the table from which it started. -/
structure CopyView (source : Option JsonDoc) (base : List JsonNode) (copy : JsonCopy) : Prop where
  same : ∀ i < base.length, (jsonCopySource source copy).nodes[i]? = base[i]?
  below : source = none → base.length ≤ copy.destination.nodes.length

variable {node : JsonNode}

theorem CopyView.step (h : CopyView source base copy) (hkeep : source = none → ∀ i < base.length,
      copy'.destination.nodes[i]? = copy.destination.nodes[i]?)
    (hle : copy.destination.nodes.length ≤ copy'.destination.nodes.length) :
    CopyView source base copy' := by
  refine ⟨fun i hi => ?_, fun hsource => Nat.le_trans (h.below hsource) hle⟩
  cases source with
  | none => exact (hkeep rfl i hi).trans (h.same i hi)
  | some doc => exact h.same i hi

theorem CopyView.charged (h : CopyView source base copy) {bytes : Nat}
    (heq : copy' = { copy with bytes := bytes }) : CopyView source base copy' := by
  subst heq
  exact h.step (fun _ _ _ => rfl) (Nat.le_refl _)

/-- A copy of children that emits their trees and charges the bytes of their texts. -/
def CopyExact (source : Option JsonDoc) (base : List JsonNode) (copyChild : CopyChild) : Prop :=
  ∀ ⦃id child : Nat⦄ ⦃copy copy' : JsonCopy⦄, copyChild id copy = .ok (child, copy') →
    CopyView source base copy → id ≤ base.length →
    ∃ tree, Reads base 0 id tree ∧ child = copy.destination.nodes.length + 1 ∧
      Copied copy copy' (emitTree tree copy.destination.nodes) ∧
      copy'.bytes = copy.bytes + (renderTree tree).length

theorem CopyView.emitted {tree : Tree} (h : CopyView source base copy)
    (hcopied : Copied copy copy' (emitTree tree copy.destination.nodes)) :
    CopyView source base copy' := by
  refine h.step (fun hsource i hi => ?_) ?_
  · rw [hcopied.1]
    exact getElem?_emitTree tree _ (Nat.lt_of_lt_of_le hi (h.below hsource))
  · rw [hcopied.1, length_emitTree]
    exact Nat.le_add_right ..

variable {slot : Nat} {copyChild : CopyChild}

theorem CopyView.linked (h : CopyView source base copy) {doc : JsonDoc} {child : Nat}
    (hslot : source = none → base.length ≤ slot)
    (hlink : Relinked slot child copy.destination.nodes doc.nodes) :
    CopyView source base { copy with destination := doc } := by
  refine h.step (fun hsource i hi => ?_) (Nat.le_of_eq hlink.length.symm)
  exact hlink.same (Nat.ne_of_lt (Nat.lt_of_lt_of_le hi (hslot hsource)))

theorem jsonCopyItems_exact (hchild : CopyExact source base copyChild)
    (hslot : source = none → base.length ≤ slot) : ∀ {items : List Nat} {first : Bool}
    {copy copy' : JsonCopy}, jsonCopyItems copyChild (slot + 1) first items copy = .ok copy' →
      CopyView source base copy → (∀ item ∈ items, item ≤ base.length) →
      ∃ trees, ReadsItems base 0 items trees ∧
        Copied copy copy' (emitItems slot trees copy.destination.nodes) ∧
        copy'.bytes = copy.bytes + (renderItems first trees).length
  | [], _, copy, _, h, _, _ => by
    cases h
    exact ⟨[], trivial, ⟨rfl, rfl, rfl⟩, rfl⟩
  | item :: items, first, copy, copy', h, hview, hitems => by
    obtain ⟨charged, hcomma, h⟩ := bind_eq_ok h
    obtain ⟨⟨child, after⟩, hcopy, h⟩ := bind_eq_ok h
    obtain ⟨doc, hlink, hrest⟩ := bind_eq_ok h
    have hcharged := jsonCopyComma_eq_ok hcomma
    have hview' := hview.charged hcharged
    subst hcharged
    obtain ⟨tree, htree, rfl, hcopied, hbytes⟩ :=
      hchild hcopy hview' (hitems item (mem_cons_self ..))
    obtain ⟨hnodes, hframe⟩ := jsonArrayAppend_eq_ok hlink
    obtain ⟨trees, htrees, hrest', hbytes'⟩ := jsonCopyItems_exact hchild hslot hrest
      ((hview'.emitted hcopied).linked hslot (hnodes ▸ relinked_linkItem ..))
      fun other hother => hitems other (mem_cons_of_mem item hother)
    refine ⟨tree :: trees, ⟨htree, htrees⟩, ⟨?_, ?_⟩, ?_⟩
    · rw [hrest'.1, emitItems]
      rw [hnodes, hcopied.1]
    · exact (hcopied.2.trans hframe).trans hrest'.2
    · simp only [hbytes', hbytes, renderItems, length_append, Nat.add_assoc]

theorem jsonCopyMembers_exact (hchild : CopyExact source base copyChild)
    (hslot : source = none → base.length ≤ slot) : ∀ {members : List (Bytes × Nat)} {first : Bool}
    {copy copy' : JsonCopy}, jsonCopyMembers copyChild (slot + 1) first members copy = .ok copy' →
      CopyView source base copy → (∀ value ∈ members.map Prod.snd, value ≤ base.length) →
      ∃ trees, ReadsMembers base 0 members trees ∧
        Copied copy copy' (emitMembers slot trees copy.destination.nodes) ∧
        copy'.bytes = copy.bytes + (renderMembers first trees).length
  | [], _, copy, _, h, _, _ => by
    cases h
    exact ⟨[], trivial, ⟨rfl, rfl, rfl⟩, rfl⟩
  | (key, value) :: members, first, copy, copy', h, hview, hvalues => by
    obtain ⟨comma, hcomma, h⟩ := bind_eq_ok h
    obtain ⟨string, hstring, h⟩ := bind_eq_ok h
    obtain ⟨charged, hcolon, h⟩ := bind_eq_ok h
    obtain ⟨⟨child, after⟩, hcopy, h⟩ := bind_eq_ok h
    obtain ⟨doc, hlink, hrest⟩ := bind_eq_ok h
    obtain rfl := jsonCopyComma_eq_ok hcomma
    obtain rfl := jsonCopyStringCharge_eq_ok hstring
    have hcharged := jsonCopyCharge_eq_ok hcolon
    have hview' := hview.charged hcharged
    subst hcharged
    obtain ⟨tree, htree, rfl, hcopied, hbytes⟩ :=
      hchild hcopy hview' (hvalues value (mem_cons_self ..))
    obtain ⟨hnodes, hframe⟩ := jsonObjectSetMember_eq_ok hlink
    obtain ⟨trees, htrees, hrest', hbytes'⟩ := jsonCopyMembers_exact hchild hslot hrest
      ((hview'.emitted hcopied).linked hslot (hnodes ▸ relinked_linkMember ..))
      fun other hother => hvalues other (mem_cons_of_mem value hother)
    refine ⟨(key, tree) :: trees, ⟨⟨rfl, htree⟩, htrees⟩, ⟨?_, ?_⟩, ?_⟩
    · rw [hrest'.1, emitMembers]
      rw [hnodes, hcopied.1]
    · exact (hcopied.2.trans hframe).trans hrest'.2
    · simp only [hbytes', hbytes, renderMembers, length_append, length_cons, Nat.add_assoc,
        Nat.add_comm, Nat.add_left_comm]

/-- A value without parts: one node is copied. -/
theorem copied_leaf {child payload : Nat} {tree : Tree} (htree : Reads base 0 id tree)
    (hemit : emitTree tree copy.destination.nodes = copy.destination.nodes ++ [node])
    (hcharge : ∀ c c', charge c = .ok c' →
      c' = { c with bytes := c.bytes + (renderTree tree).length })
    (h : jsonCopyAdd node payload charge copy = .ok (child, copy')) :
    ∃ tree, Reads base 0 id tree ∧ child = copy.destination.nodes.length + 1 ∧
      Copied copy copy' (emitTree tree copy.destination.nodes) ∧
      copy'.bytes = copy.bytes + (renderTree tree).length := by
  obtain ⟨hid, hcopied, hbytes⟩ := jsonCopyAdd_copied hcharge h
  rw [← hemit] at hcopied
  exact ⟨tree, htree, hid, hcopied, hbytes⟩

theorem CopyView.added (h : CopyView source base copy)
    (hcopied : Copied copy copy' (copy.destination.nodes ++ [node])) :
    CopyView source base copy' := by
  refine h.step (fun hsource i hi => ?_) ?_
  · rw [hcopied.1]
    exact getElem?_append_left (Nat.lt_of_lt_of_le hi (h.below hsource))
  · rw [hcopied.1, length_append]
    exact Nat.le_add_right ..

theorem CopyView.nodeAt (h : CopyView source base copy) (hid : id ≤ base.length)
    (hnode : jsonNodeFromId (jsonCopySource source copy) id = some node) :
    NodeAt base 0 id node := by
  obtain ⟨hpos, hat⟩ := nodeAt_of_jsonNodeFromId hnode
  rw [h.same (id - 1) (by omega)] at hat
  exact ⟨hpos, hat⟩

theorem jsonCopyNode_exact
    (hclosed : ∀ id child, Link base id child → 0 < child ∧ child ≤ base.length) :
    ∀ (levels : Nat) (path : List Nat), CopyExact source base (jsonCopyNode source levels path)
  | 0, _ => fun _ _ _ _ h => nomatch h
  | levels + 1, path => by
    intro id child copy copy' h hview hid
    have hexact := jsonCopyNode_exact hclosed levels (id :: path)
    unfold jsonCopyNode at h
    split_ifs at h
    cases hnode : jsonNodeFromId (jsonCopySource source copy) id with
    | none => rw [hnode] at h; exact nomatch h
    | some node =>
      have hat := hview.nodeAt hid hnode
      have hbelow : ∀ child ∈ nodeChildren node, child ≤ base.length := fun child hmem =>
        (hclosed id child ⟨node, hat, hmem⟩).2
      rw [hnode] at h
      cases node with
      | null =>
        have htree : Reads base 0 id .null := hat
        exact copied_leaf htree rfl (fun _ _ => jsonCopyCharge_eq_ok) h
      | bool value =>
        have htree : Reads base 0 id (.bool value) := hat
        refine copied_leaf htree rfl (fun _ _ hcharge => ?_) h
        rw [jsonCopyCharge_eq_ok hcharge]
        cases value <;> rfl
      | number text =>
        have htree : Reads base 0 id (.number (text.getD (ascii "0"))) := ⟨text, hat, rfl⟩
        exact copied_leaf htree rfl (fun _ _ => jsonCopyCharge_eq_ok) h
      | string value =>
        have htree : Reads base 0 id (.string value) := hat
        exact copied_leaf htree rfl (fun _ _ => jsonCopyStringCharge_eq_ok) h
      | array items =>
        obtain ⟨⟨target, added⟩, hadd, h⟩ := bind_eq_ok h
        obtain ⟨after, hitems, h⟩ := bind_eq_ok h
        cases h
        obtain ⟨rfl, hadded, hbytes⟩ := jsonCopyAdd_copied (fun _ _ => jsonCopyCharge_eq_ok) hadd
        obtain ⟨trees, htrees, hcopied, hbytes'⟩ :=
          jsonCopyItems_exact hexact hview.below hitems (hview.added hadded) hbelow
        refine ⟨.array trees, ⟨items, hat, htrees⟩, rfl, ⟨?_, hadded.2.trans hcopied.2⟩, ?_⟩
        · rw [hcopied.1, hadded.1]
          rfl
        · simp only [renderTree, length_cons, length_append, length_nil]
          omega
      | object members =>
        obtain ⟨⟨target, added⟩, hadd, h⟩ := bind_eq_ok h
        obtain ⟨after, hmembers, h⟩ := bind_eq_ok h
        cases h
        obtain ⟨rfl, hadded, hbytes⟩ := jsonCopyAdd_copied (fun _ _ => jsonCopyCharge_eq_ok) hadd
        obtain ⟨trees, htrees, hcopied, hbytes'⟩ :=
          jsonCopyMembers_exact hexact hview.below hmembers (hview.added hadded) hbelow
        refine ⟨.object trees, ⟨members, hat, htrees⟩, rfl, ⟨?_, hadded.2.trans hcopied.2⟩, ?_⟩
        · rw [hcopied.1, hadded.1]
          rfl
        · simp only [renderTree, length_cons, length_append, length_nil]
          omega

theorem CopyView.start (source : Option JsonDoc) (doc : JsonDoc) :
    CopyView source (source.getD doc).nodes ⟨doc, 0⟩ := by
  refine ⟨fun _ _ => rfl, ?_⟩
  rintro rfl
  exact Nat.le_refl _

theorem jsonDocCopy_cases (source : Option JsonDoc) (id : Nat) (doc : JsonDoc) :
    (∃ e, jsonDocCopy source id doc = (.error e, doc)) ∨
      ∃ child copy, jsonDocCopy source id doc = (.ok child, copy.destination) ∧
        jsonCopyNode source jsonMaxDepth [] id ⟨doc, 0⟩ = .ok (child, copy) ∧
        id ≤ (source.getD doc).nodes.length := by
  unfold jsonDocCopy
  cases hnode : jsonNodeFromId (source.getD doc) id with
  | none => exact .inl ⟨_, rfl⟩
  | some node =>
    cases hcopy : jsonCopyNode source jsonMaxDepth [] id ⟨doc, 0⟩ with
    | error e => exact .inl ⟨e, rfl⟩
    | ok result =>
      exact .inr ⟨result.1, result.2, rfl, rfl, (nodeAt_of_jsonNodeFromId hnode).le_length⟩

end Copying

end Sengoo.Stdlib
