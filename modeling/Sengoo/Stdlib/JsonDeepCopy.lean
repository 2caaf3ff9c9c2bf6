import Sengoo.Stdlib.JsonRoundTrip

/-!
Deep copies. A copy that succeeds is a value of its own: its nodes are new, it reads as
its source does, and edits of the one side are not seen on the other. A cyclic value has
no tree, so its copy fails. This is for documents whose links lead to nodes, as those of
every history of calls do.
-/

namespace Sengoo.Stdlib

open Json List Relation

variable {nodes : List JsonNode} {id : Nat} {tree : Tree} {doc : JsonDoc}

/-- Links lead to nodes of the document, and no object has a key twice. -/
structure Linked (doc : JsonDoc) : Prop where
  closed : ∀ id child, Link doc.nodes id child → 0 < child ∧ child ≤ doc.nodes.length
  keys : KeysDistinct doc.nodes

/-- The calls leave linked documents, whatever they store and also where they close a cycle. -/
theorem documents_linked {Double : Type} {format : Double → Bytes} {docs : List JsonDoc}
    {calls : List (JsonCall Double)} (hrun : History.Run (JsonStep format) [] calls docs) :
    ∀ doc ∈ docs, Linked doc := by
  have hformat : False → ∀ value, False → NumberText (format value) := False.elim
  have hsane : AllSane False docs := by
    refine hrun.invariant (P := fun _ docs => AllSane False docs) (fun doc hdoc => nomatch hdoc) ?_
    rintro _ docs call docs' _ hsane rfl
    exact hsane.perform hformat call False.elim
  intro doc hdoc
  obtain ⟨htable, -⟩ := hsane doc hdoc
  exact ⟨htable.closed, fun members hmem => (htable.good _ hmem).1⟩

/-- A part of the value has itself below it. -/
def Cyclic (nodes : List JsonNode) (id : Nat) : Prop :=
  ∃ node, ReflTransGen (Link nodes) id node ∧ TransGen (Link nodes) node node

theorem Reads.not_cyclic (h : Reads nodes 0 id tree) : ¬ Cyclic nodes id := by
  rintro ⟨node, hreach, hcycle⟩
  obtain ⟨tree, htree⟩ : ∃ tree, Reads nodes 0 node tree := by
    clear hcycle
    induction hreach with
    | refl => exact ⟨tree, h⟩
    | tail _ hlink ih =>
      obtain ⟨_, htree⟩ := ih
      obtain ⟨tree', htree', -⟩ := htree.exists_child hlink
      exact ⟨tree', htree'⟩
  have hlower {other : Nat} (hbelow : TransGen (Link nodes) node other) :
      ∃ tree', Reads nodes 0 other tree' ∧ tree'.depth < tree.depth := by
    induction hbelow with
    | single hlink => exact htree.exists_child hlink
    | tail _ hlink ih =>
      obtain ⟨middle, hmiddle, hlt⟩ := ih
      obtain ⟨tree', htree', hlt'⟩ := hmiddle.exists_child hlink
      exact ⟨tree', htree', Nat.lt_trans hlt' hlt⟩
  obtain ⟨tree', htree', hlt⟩ := hlower hcycle
  rw [Reads.unique _ _ htree' htree] at hlt
  exact absurd hlt (Nat.lt_irrefl _)

/-- The node `child`, put behind the table `target`, holds a copy of the value of the node
`id` in the table `origin`. -/
structure DeepCopy (origin target after : List JsonNode) (id child : Nat) (tree : Tree) :
    Prop where
  value : ∀ held, Reads origin 0 id held ↔ held = tree
  copied : Reads after target.length child tree
  earlier : ∀ i < target.length, after[i]? = target[i]?
  copyEdited : ∀ nodes : List JsonNode, (∀ i < origin.length, nodes[i]? = origin[i]?) →
    Reads nodes 0 id tree
  sourceEdited : ∀ nodes : List JsonNode, (∀ i, target.length ≤ i → nodes[i]? = after[i]?) →
    Reads nodes target.length child tree

theorem deepCopy_emitTree {origin : List JsonNode} (target : List JsonNode)
    (hkeys : KeysDistinct origin) (h : Reads origin 0 id tree) :
    DeepCopy origin target (emitTree tree target) id (target.length + 1) tree where
  value held := by
    refine ⟨fun hheld => Reads.unique _ _ hheld h, ?_⟩
    rintro rfl
    exact h
  copied := by
    have hcopied := reads_emitTree tree target
    rwa [denote_of_distinct tree (h.distinct hkeys tree)] at hcopied
  earlier i hi := getElem?_emitTree tree target hi
  copyEdited nodes hsame := by
    refine h.transfer (fun i node hnode => ⟨hnode.1, ?_⟩) tree
    have hle := hnode.le_length
    have hpos := hnode.1
    rw [hsame _ (by omega)]
    exact hnode.2
  sourceEdited nodes hsame := by
    have hcopied := reads_emitTree tree target
    rw [denote_of_distinct tree (h.distinct hkeys tree)] at hcopied
    refine hcopied.transfer (fun i node hnode => ⟨hnode.1, ?_⟩) tree
    have hpos := hnode.1
    rw [hsame _ (by omega)]
    exact hnode.2

/-- A copy succeeds with a deep copy, for which it charges the bytes of the text of the
value, or fails and leaves the documents as they were; it fails for a cyclic value. -/
theorem jsonCopyIn_deepCopy (docs : List JsonDoc) (destination source id : Nat)
    (target origin : JsonDoc) (hdestination : docs[destination]? = some target)
    (hsource : docs[source]? = some origin) (hlinked : Linked origin) :
    let result := jsonCopyIn docs destination source id
    (∀ error, result.1 = .error error → result.2 = docs) ∧
      (Cyclic origin.nodes id → ∀ child, result.1 ≠ .ok child) ∧
      ∀ child, result.1 = .ok child → ∃ copy tree,
        jsonCopyNode (if destination = source then none else some origin) jsonMaxDepth [] id
          ⟨target, 0⟩ = .ok (child, copy) ∧
        result.2 = docs.set destination copy.destination ∧
        DeepCopy origin.nodes target.nodes copy.destination.nodes id child tree ∧
        copy.bytes = (renderTree tree).length ∧
        ∀ limit levels out, jsonSerializeNode origin limit levels [] id [] = .ok out →
          copy.bytes = out.length := by
  generalize hfrom : (if destination = source then none else some origin) = read
  have hsame : read.getD target = origin := by
    subst hfrom
    split_ifs with heq
    · subst heq
      exact Option.some.inj (hdestination.symm.trans hsource)
    · rfl
  have hresult : jsonCopyIn docs destination source id =
      ((jsonDocCopy read id target).1, docs.set destination (jsonDocCopy read id target).2) := by
    simp only [jsonCopyIn, hsource, jsonWithDoc, hdestination, hfrom]
  rcases jsonDocCopy_cases read id target with ⟨e, heq⟩ | ⟨child, copy, heq, hcopy, hid⟩
  · rw [hresult, heq]
    obtain ⟨hlt, rfl⟩ := List.getElem?_eq_some_iff.mp hdestination
    exact ⟨fun _ _ => set_getElem_self hlt, nofun, nofun⟩
  · rw [hresult, heq]
    rw [hsame] at hid
    have hview := hsame ▸ CopyView.start read target
    obtain ⟨tree, htree, rfl, ⟨hnodes, -⟩, hbytes⟩ :=
      jsonCopyNode_exact hlinked.closed jsonMaxDepth [] hcopy hview hid
    rw [Nat.zero_add] at hbytes
    refine ⟨nofun, fun hcyclic => absurd hcyclic htree.not_cyclic, ?_⟩
    rintro _ ⟨⟩
    refine ⟨copy, tree, hcopy, rfl, ?_, hbytes, fun limit levels out hout => ?_⟩
    · rw [hnodes]
      exact deepCopy_emitTree target.nodes hlinked.keys htree
    · obtain ⟨tree', htree', rfl⟩ := jsonSerializeNode_writes levels [] hout
      rw [hbytes, Reads.unique _ _ htree' htree]
      rfl

/-- An array with one item twice. -/
def sharedItem : JsonDoc := ⟨[.array [2, 2], .null], 1, false, jsonMaxBytes, 0, 0⟩

theorem jsonCopyIn_deepCopy_shared : (jsonCopyIn [sharedItem] 0 0 1).1 = .ok 3 ∧ ∃ after tree,
    DeepCopy sharedItem.nodes sharedItem.nodes after 1 3 tree := by
  have hparsed : JsonStep (fun _ : Unit => ascii "0") [] (.parse (ascii "[null]") 0)
      [⟨[.array [2], .null], 1, false, jsonMaxBytes, 0, 0⟩] := rfl
  have hrun : History.Run (JsonStep fun _ : Unit => ascii "0") []
      [.parse (ascii "[null]") 0, .arrayPush 0 1 0 2] [sharedItem] :=
    .snoc (.snoc (.nil []) hparsed) rfl
  have hlinked := documents_linked hrun sharedItem (mem_singleton_self _)
  obtain ⟨copy, tree, -, -, hdeep, -⟩ :=
    (jsonCopyIn_deepCopy [sharedItem] 0 0 1 sharedItem sharedItem rfl rfl hlinked).2.2 3 rfl
  exact ⟨rfl, copy.destination.nodes, tree, hdeep⟩

end Sengoo.Stdlib
