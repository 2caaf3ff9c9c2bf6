import Sengoo.Stdlib.JsonParse

/-!
The table of nodes of a document as a store of trees. `Reads` says which tree stands
at a node; `emitTree` adds the nodes of a tree the way the parser does, a container
before its children and a link after each child. What is emitted is read back as what
the tree denotes, and nodes that were there before stay as they are.
-/

namespace Sengoo.Stdlib

open Json List

section Reading

/-- A node above a bound; with the bound zero, any node of the table. -/
def NodeAt (nodes : List JsonNode) (low id : Nat) (node : JsonNode) : Prop :=
  low < id ∧ nodes[id - 1]? = some node

mutual

/-- The tree at a node, all of it above a bound. -/
def Reads (nodes : List JsonNode) (low : Nat) : Nat → Tree → Prop
  | id, .null => NodeAt nodes low id .null
  | id, .bool value => NodeAt nodes low id (.bool value)
  | id, .number text => ∃ stored, NodeAt nodes low id (.number stored) ∧ stored.getD (ascii "0") = text
  | id, .string value => NodeAt nodes low id (.string value)
  | id, .array trees => ∃ items, NodeAt nodes low id (.array items) ∧ ReadsItems nodes low items trees
  | id, .object trees =>
    ∃ members, NodeAt nodes low id (.object members) ∧ ReadsMembers nodes low members trees

def ReadsItems (nodes : List JsonNode) (low : Nat) : List Nat → List Tree → Prop
  | [], [] => True
  | item :: items, tree :: trees => Reads nodes low item tree ∧ ReadsItems nodes low items trees
  | [], _ :: _ => False
  | _ :: _, [] => False

def ReadsMembers (nodes : List JsonNode) (low : Nat) :
    List (Bytes × Nat) → List (Bytes × Tree) → Prop
  | [], [] => True
  | (key, value) :: members, (key', tree) :: trees =>
    (key = key' ∧ Reads nodes low value tree) ∧ ReadsMembers nodes low members trees
  | [], _ :: _ => False
  | _ :: _, [] => False

end

variable {nodes nodes' : List JsonNode} {low low' : Nat}

mutual

theorem Reads.transfer (hsame : ∀ id node, NodeAt nodes low id node → NodeAt nodes' low' id node) :
    ∀ {id : Nat} (tree : Tree), Reads nodes low id tree → Reads nodes' low' id tree
  | id, .null, h => hsame id _ h
  | id, .bool _, h => hsame id _ h
  | id, .number _, ⟨stored, hnode, htext⟩ => ⟨stored, hsame id _ hnode, htext⟩
  | id, .string _, h => hsame id _ h
  | id, .array trees, ⟨items, hnode, hitems⟩ =>
    ⟨items, hsame id _ hnode, ReadsItems.transfer hsame trees hitems⟩
  | id, .object trees, ⟨members, hnode, hmembers⟩ =>
    ⟨members, hsame id _ hnode, ReadsMembers.transfer hsame trees hmembers⟩

theorem ReadsItems.transfer
    (hsame : ∀ id node, NodeAt nodes low id node → NodeAt nodes' low' id node) :
    ∀ {items : List Nat} (trees : List Tree), ReadsItems nodes low items trees →
      ReadsItems nodes' low' items trees
  | [], [], _ => trivial
  | _ :: _, tree :: trees, h =>
    ⟨Reads.transfer hsame tree h.1, ReadsItems.transfer hsame trees h.2⟩

theorem ReadsMembers.transfer
    (hsame : ∀ id node, NodeAt nodes low id node → NodeAt nodes' low' id node) :
    ∀ {members : List (Bytes × Nat)} (trees : List (Bytes × Tree)),
      ReadsMembers nodes low members trees → ReadsMembers nodes' low' members trees
  | [], [], _ => trivial
  | (_, _) :: _, (_, tree) :: trees, h =>
    ⟨⟨h.1.1, Reads.transfer hsame tree h.1.2⟩, ReadsMembers.transfer hsame trees h.2⟩

end

variable {id child slot : Nat} {node : JsonNode} {items : List Nat} {members : List (Bytes × Nat)}
  {tree : Tree}

theorem NodeAt.unique {node' : JsonNode} (h : NodeAt nodes low id node)
    (h' : NodeAt nodes low id node') : node = node' :=
  Option.some.inj (h.2.symm.trans h'.2)

/-- The kinds of values, numbered as in the runtime. -/
def treeKind : Tree → Nat
  | .null => 0
  | .bool _ => 1
  | .number _ => 2
  | .string _ => 3
  | .array _ => 4
  | .object _ => 5

def nodeKind : JsonNode → Nat
  | .null => 0
  | .bool _ => 1
  | .number _ => 2
  | .string _ => 3
  | .array _ => 4
  | .object _ => 5

theorem Reads.exists_node : ∀ {tree : Tree}, Reads nodes low id tree →
    ∃ node, NodeAt nodes low id node ∧ nodeKind node = treeKind tree
  | .null, h => ⟨_, h, rfl⟩
  | .bool _, h => ⟨_, h, rfl⟩
  | .number _, ⟨_, hnode, _⟩ => ⟨_, hnode, rfl⟩
  | .string _, h => ⟨_, h, rfl⟩
  | .array _, ⟨_, hnode, _⟩ => ⟨_, hnode, rfl⟩
  | .object _, ⟨_, hnode, _⟩ => ⟨_, hnode, rfl⟩

theorem Reads.kind_eq {tree' : Tree} (h : Reads nodes low id tree)
    (h' : Reads nodes low id tree') : treeKind tree = treeKind tree' := by
  obtain ⟨node, hnode, hkind⟩ := h.exists_node
  obtain ⟨node', hnode', hkind'⟩ := h'.exists_node
  rw [← hkind, ← hkind', hnode.unique hnode']

mutual

/-- At a node stands at most one tree. -/
theorem Reads.unique : ∀ {id : Nat} (tree tree' : Tree), Reads nodes low id tree →
    Reads nodes low id tree' → tree = tree'
  | id, tree, tree', h, h' => by
    have hkind := Reads.kind_eq h h'
    -- off the diagonal the kinds differ
    cases tree <;> cases tree' <;> cases hkind
    case null.null => rfl
    case bool.bool | string.string =>
      cases NodeAt.unique h h'
      rfl
    case number.number =>
      obtain ⟨stored, hnode, htext⟩ := h
      obtain ⟨stored', hnode', htext'⟩ := h'
      cases hnode.unique hnode'
      rw [← htext, ← htext']
    case array.array trees trees' =>
      obtain ⟨items, hnode, hitems⟩ := h
      obtain ⟨items', hnode', hitems'⟩ := h'
      cases hnode.unique hnode'
      rw [ReadsItems.unique trees trees' hitems hitems']
    case object.object trees trees' =>
      obtain ⟨members, hnode, hmembers⟩ := h
      obtain ⟨members', hnode', hmembers'⟩ := h'
      cases hnode.unique hnode'
      rw [ReadsMembers.unique trees trees' hmembers hmembers']

theorem ReadsItems.unique : ∀ {items : List Nat} (trees trees' : List Tree),
    ReadsItems nodes low items trees → ReadsItems nodes low items trees' → trees = trees'
  | [], [], [], _, _ => rfl
  | _ :: _, tree :: trees, tree' :: trees', h, h' => by
    rw [Reads.unique tree tree' h.1 h'.1, ReadsItems.unique trees trees' h.2 h'.2]

theorem ReadsMembers.unique : ∀ {members : List (Bytes × Nat)} (trees trees' : List (Bytes × Tree)),
    ReadsMembers nodes low members trees → ReadsMembers nodes low members trees' → trees = trees'
  | [], [], [], _, _ => rfl
  | (_, _) :: _, (key, tree) :: trees, (key', tree') :: trees', h, h' => by
    obtain ⟨⟨rfl, htree⟩, hrest⟩ := h
    obtain ⟨⟨rfl, htree'⟩, hrest'⟩ := h'
    rw [Reads.unique tree tree' htree htree', ReadsMembers.unique trees trees' hrest hrest']

end

theorem ReadsItems.append {item : Nat} (htree : Reads nodes low item tree) :
    ∀ {items : List Nat} {trees : List Tree}, ReadsItems nodes low items trees →
      ReadsItems nodes low (items ++ [item]) (trees ++ [tree])
  | [], [], _ => ⟨htree, trivial⟩
  | _ :: _, _ :: _, h => ⟨h.1, ReadsItems.append htree h.2⟩

theorem ReadsMembers.set {key : Bytes} {value : Nat} (htree : Reads nodes low value tree) :
    ∀ {members : List (Bytes × Nat)} {trees : List (Bytes × Tree)},
      ReadsMembers nodes low members trees →
        ReadsMembers nodes low (setMember key value members) (setMember key tree trees)
  | [], [], _ => ⟨⟨rfl, htree⟩, trivial⟩
  | (other, old) :: members, (other', old') :: trees, h => by
    obtain ⟨⟨rfl, hold⟩, hrest⟩ := h
    unfold setMember
    by_cases heq : other = key
    · rw [if_pos heq, if_pos heq]
      exact ⟨⟨rfl, htree⟩, hrest⟩
    · rw [if_neg heq, if_neg heq]
      exact ⟨⟨rfl, hold⟩, ReadsMembers.set htree hrest⟩

/-- The nodes a node is linked to. -/
def nodeChildren : JsonNode → List Nat
  | .array items => items
  | .object members => members.map Prod.snd
  | _ => []

/-- A link of the table, from a container to a node in it. -/
def Link (nodes : List JsonNode) (id child : Nat) : Prop :=
  ∃ node, NodeAt nodes 0 id node ∧ child ∈ nodeChildren node

theorem ReadsItems.exists_item : ∀ {items : List Nat} {trees : List Tree},
    ReadsItems nodes low items trees → child ∈ items →
      ∃ tree, Reads nodes low child tree ∧ tree.depth ≤ itemsDepth trees
  | _ :: _, tree :: _, h, hmem => by
    rcases mem_cons.mp hmem with rfl | hmem
    · exact ⟨tree, h.1, Nat.le_max_left ..⟩
    · obtain ⟨tree', htree', hdepth⟩ := h.2.exists_item hmem
      exact ⟨tree', htree', Nat.le_trans hdepth (Nat.le_max_right ..)⟩

theorem ReadsMembers.exists_member : ∀ {members : List (Bytes × Nat)}
    {trees : List (Bytes × Tree)}, ReadsMembers nodes low members trees →
      child ∈ members.map Prod.snd →
      ∃ tree, Reads nodes low child tree ∧ tree.depth ≤ membersDepth trees
  | (_, _) :: _, (_, tree) :: _, h, hmem => by
    rcases mem_cons.mp hmem with rfl | hmem
    · exact ⟨tree, h.1.2, Nat.le_max_left ..⟩
    · obtain ⟨tree', htree', hdepth⟩ := h.2.exists_member hmem
      exact ⟨tree', htree', Nat.le_trans hdepth (Nat.le_max_right ..)⟩

/-- Below a node that has a tree, the nodes have trees of less depth. -/
theorem Reads.exists_child (h : Reads nodes 0 id tree)
    (hlink : Link nodes id child) : ∃ tree', Reads nodes 0 child tree' ∧ tree'.depth < tree.depth := by
  obtain ⟨node, hnode, hchild⟩ := hlink
  cases tree with
  | null | bool | string =>
    cases NodeAt.unique h hnode
    exact nomatch hchild
  | number =>
    obtain ⟨_, hnode', -⟩ := h
    cases hnode'.unique hnode
    exact nomatch hchild
  | array trees =>
    obtain ⟨items, hnode', hitems⟩ := h
    cases hnode'.unique hnode
    obtain ⟨tree', htree', hdepth⟩ := hitems.exists_item hchild
    exact ⟨tree', htree', Nat.lt_succ_of_le hdepth⟩
  | object trees =>
    obtain ⟨members, hnode', hmembers⟩ := h
    cases hnode'.unique hnode
    obtain ⟨tree', htree', hdepth⟩ := hmembers.exists_member hchild
    exact ⟨tree', htree', Nat.lt_succ_of_le hdepth⟩

/-- A node that is put in the place of another has its own links, and the rest stay. -/
theorem link_set (h : Link (nodes.set slot node) id child) :
    Link nodes id child ∨ (id = slot + 1 ∧ child ∈ nodeChildren node) := by
  obtain ⟨found, ⟨hpos, hfound⟩, hchild⟩ := h
  by_cases hid : id - 1 = slot
  · have hlt : slot < nodes.length := by
      obtain ⟨hlt, -⟩ := List.getElem?_eq_some_iff.mp hfound
      rw [List.length_set] at hlt
      omega
    rw [hid, List.getElem?_set_self hlt] at hfound
    cases hfound
    exact .inr ⟨by omega, hchild⟩
  · rw [getElem?_set_ne (Ne.symm hid)] at hfound
    exact .inl ⟨found, ⟨hpos, hfound⟩, hchild⟩

theorem link_append (h : Link (nodes ++ [node]) id child) :
    Link nodes id child ∨ (id = nodes.length + 1 ∧ child ∈ nodeChildren node) := by
  obtain ⟨found, ⟨hpos, hfound⟩, hchild⟩ := h
  by_cases hid : id - 1 < nodes.length
  · rw [getElem?_append_left hid] at hfound
    exact .inl ⟨found, ⟨hpos, hfound⟩, hchild⟩
  · obtain ⟨hlt, -⟩ := List.getElem?_eq_some_iff.mp hfound
    rw [List.length_append, List.length_singleton] at hlt
    have hlast : id - 1 = nodes.length := by omega
    rw [hlast, List.getElem?_append_right (Nat.le_refl _), Nat.sub_self] at hfound
    cases hfound
    exact .inr ⟨by omega, hchild⟩

theorem children_append (items : List Nat) (value child : Nat)
    (h : child ∈ nodeChildren (.array (items ++ [value]))) :
    child ∈ nodeChildren (.array items) ∨ child = value := by
  rcases mem_append.mp h with h | h
  · exact .inl h
  · exact .inr (mem_singleton.mp h)

theorem mem_setMember {ν : Type} {key : Bytes} {value : ν} {entry : Bytes × ν} :
    ∀ {members : List (Bytes × ν)}, entry ∈ setMember key value members →
      entry ∈ members ∨ entry = (key, value)
  | [], h => .inr (mem_singleton.mp h)
  | (other, old) :: members, h => by
    unfold setMember at h
    split_ifs at h with heq
    · rcases mem_cons.mp h with rfl | h
      · exact .inr (congrArg (·, value) heq)
      · exact .inl (mem_cons_of_mem _ h)
    · rcases mem_cons.mp h with rfl | h
      · exact .inl (mem_cons_self ..)
      · exact (mem_setMember h).imp_left (mem_cons_of_mem _)

theorem mem_values_setMember {ν : Type} {key : Bytes} {value child : ν}
    {members : List (Bytes × ν)} (h : child ∈ (setMember key value members).map Prod.snd) :
    child ∈ members.map Prod.snd ∨ child = value := by
  obtain ⟨entry, hentry, rfl⟩ := mem_map.mp h
  exact (mem_setMember hentry).imp mem_map_of_mem (congrArg Prod.snd)

end Reading

section Emitting

/-- A child behind the items of the array in a slot. -/
def linkItem (nodes : List JsonNode) (slot child : Nat) : List JsonNode :=
  match nodes[slot]? with
  | some (.array items) => nodes.set slot (.array (items ++ [child]))
  | _ => nodes

/-- A member of the object in a slot. -/
def linkMember (nodes : List JsonNode) (slot : Nat) (key : Bytes) (child : Nat) : List JsonNode :=
  match nodes[slot]? with
  | some (.object members) => nodes.set slot (.object (setMember key child members))
  | _ => nodes

mutual

def emitTree : Tree → List JsonNode → List JsonNode
  | .null, nodes => nodes ++ [.null]
  | .bool value, nodes => nodes ++ [.bool value]
  | .number text, nodes => nodes ++ [.number (some text)]
  | .string value, nodes => nodes ++ [.string value]
  | .array items, nodes => emitItems nodes.length items (nodes ++ [.array []])
  | .object members, nodes => emitMembers nodes.length members (nodes ++ [.object []])

def emitItems (slot : Nat) : List Tree → List JsonNode → List JsonNode
  | [], nodes => nodes
  | item :: items, nodes =>
    emitItems slot items (linkItem (emitTree item nodes) slot (nodes.length + 1))

def emitMembers (slot : Nat) : List (Bytes × Tree) → List JsonNode → List JsonNode
  | [], nodes => nodes
  | (key, value) :: members, nodes =>
    emitMembers slot members (linkMember (emitTree value nodes) slot key (nodes.length + 1))

end

theorem one_le_count (tree : Tree) : 1 ≤ tree.count := by
  cases tree with
  | array | object => exact Nat.le_add_left ..
  | _ => exact Nat.le_refl 1

/-- A table with `count` nodes more. Outside of a slot the nodes stay as they are,
and the links that are new lead upwards, from the slot or from nodes above it. -/
structure Grown (slot count : Nat) (nodes nodes' : List JsonNode) : Prop where
  length : nodes'.length = nodes.length + count
  same : ∀ i < nodes.length, i ≠ slot → nodes'[i]? = nodes[i]?
  upward : ∀ id child, Link nodes' id child →
    Link nodes id child ∨ (slot < id ∧ id < child ∧ child ≤ nodes'.length)

variable {nodes nodes' nodes'' : List JsonNode} {slot slot' count count' child : Nat} {node : JsonNode}

theorem Grown.refl (slot : Nat) (nodes : List JsonNode) : Grown slot 0 nodes nodes :=
  ⟨rfl, fun _ _ _ => rfl, fun _ _ hlink => .inl hlink⟩

theorem Grown.trans (h : Grown slot count nodes nodes') (h' : Grown slot count' nodes' nodes'') :
    Grown slot (count + count') nodes nodes'' := by
  have hlength := h.length
  have hlength' := h'.length
  refine ⟨by omega, fun i hi hne => ?_, fun id child hlink => ?_⟩
  · rw [h'.same i (by omega) hne, h.same i hi hne]
  · rcases h'.upward id child hlink with hlink | hnew
    · rcases h.upward id child hlink with hlink | ⟨hlow, hlt, hle⟩
      · exact .inl hlink
      · exact .inr ⟨hlow, hlt, by omega⟩
    · exact .inr hnew

/-- What happens above the table happens above a slot of it. -/
theorem Grown.inside (h : Grown nodes.length count nodes nodes') (hslot : slot < nodes.length) :
    Grown slot count nodes nodes' := by
  refine ⟨h.length, fun i hi _ => h.same i hi (Nat.ne_of_lt hi), fun id child hlink => ?_⟩
  exact (h.upward id child hlink).imp_right fun hnew => ⟨Nat.lt_trans hslot hnew.1, hnew.2⟩

theorem grown_append (hchildren : nodeChildren node = []) :
    Grown nodes.length 1 nodes (nodes ++ [node]) := by
  refine ⟨List.length_append, fun i hi _ => getElem?_append_left hi, fun id child hlink => ?_⟩
  rcases link_append hlink with hlink | ⟨-, hmem⟩
  · exact .inl hlink
  · rw [hchildren] at hmem
    exact nomatch hmem

/-- At most the node of a slot changes, to one with a child more. -/
def Relinked (slot child : Nat) (nodes nodes' : List JsonNode) : Prop :=
  nodes' = nodes ∨ ∃ old node, nodes[slot]? = some old ∧ nodes' = nodes.set slot node ∧
    ∀ id ∈ nodeChildren node, id ∈ nodeChildren old ∨ id = child

theorem relinked_linkItem (nodes : List JsonNode) (slot child : Nat) :
    Relinked slot child nodes (linkItem nodes slot child) := by
  unfold linkItem
  split
  case h_1 items hold => exact .inr ⟨_, _, hold, rfl, children_append items child⟩
  case h_2 => exact .inl rfl

theorem relinked_linkMember (nodes : List JsonNode) (slot : Nat) (key : Bytes) (child : Nat) :
    Relinked slot child nodes (linkMember nodes slot key child) := by
  unfold linkMember
  split
  case h_1 members hold => exact .inr ⟨_, _, hold, rfl, fun _ => mem_values_setMember⟩
  case h_2 => exact .inl rfl

section

variable (h : Relinked slot child nodes nodes')
include h

theorem Relinked.length : nodes'.length = nodes.length := by
  rcases h with rfl | ⟨_, _, -, rfl, -⟩
  · rfl
  · exact List.length_set

theorem Relinked.same {i : Nat} (hi : i ≠ slot) : nodes'[i]? = nodes[i]? := by
  rcases h with rfl | ⟨_, _, -, rfl, -⟩
  · rfl
  · exact getElem?_set_ne hi.symm

theorem Relinked.link {id found : Nat} (hlink : Link nodes' id found) :
    Link nodes id found ∨ (id = slot + 1 ∧ found = child) := by
  rcases h with rfl | ⟨old, node, hold, rfl, hchildren⟩
  · exact .inl hlink
  · rcases link_set hlink with hlink | ⟨rfl, hmem⟩
    · exact .inl hlink
    · exact (hchildren found hmem).imp (fun hmem => ⟨old, ⟨Nat.succ_pos _, hold⟩, hmem⟩)
        fun heq => ⟨rfl, heq⟩

theorem Relinked.grown (hchild : slot + 1 < child ∧ child ≤ nodes.length) :
    Grown slot 0 nodes nodes' := by
  refine ⟨h.length, fun i _ => h.same, fun id found hlink => ?_⟩
  rcases h.link hlink with hlink | ⟨rfl, rfl⟩
  · exact .inl hlink
  · rw [h.length]
    exact .inr ⟨Nat.lt_succ_self _, hchild⟩

end

mutual

theorem grown_emitTree : ∀ (tree : Tree) (nodes : List JsonNode),
    Grown nodes.length tree.count nodes (emitTree tree nodes)
  | .null, _ => grown_append rfl
  | .bool _, _ => grown_append rfl
  | .number _, _ => grown_append rfl
  | .string _, _ => grown_append rfl
  | .array items, nodes => by
    rw [Tree.count, Nat.add_comm]
    exact (grown_append rfl).trans (grown_emitItems items (nodes ++ [.array []]) (by simp))
  | .object members, nodes => by
    rw [Tree.count, Nat.add_comm]
    exact (grown_append rfl).trans (grown_emitMembers members (nodes ++ [.object []]) (by simp))

theorem grown_emitItems {slot : Nat} : ∀ (items : List Tree) (nodes : List JsonNode),
    slot < nodes.length → Grown slot (itemsCount items) nodes (emitItems slot items nodes)
  | [], nodes, _ => .refl slot nodes
  | item :: items, nodes, hslot => by
    have htree := grown_emitTree item nodes
    have hlength := htree.length
    have hcount := one_le_count item
    have hlink := (htree.inside hslot).trans
      ((relinked_linkItem ..).grown ⟨Nat.succ_lt_succ hslot, by omega⟩)
    exact hlink.trans (grown_emitItems items _ (by rw [hlink.length]; omega))

theorem grown_emitMembers {slot : Nat} : ∀ (members : List (Bytes × Tree))
    (nodes : List JsonNode), slot < nodes.length →
    Grown slot (membersCount members) nodes (emitMembers slot members nodes)
  | [], nodes, _ => .refl slot nodes
  | (key, value) :: members, nodes, hslot => by
    have htree := grown_emitTree value nodes
    have hlength := htree.length
    have hcount := one_le_count value
    have hlink := (htree.inside hslot).trans
      ((relinked_linkMember _ _ key _).grown ⟨Nat.succ_lt_succ hslot, by omega⟩)
    exact hlink.trans (grown_emitMembers members _ (by rw [hlink.length]; omega))

end

theorem length_emitTree (tree : Tree) (nodes : List JsonNode) :
    (emitTree tree nodes).length = nodes.length + tree.count :=
  (grown_emitTree tree nodes).length

/-- Nodes that were there before stay as they are. -/
theorem getElem?_emitTree (tree : Tree) (nodes : List JsonNode) {i : Nat} (hi : i < nodes.length) :
    (emitTree tree nodes)[i]? = nodes[i]? :=
  (grown_emitTree tree nodes).same i hi (Nat.ne_of_lt hi)

theorem nodeAt_append (nodes : List JsonNode) (node : JsonNode) :
    NodeAt (nodes ++ [node]) nodes.length (nodes.length + 1) node :=
  ⟨Nat.lt_succ_self _, by simp⟩

variable {low low' id : Nat} {items : List Nat} {members : List (Bytes × Nat)}

theorem NodeAt.mono (hle : low' ≤ low) (h : NodeAt nodes low id node) : NodeAt nodes low' id node :=
  ⟨Nat.lt_of_le_of_lt hle h.1, h.2⟩

theorem NodeAt.emitTree (tree : Tree)
    (h : NodeAt nodes low id node) : NodeAt (emitTree tree nodes) low id node := by
  obtain ⟨hlt, -⟩ := List.getElem?_eq_some_iff.mp h.2
  exact ⟨h.1, (getElem?_emitTree tree nodes hlt).trans h.2⟩

theorem Relinked.nodeAt (h : Relinked slot child nodes nodes') (hlow : slot < low)
    (hat : NodeAt nodes low id node) : NodeAt nodes' (slot + 1) id node := by
  have hlt := hat.1
  exact ⟨by omega, (h.same (by omega)).trans hat.2⟩

theorem linkItem_eq (h : nodes[slot]? = some (.array items)) (child : Nat) :
    linkItem nodes slot child = nodes.set slot (.array (items ++ [child])) := by
  unfold linkItem
  rw [h]

theorem linkMember_eq (h : nodes[slot]? = some (.object members)) (key : Bytes) (child : Nat) :
    linkMember nodes slot key child = nodes.set slot (.object (setMember key child members)) := by
  unfold linkMember
  rw [h]

theorem getElem?_linkItem_self (h : nodes[slot]? = some (.array items)) (child : Nat) :
    (linkItem nodes slot child)[slot]? = some (.array (items ++ [child])) := by
  obtain ⟨hlt, -⟩ := List.getElem?_eq_some_iff.mp h
  rw [linkItem_eq h, List.getElem?_set_self hlt]

theorem getElem?_linkMember_self (h : nodes[slot]? = some (.object members)) (key : Bytes)
    (child : Nat) :
    (linkMember nodes slot key child)[slot]? = some (.object (setMember key child members)) := by
  obtain ⟨hlt, -⟩ := List.getElem?_eq_some_iff.mp h
  rw [linkMember_eq h, List.getElem?_set_self hlt]

mutual

/-- A tree that was emitted is read back as what it denotes. -/
theorem reads_emitTree : ∀ (tree : Tree) (nodes : List JsonNode),
    Reads (emitTree tree nodes) nodes.length (nodes.length + 1) tree.denote
  | .null, nodes => nodeAt_append nodes _
  | .bool _, nodes => nodeAt_append nodes _
  | .number _, nodes => ⟨_, nodeAt_append nodes _, rfl⟩
  | .string _, nodes => nodeAt_append nodes _
  | .array items, nodes => by
    have hempty : ReadsItems (nodes ++ [.array []]) (nodes.length + 1) [] [] := trivial
    obtain ⟨ids, hslot, hids⟩ :=
      reads_emitItems items _ (nodeAt_append nodes (.array [])).2 hempty
    refine ⟨ids, ⟨Nat.lt_succ_self _, hslot⟩, hids.transfer (fun id node h => ?_) _⟩
    exact h.mono (Nat.le_succ _)
  | .object members, nodes => by
    have hempty : ReadsMembers (nodes ++ [.object []]) (nodes.length + 1) [] [] := trivial
    obtain ⟨ids, hslot, hids⟩ :=
      reads_emitMembers members _ (nodeAt_append nodes (.object [])).2 hempty
    refine ⟨ids, ⟨Nat.lt_succ_self _, hslot⟩, hids.transfer (fun id node h => ?_) _⟩
    exact h.mono (Nat.le_succ _)

theorem reads_emitItems {slot : Nat} : ∀ (items : List Tree) (nodes : List JsonNode)
    {ids : List Nat} {trees : List Tree}, nodes[slot]? = some (.array ids) →
      ReadsItems nodes (slot + 1) ids trees →
      ∃ ids', (emitItems slot items nodes)[slot]? = some (.array ids') ∧
        ReadsItems (emitItems slot items nodes) (slot + 1) ids' (trees ++ denoteItems items)
  | [], nodes, ids, trees, hslot, hids =>
    ⟨ids, hslot, (append_nil trees).symm ▸ hids⟩
  | item :: items, nodes, ids, trees, hslot, hids => by
    obtain ⟨hlt, -⟩ := List.getElem?_eq_some_iff.mp hslot
    have hslot' : (emitTree item nodes)[slot]? = some (.array ids) :=
      (getElem?_emitTree item nodes hlt).trans hslot
    -- the items so far and the new one are read above the slot, which alone changes
    have hlinked := relinked_linkItem (emitTree item nodes) slot (nodes.length + 1)
    have hold := ReadsItems.transfer
      (fun id node h => hlinked.nodeAt (Nat.lt_succ_self slot) (NodeAt.emitTree item h)) trees hids
    have hnew := Reads.transfer (fun id node => hlinked.nodeAt hlt) _ (reads_emitTree item nodes)
    have hrest := reads_emitItems items _
      (getElem?_linkItem_self hslot' (nodes.length + 1)) (hold.append hnew)
    rwa [append_assoc] at hrest

theorem reads_emitMembers {slot : Nat} : ∀ (members : List (Bytes × Tree))
    (nodes : List JsonNode) {ids : List (Bytes × Nat)} {trees : List (Bytes × Tree)},
    nodes[slot]? = some (.object ids) → ReadsMembers nodes (slot + 1) ids trees →
      ∃ ids', (emitMembers slot members nodes)[slot]? = some (.object ids') ∧
        ReadsMembers (emitMembers slot members nodes) (slot + 1) ids'
          ((denoteMembers members).foldl (fun kept member => setMember member.1 member.2 kept) trees)
  | [], nodes, ids, trees, hslot, hids => ⟨ids, hslot, hids⟩
  | (key, value) :: members, nodes, ids, trees, hslot, hids => by
    obtain ⟨hlt, -⟩ := List.getElem?_eq_some_iff.mp hslot
    have hslot' : (emitTree value nodes)[slot]? = some (.object ids) :=
      (getElem?_emitTree value nodes hlt).trans hslot
    have hlinked := relinked_linkMember (emitTree value nodes) slot key (nodes.length + 1)
    have hold := ReadsMembers.transfer
      (fun id node h => hlinked.nodeAt (Nat.lt_succ_self slot) (NodeAt.emitTree value h)) trees hids
    have hnew := Reads.transfer (fun id node => hlinked.nodeAt hlt) _ (reads_emitTree value nodes)
    exact reads_emitMembers members _
      (getElem?_linkMember_self hslot' key (nodes.length + 1)) (ReadsMembers.set hnew hold)

end

end Emitting

end Sengoo.Stdlib
