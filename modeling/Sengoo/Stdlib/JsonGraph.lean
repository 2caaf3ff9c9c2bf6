import Sengoo.Ranked
import Sengoo.Stdlib.JsonRender
import Sengoo.Stdlib.JsonTable

/-!
Tables in which every link leads to a node and no object has a key twice; where the calls
were fine, every string and number has a spelling moreover, and the links of a document
without limits have a rank, so that every node has a tree. Adding a tree keeps all of
this, and so does linking a node where no cycle is closed.
-/

namespace Sengoo.Stdlib

open Json List

section Tables

/-- No key stands twice, and where the calls were fine what the node holds can be written. -/
def NodeGood (fine : Prop) : JsonNode → Prop
  | .number (some text) => fine → NumberText text
  | .string value => fine → IsText value
  | .object members =>
    (members.map Prod.fst).Nodup ∧ (fine → ∀ key ∈ members.map Prod.fst, IsText key)
  | _ => True

def AllGood (fine : Prop) (nodes : List JsonNode) : Prop := ∀ node ∈ nodes, NodeGood fine node

structure TableSane (fine : Prop) (nodes : List JsonNode) (bounded : Bool) : Prop where
  closed : ∀ id child, Link nodes id child → 0 < child ∧ child ≤ nodes.length
  good : ∀ node ∈ nodes, NodeGood fine node
  ranked : fine → bounded = false → Ranked (Link nodes)

variable {fine : Prop} {low : Nat} {nodes : List JsonNode} {node : JsonNode} {key t : Bytes}
  {bounded : Bool}

variable {nodes' : List JsonNode}

theorem tableSane_nil (fine : Prop) (bounded : Bool) : TableSane fine [] bounded where
  closed := by
    rintro id child ⟨node, ⟨-, hnode⟩, -⟩
    exact nomatch hnode
  good := fun node hnode => nomatch hnode
  ranked := fun _ _ => ⟨fun _ => 0, by
    rintro id child ⟨node, ⟨-, hnode⟩, -⟩
    exact nomatch hnode⟩

theorem NodeAt.le_length {id : Nat} (h : NodeAt nodes low id node) : id ≤ nodes.length := by
  obtain ⟨hlt, -⟩ := List.getElem?_eq_some_iff.mp h.2
  omega

theorem NodeAt.mem {id : Nat} (h : NodeAt nodes low id node) : node ∈ nodes :=
  mem_of_getElem? h.2

theorem Link.le_length {id child : Nat} (h : Link nodes id child) : 0 < id ∧ id ≤ nodes.length := by
  obtain ⟨node, hnode, -⟩ := h
  exact ⟨hnode.1, hnode.le_length⟩

theorem AllGood.append (h : AllGood fine nodes) (hnode : NodeGood fine node) :
    AllGood fine (nodes ++ [node]) := by
  intro found hfound
  rcases mem_append.mp hfound with hfound | hfound
  · exact h found hfound
  · rw [mem_singleton.mp hfound]
    exact hnode

theorem AllGood.set (h : AllGood fine nodes) (hnode : NodeGood fine node) (slot : Nat) :
    AllGood fine (nodes.set slot node) := by
  intro found hfound
  rcases mem_or_eq_of_mem_set hfound with hfound | rfl
  · exact h found hfound
  · exact hnode

theorem TableSane.append (h : TableSane fine nodes bounded) (hgood : NodeGood fine node)
    (hchildren : nodeChildren node = []) : TableSane fine (nodes ++ [node]) bounded := by
  have hlink : ∀ id child, Link (nodes ++ [node]) id child → Link nodes id child := by
    intro id child hlink
    rcases link_append hlink with hlink | ⟨-, hmem⟩
    · exact hlink
    · rw [hchildren] at hmem
      exact nomatch hmem
  refine ⟨fun id child hchild => ?_, AllGood.append h.good hgood,
    fun hfine hb => (h.ranked hfine hb).mono hlink⟩
  have hclosed := h.closed id child (hlink id child hchild)
  rw [length_append]
  exact ⟨hclosed.1, Nat.le_trans hclosed.2 (Nat.le_add_right ..)⟩

/-- One more link from a container, where it closes no cycle. -/
theorem TableSane.set (h : TableSane fine nodes bounded) {slot value : Nat} {old : JsonNode}
    (hold : nodes[slot]? = some old) (hgood : NodeGood fine node)
    (hchildren : ∀ child ∈ nodeChildren node, child ∈ nodeChildren old ∨ child = value)
    (hvalue : 0 < value ∧ value ≤ nodes.length)
    (hno : fine → bounded = false → ¬ Relation.ReflTransGen (Link nodes) value (slot + 1)) :
    TableSane fine (nodes.set slot node) bounded := by
  have hlinked : Relinked slot value nodes (nodes.set slot node) :=
    .inr ⟨old, node, hold, rfl, hchildren⟩
  refine ⟨fun id child hchild => ?_, AllGood.set h.good hgood slot,
    fun hfine hb => ((h.ranked hfine hb).insert (hno hfine hb)).mono fun _ _ => hlinked.link⟩
  rw [length_set]
  rcases hlinked.link hchild with hchild | ⟨-, rfl⟩
  · exact h.closed id child hchild
  · exact hvalue

end Tables

section Members

theorem mem_keys_setMember {ν : Type} {key' : Bytes} {value : ν} {members : List (Bytes × ν)}
    (h : key' ∈ (setMember key value members).map Prod.fst) :
    key' ∈ members.map Prod.fst ∨ key' = key := by
  obtain ⟨entry, hentry, rfl⟩ := mem_map.mp h
  exact (mem_setMember hentry).imp mem_map_of_mem (congrArg Prod.fst)

theorem nodup_keys_setMember {ν : Type} {value : ν} :
    ∀ {members : List (Bytes × ν)}, (members.map Prod.fst).Nodup →
      ((setMember key value members).map Prod.fst).Nodup
  | [], _ => by simp [setMember]
  | (other, old) :: members, h => by
    unfold setMember
    by_cases heq : other = key
    · rw [if_pos heq]
      exact h
    · rw [if_neg heq]
      obtain ⟨hother, hrest⟩ := nodup_cons.mp h
      refine nodup_cons.mpr ⟨fun hmem => ?_, nodup_keys_setMember hrest⟩
      exact (mem_keys_setMember hmem).elim hother heq

theorem nodeGood_setMember (value : Nat) {members : List (Bytes × Nat)}
    (h : NodeGood fine (.object members))
    (hkey : fine → key ∈ members.map Prod.fst ∨ IsText key) :
    NodeGood fine (.object (setMember key value members)) := by
  refine ⟨nodup_keys_setMember h.1, fun hfine key' hmem => ?_⟩
  rcases mem_keys_setMember hmem with hmem | rfl
  · exact h.2 hfine key' hmem
  · exact (hkey hfine).elim (h.2 hfine key') id

end Members

section Emitting

theorem AllGood.linkItem (h : AllGood fine nodes) (slot child : Nat) :
    AllGood fine (linkItem nodes slot child) := by
  unfold Stdlib.linkItem
  split
  case h_1 items _ =>
    have hgood : NodeGood fine (.array (items ++ [child])) := trivial
    exact h.set hgood slot
  case h_2 => exact h

theorem AllGood.linkMember (h : AllGood fine nodes) (slot : Nat) (hkey : fine → IsText key)
    (child : Nat) : AllGood fine (linkMember nodes slot key child) := by
  unfold Stdlib.linkMember
  split
  case h_1 members hold =>
    exact h.set (nodeGood_setMember child (h _ (mem_of_getElem? hold)) (.inr ∘ hkey)) slot
  case h_2 => exact h

mutual

theorem AllGood.emitTree : ∀ (tree : Tree) {nodes : List JsonNode}, AllGood fine nodes →
    (fine → Spelled tree) → AllGood fine (emitTree tree nodes)
  | .null, _, h, _ => h.append trivial
  | .bool _, _, h, _ => h.append trivial
  | .number _, _, h, hspelled => h.append hspelled
  | .string _, _, h, hspelled => h.append hspelled
  | .array items, _, h, hspelled => AllGood.emitItems _ items (h.append trivial) hspelled
  | .object members, _, h, hspelled =>
    AllGood.emitMembers _ members (h.append ⟨nodup_nil, fun _ _ hkey => nomatch hkey⟩) hspelled

theorem AllGood.emitItems (slot : Nat) : ∀ (items : List Tree) {nodes : List JsonNode},
    AllGood fine nodes → (fine → ItemsSpelled items) → AllGood fine (emitItems slot items nodes)
  | [], _, h, _ => h
  | item :: items, _, h, hspelled =>
    AllGood.emitItems slot items
      ((AllGood.emitTree item h fun hfine => (hspelled hfine).1).linkItem slot _)
      fun hfine => (hspelled hfine).2

theorem AllGood.emitMembers (slot : Nat) : ∀ (members : List (Bytes × Tree))
    {nodes : List JsonNode}, AllGood fine nodes → (fine → MembersSpelled members) →
      AllGood fine (emitMembers slot members nodes)
  | [], _, h, _ => h
  | (_, value) :: members, _, h, hspelled =>
    AllGood.emitMembers slot members
      ((AllGood.emitTree value h fun hfine => (hspelled hfine).1.2).linkMember slot
        (fun hfine => (hspelled hfine).1.1) _)
      fun hfine => (hspelled hfine).2

end

/-- A tree can be added to every sane table. -/
theorem TableSane.emitTree (h : TableSane fine nodes bounded) {tree : Tree}
    (hspelled : fine → Spelled tree) : TableSane fine (emitTree tree nodes) bounded := by
  obtain ⟨hlength, -, hup⟩ := grown_emitTree tree nodes
  refine ⟨fun id child hlink => ?_, AllGood.emitTree tree h.good hspelled, fun hfine hb => ?_⟩
  · rcases hup id child hlink with hlink | ⟨hlow, hlt, hchild⟩
    · have hclosed := h.closed id child hlink
      exact ⟨hclosed.1, by omega⟩
    · exact ⟨by omega, hchild⟩
  · -- the old nodes keep their rank; the new links all lead upwards
    have hnew : Ranked fun id child => id < child ∧ child ≤ (Stdlib.emitTree tree nodes).length :=
      ⟨fun id => (Stdlib.emitTree tree nodes).length - id, fun id child hlink => by
        dsimp only
        omega⟩
    refine Ranked.glue (fun id => id ≤ nodes.length) (h.ranked hfine hb) hnew fun id child hlink => ?_
    rcases hup id child hlink with hlink | ⟨hlow, hlt, hchild⟩
    · exact .inl ⟨hlink.le_length.2, (h.closed id child hlink).2, hlink⟩
    · exact .inr ⟨by omega, by omega, hlt, hchild⟩

end Emitting

section Trees

theorem numberText_zero : NumberText (ascii "0") :=
  .mk (.inl rfl) .zero .none .none

theorem spelled_number (hfine : fine) {stored : Option Bytes} (h : NodeGood fine (.number stored)) :
    NumberText (stored.getD (ascii "0")) := by
  cases stored with
  | none => exact numberText_zero
  | some text => exact h hfine

theorem ReadsMembers.keys_eq : ∀ {members : List (Bytes × Nat)}
    {trees : List (Bytes × Tree)}, ReadsMembers nodes low members trees →
      members.map Prod.fst = trees.map Prod.fst := by
  intro members
  induction members with
  | nil => rintro (_ | _) ⟨⟩; rfl
  | cons member members ih =>
    rintro (_ | _) h
    · cases h
    · rw [map_cons, map_cons, h.1.1, ih h.2]

mutual

theorem Reads.spelled (hfine : fine) (hgood : AllGood fine nodes) : ∀ {id : Nat} (tree : Tree),
    Reads nodes low id tree → Spelled tree
  | _, .null, _ => trivial
  | _, .bool _, _ => trivial
  | _, .number _, ⟨_, hnode, htext⟩ => htext ▸ spelled_number hfine (hgood _ hnode.mem)
  | _, .string _, h => hgood _ (NodeAt.mem h) hfine
  | _, .array trees, ⟨_, _, hitems⟩ => ReadsItems.spelled hfine hgood trees hitems
  | _, .object trees, ⟨_, hnode, hmembers⟩ =>
    ReadsMembers.spelled hfine hgood trees hmembers
      (hmembers.keys_eq ▸ (hgood _ hnode.mem).2 hfine)

theorem ReadsItems.spelled (hfine : fine) (hgood : AllGood fine nodes) : ∀ {items : List Nat}
    (trees : List Tree), ReadsItems nodes low items trees → ItemsSpelled trees
  | [], [], _ => trivial
  | _ :: _, tree :: trees, h =>
    ⟨Reads.spelled hfine hgood tree h.1, ReadsItems.spelled hfine hgood trees h.2⟩

theorem ReadsMembers.spelled (hfine : fine) (hgood : AllGood fine nodes) :
    ∀ {members : List (Bytes × Nat)}
    (trees : List (Bytes × Tree)), ReadsMembers nodes low members trees →
      (∀ key ∈ trees.map Prod.fst, IsText key) → MembersSpelled trees
  | [], [], _, _ => trivial
  | (_, _) :: _, (key, tree) :: trees, h, hkeys =>
    ⟨⟨hkeys key (mem_cons_self ..), Reads.spelled hfine hgood tree h.1.2⟩,
      ReadsMembers.spelled hfine hgood trees h.2 (forall_mem_cons.mp hkeys).2⟩

end

/-- No object of the table has a key twice. -/
def KeysDistinct (nodes : List JsonNode) : Prop :=
  ∀ members, .object members ∈ nodes → (members.map Prod.fst).Nodup

mutual

theorem Reads.distinct (hkeys : KeysDistinct nodes) : ∀ {id : Nat} (tree : Tree),
    Reads nodes low id tree → Distinct tree
  | _, .null, _ | _, .bool _, _ | _, .number _, _ | _, .string _, _ => trivial
  | _, .array trees, ⟨_, _, hitems⟩ => ReadsItems.distinct hkeys trees hitems
  | _, .object trees, ⟨_, hnode, hmembers⟩ =>
    ⟨hmembers.keys_eq ▸ hkeys _ hnode.mem, ReadsMembers.distinct hkeys trees hmembers⟩

theorem ReadsItems.distinct (hkeys : KeysDistinct nodes) : ∀ {items : List Nat}
    (trees : List Tree), ReadsItems nodes low items trees → ItemsDistinct trees
  | [], [], _ => trivial
  | _ :: _, tree :: trees, h => ⟨Reads.distinct hkeys tree h.1, ReadsItems.distinct hkeys trees h.2⟩

theorem ReadsMembers.distinct (hkeys : KeysDistinct nodes) : ∀ {members : List (Bytes × Nat)}
    (trees : List (Bytes × Tree)), ReadsMembers nodes low members trees → MembersDistinct trees
  | [], [], _ => trivial
  | (_, _) :: _, (_, tree) :: trees, h =>
    ⟨Reads.distinct hkeys tree h.1.2, ReadsMembers.distinct hkeys trees h.2⟩

end

/-- The trees of such a table can be written, and denote themselves. -/
theorem Reads.good (hfine : fine) (hgood : AllGood fine nodes) {id : Nat} (tree : Tree)
    (h : Reads nodes low id tree) : Spelled tree ∧ Distinct tree :=
  ⟨h.spelled hfine hgood tree, h.distinct (fun _ hmem => (hgood _ hmem).1) tree⟩

theorem exists_readsItems : ∀ {items : List Nat},
    (∀ child ∈ items, ∃ tree, Reads nodes 0 child tree) → ∃ trees, ReadsItems nodes 0 items trees
  | [], _ => ⟨[], trivial⟩
  | item :: items, h => by
    obtain ⟨tree, htree⟩ := h item (mem_cons_self ..)
    obtain ⟨trees, htrees⟩ := exists_readsItems fun child hchild =>
      h child (mem_cons_of_mem item hchild)
    exact ⟨tree :: trees, htree, htrees⟩

theorem exists_readsMembers : ∀ {members : List (Bytes × Nat)},
    (∀ child ∈ members.map Prod.snd, ∃ tree, Reads nodes 0 child tree) →
      ∃ trees, ReadsMembers nodes 0 members trees
  | [], _ => ⟨[], trivial⟩
  | (key, value) :: members, h => by
    obtain ⟨tree, htree⟩ := h value (mem_cons_self ..)
    obtain ⟨trees, htrees⟩ := exists_readsMembers fun child hchild =>
      h child (mem_cons_of_mem value hchild)
    exact ⟨(key, tree) :: trees, ⟨rfl, htree⟩, htrees⟩

/-- Where the links have a rank, every node has a tree. -/
theorem TableSane.exists_reads (h : TableSane fine nodes bounded)
    (hranked : Ranked (Link nodes)) (id : Nat) :
    0 < id ∧ id ≤ nodes.length → ∃ tree, Reads nodes 0 id tree := by
  refine hranked.induction (P := fun id => 0 < id ∧ id ≤ nodes.length → ∃ tree, Reads nodes 0 id tree)
    (fun id ih hid => ?_) id
  have hlt : id - 1 < nodes.length := by omega
  obtain ⟨node, hnode⟩ : ∃ node, NodeAt nodes 0 id node :=
    ⟨nodes[id - 1], hid.1, getElem?_eq_getElem hlt⟩
  have hchild : ∀ child ∈ nodeChildren node, ∃ tree, Reads nodes 0 child tree := by
    intro child hmem
    have hlink : Link nodes id child := ⟨node, hnode, hmem⟩
    exact ih child hlink (h.closed id child hlink)
  cases node with
  | null => exact ⟨.null, hnode⟩
  | bool value => exact ⟨.bool value, hnode⟩
  | number stored => exact ⟨.number (stored.getD (ascii "0")), stored, hnode, rfl⟩
  | string value => exact ⟨.string value, hnode⟩
  | array items =>
    obtain ⟨trees, htrees⟩ := exists_readsItems hchild
    exact ⟨.array trees, items, hnode, htrees⟩
  | object members =>
    obtain ⟨trees, htrees⟩ := exists_readsMembers hchild
    exact ⟨.object trees, members, hnode, htrees⟩

theorem wellFormed_of_stringText {value : Bytes} (h : StringText t value) : IsText value := by
  cases h with
  | mk => exact ⟨_, rfl⟩

mutual

/-- The strings and numbers of a text have a spelling. -/
theorem spelled_of_valueText : ∀ (tree : Tree) {t : Bytes}, ValueText t tree → Spelled tree
  | .null, _, _ => trivial
  | .bool _, _, _ => trivial
  | .number _, _, h => by
    cases h with
    | number h => exact h
  | .string _, _, h => by
    cases h with
    | string h => exact wellFormed_of_stringText h
  | .array items, _, h => by
    cases h with
    | emptyArray => exact trivial
    | array h => exact spelled_of_itemsText items h
  | .object members, _, h => by
    cases h with
    | emptyObject => exact trivial
    | object h => exact spelled_of_membersText members h

theorem spelled_of_itemsText : ∀ (items : List Tree) {t : Bytes}, ItemsText t items →
    ItemsSpelled items
  | [], _, _ => trivial
  | item :: items, _, h => by
    cases h with
    | last _ h _ => exact ⟨spelled_of_valueText item h, trivial⟩
    | more _ h _ hrest => exact ⟨spelled_of_valueText item h, spelled_of_itemsText items hrest⟩

theorem spelled_of_membersText : ∀ (members : List (Bytes × Tree)) {t : Bytes},
    MembersText t members → MembersSpelled members
  | [], _, _ => trivial
  | (_, value) :: members, _, h => by
    cases h with
    | last _ hk _ _ h _ =>
      exact ⟨⟨wellFormed_of_stringText hk, spelled_of_valueText value h⟩, trivial⟩
    | more _ hk _ _ h _ hrest =>
      exact ⟨⟨wellFormed_of_stringText hk, spelled_of_valueText value h⟩,
        spelled_of_membersText members hrest⟩

end

end Trees

end Sengoo.Stdlib
