import Sengoo.Stdlib.JsonExact
import Sengoo.Stdlib.JsonRender

/-!
When the serialiser succeeds, it has written the text of the tree at its node. It comes
to an end when the document is bounded, and otherwise when the node has a tree at all.
-/

namespace Sengoo.Stdlib

open Json Fallible List

variable {limit id : Nat} {built out value : Bytes} {first : Bool} {members : List (Bytes × Nat)}

section Appending

variable {bytes : Bytes}

theorem jsonBuilderAppend_eq_ok (h : jsonBuilderAppend limit bytes built = .ok out) :
    out = built ++ bytes := by
  unfold jsonBuilderAppend at h
  split_ifs at h
  cases h
  rfl

theorem jsonBuilderAppend_ends : jsonBuilderAppend limit bytes built ≠ .error .unfinished := by
  unfold jsonBuilderAppend
  split_ifs <;> simp

/-- A sequence of steps that all come to an end does so. -/
theorem bind_ends {α : Type} {first : Except JsonStop α} {next : α → Except JsonStop Bytes}
    (hfirst : first ≠ .error .unfinished) (hnext : ∀ a, next a ≠ .error .unfinished) :
    (first >>= next) ≠ .error .unfinished := by
  cases first with
  | error stop =>
    intro h
    cases h
    exact hfirst rfl
  | ok a => exact hnext a

theorem foldlM_append_eq_ok : ∀ {value built out : Bytes},
    value.foldlM (fun built c => jsonBuilderAppend limit (jsonEscapeByte c) built) built = .ok out →
      out = built ++ value.flatMap jsonEscapeByte
  | [], built, out, h => by
    cases h
    exact (append_nil built).symm
  | c :: value, built, out, h => by
    obtain ⟨after, hfirst, hrest⟩ := bind_eq_ok h
    rw [foldlM_append_eq_ok hrest, jsonBuilderAppend_eq_ok hfirst, flatMap_cons,
      append_assoc]

theorem foldlM_append_ends : ∀ {value built : Bytes},
    value.foldlM (fun built c => jsonBuilderAppend limit (jsonEscapeByte c) built) built ≠
      .error .unfinished
  | [], built => nofun
  | c :: value, built => by
    exact bind_ends jsonBuilderAppend_ends fun _ => foldlM_append_ends

theorem jsonAppendEscapedString_eq_ok (h : jsonAppendEscapedString limit value built = .ok out) :
    out = built ++ renderString value := by
  obtain ⟨after, hfirst, h⟩ := bind_eq_ok h
  obtain ⟨after', hvalue, hlast⟩ := bind_eq_ok h
  rw [jsonBuilderAppend_eq_ok hlast, foldlM_append_eq_ok hvalue, jsonBuilderAppend_eq_ok hfirst,
    renderString]
  simp

theorem jsonAppendEscapedString_ends :
    jsonAppendEscapedString limit value built ≠ .error .unfinished :=
  bind_ends jsonBuilderAppend_ends fun _ =>
    bind_ends foldlM_append_ends fun _ => jsonBuilderAppend_ends

end Appending

variable {serializeChild : SerializeChild}

section Writing

variable {doc : JsonDoc}

/-- A serialiser that, when it succeeds, has written the text of a tree at the node. -/
def Writes (doc : JsonDoc) (serializeChild : SerializeChild) : Prop :=
  ∀ ⦃id : Nat⦄ ⦃built out : Bytes⦄, serializeChild id built = .ok out →
    ∃ tree, Reads doc.nodes 0 id tree ∧ out = built ++ renderTree tree

theorem jsonAppendComma_eq_ok (h : jsonAppendComma limit first built = .ok out) :
    out = built ++ if first then [] else [byte ','] := by
  cases first with
  | true =>
    cases h
    exact (append_nil built).symm
  | false => exact jsonBuilderAppend_eq_ok h

theorem jsonAppendComma_ends : jsonAppendComma limit first built ≠ .error .unfinished := by
  cases first with
  | true => exact nofun
  | false => exact jsonBuilderAppend_ends

theorem jsonSerializeItems_writes
    (hchild : Writes doc serializeChild) : ∀ {items : List Nat} {first : Bool} {built out : Bytes},
    jsonSerializeItems limit serializeChild first items built = .ok out →
      ∃ trees, ReadsItems doc.nodes 0 items trees ∧ out = built ++ renderItems first trees
  | [], _, built, _, h => by
    cases h
    exact ⟨[], trivial, (append_nil built).symm⟩
  | item :: items, first, built, out, h => by
    obtain ⟨before, hcomma, h⟩ := bind_eq_ok h
    obtain ⟨after, hitem, hrest⟩ := bind_eq_ok h
    obtain ⟨tree, htree, rfl⟩ := hchild hitem
    obtain ⟨trees, htrees, rfl⟩ := jsonSerializeItems_writes hchild hrest
    refine ⟨tree :: trees, ⟨htree, htrees⟩, ?_⟩
    rw [jsonAppendComma_eq_ok hcomma, renderItems]
    simp

theorem jsonSerializeMembers_writes
    (hchild : Writes doc serializeChild) :
    ∀ {members : List (Bytes × Nat)} {first : Bool} {built out : Bytes},
    jsonSerializeMembers limit serializeChild first members built = .ok out →
      ∃ trees, ReadsMembers doc.nodes 0 members trees ∧ out = built ++ renderMembers first trees
  | [], _, built, _, h => by
    cases h
    exact ⟨[], trivial, (append_nil built).symm⟩
  | (key, value) :: members, first, built, out, h => by
    obtain ⟨_, hcomma, h⟩ := bind_eq_ok h
    obtain ⟨_, hkey, h⟩ := bind_eq_ok h
    obtain ⟨_, hcolon, h⟩ := bind_eq_ok h
    obtain ⟨after, hvalue, hrest⟩ := bind_eq_ok h
    obtain ⟨tree, htree, rfl⟩ := hchild hvalue
    obtain ⟨trees, htrees, rfl⟩ := jsonSerializeMembers_writes hchild hrest
    refine ⟨(key, tree) :: trees, ⟨⟨rfl, htree⟩, htrees⟩, ?_⟩
    rw [jsonBuilderAppend_eq_ok hcolon, jsonAppendEscapedString_eq_ok hkey,
      jsonAppendComma_eq_ok hcomma, renderMembers]
    simp

theorem nodeAt_of_jsonNodeFromId {node : JsonNode}
    (h : jsonNodeFromId doc id = some node) : NodeAt doc.nodes 0 id node := by
  unfold jsonNodeFromId at h
  split_ifs at h with hzero
  exact ⟨Nat.pos_of_ne_zero hzero, h⟩

/-- What the serialiser writes is the text of the tree at the node. -/
theorem jsonSerializeNode_writes : ∀ (levels : Nat) (path : List Nat),
    Writes doc (jsonSerializeNode doc limit levels path)
  | 0, _ => fun _ _ _ h => nomatch h
  | levels + 1, path => by
    intro id built out h
    have hchild := jsonSerializeNode_writes levels (id :: path)
    unfold jsonSerializeNode at h
    split_ifs at h
    cases hnode : jsonNodeFromId doc id with
    | none => rw [hnode] at h; exact nomatch h
    | some node =>
      have hat := nodeAt_of_jsonNodeFromId hnode
      rw [hnode] at h
      cases node with
      | null => exact ⟨.null, hat, jsonBuilderAppend_eq_ok h⟩
      | bool value => exact ⟨.bool value, hat, jsonBuilderAppend_eq_ok h⟩
      | number text =>
        exact ⟨.number (text.getD (ascii "0")), ⟨text, hat, rfl⟩, jsonBuilderAppend_eq_ok h⟩
      | string value => exact ⟨.string value, hat, jsonAppendEscapedString_eq_ok h⟩
      | array items =>
        obtain ⟨_, hopen, h⟩ := bind_eq_ok h
        obtain ⟨_, hitems, hclose⟩ := bind_eq_ok h
        obtain ⟨trees, htrees, rfl⟩ := jsonSerializeItems_writes hchild hitems
        refine ⟨.array trees, ⟨items, hat, htrees⟩, ?_⟩
        rw [jsonBuilderAppend_eq_ok hclose, jsonBuilderAppend_eq_ok hopen, renderTree]
        simp
      | object members =>
        obtain ⟨_, hopen, h⟩ := bind_eq_ok h
        obtain ⟨_, hmembers, hclose⟩ := bind_eq_ok h
        obtain ⟨trees, htrees, rfl⟩ := jsonSerializeMembers_writes hchild hmembers
        refine ⟨.object trees, ⟨members, hat, htrees⟩, ?_⟩
        rw [jsonBuilderAppend_eq_ok hclose, jsonBuilderAppend_eq_ok hopen, renderTree]
        simp

end Writing

section Ending

variable {doc : JsonDoc}

theorem jsonSerializeItems_ends :
    ∀ {items : List Nat} {first : Bool} {built : Bytes},
    (∀ child ∈ items, ∀ built, serializeChild child built ≠ .error .unfinished) →
      jsonSerializeItems limit serializeChild first items built ≠ .error .unfinished
  | [], _, _, _ => nofun
  | item :: items, _, _, h => by
    exact bind_ends jsonAppendComma_ends fun _ =>
      bind_ends (h item (mem_cons_self ..) _) fun _ =>
        jsonSerializeItems_ends fun child hchild => h child (mem_cons_of_mem item hchild)

theorem jsonSerializeMembers_ends :
    ∀ {members : List (Bytes × Nat)} {first : Bool} {built : Bytes},
    (∀ child ∈ members.map Prod.snd, ∀ built, serializeChild child built ≠ .error .unfinished) →
      jsonSerializeMembers limit serializeChild first members built ≠ .error .unfinished
  | [], _, _, _ => nofun
  | (_, value) :: members, _, _, h => by
    exact bind_ends jsonAppendComma_ends fun _ =>
      bind_ends jsonAppendEscapedString_ends fun _ =>
        bind_ends jsonBuilderAppend_ends fun _ =>
          bind_ends (h value (mem_cons_self ..) _) fun _ =>
            jsonSerializeMembers_ends fun child hchild =>
              h child (mem_cons_of_mem value hchild)

/-- A node comes to an end when the nodes it is linked to do. -/
theorem jsonSerializeNode_ends {levels : Nat} {path : List Nat}
    (hchild : ¬ (doc.bounded ∧ jsonMaxDepth ≤ path.length) → ∀ child, Link doc.nodes id child →
      ∀ built, jsonSerializeNode doc limit levels (id :: path) child built ≠ .error .unfinished)
    (built : Bytes) :
    jsonSerializeNode doc limit (levels + 1) path id built ≠ .error .unfinished := by
  unfold jsonSerializeNode
  by_cases hdepth : doc.bounded ∧ jsonMaxDepth ≤ path.length
  · rw [if_pos hdepth]
    exact nofun
  split_ifs
  · exact nofun
  cases hnode : jsonNodeFromId doc id with
  | none => exact nofun
  | some node =>
    have hlink : ∀ child ∈ nodeChildren node, Link doc.nodes id child := fun child hmem =>
      ⟨node, nodeAt_of_jsonNodeFromId hnode, hmem⟩
    cases node with
    | null | bool | number => exact jsonBuilderAppend_ends
    | string => exact jsonAppendEscapedString_ends
    | array items =>
      exact bind_ends jsonBuilderAppend_ends fun _ =>
        bind_ends (jsonSerializeItems_ends fun child hmem =>
          hchild hdepth child (hlink child hmem)) fun _ => jsonBuilderAppend_ends
    | object members =>
      exact bind_ends jsonBuilderAppend_ends fun _ =>
        bind_ends (jsonSerializeMembers_ends fun child hmem =>
          hchild hdepth child (hlink child hmem)) fun _ => jsonBuilderAppend_ends

theorem jsonSerializeNode_ends_bounded (hbounded : doc.bounded = true) :
    ∀ (levels : Nat) (path : List Nat), path.length ≤ jsonMaxDepth →
      jsonMaxDepth < levels + path.length → ∀ id built,
      jsonSerializeNode doc limit levels path id built ≠ .error .unfinished
  | 0, path, hpath, hlevels, _, _ => by omega
  | levels + 1, path, hpath, hlevels, id, built => by
    refine jsonSerializeNode_ends (fun hdepth child _ built => ?_) built
    have hlt : path.length < jsonMaxDepth := Nat.not_le.mp fun hle => hdepth ⟨hbounded, hle⟩
    refine jsonSerializeNode_ends_bounded hbounded levels (id :: path) ?_ ?_ child built
    · rw [length_cons]
      omega
    · rw [length_cons]
      omega

theorem jsonSerializeNode_ends_tree : ∀ (levels : Nat) (path : List Nat) {id : Nat} {tree : Tree},
    Reads doc.nodes 0 id tree → tree.depth ≤ levels → ∀ built,
      jsonSerializeNode doc limit levels path id built ≠ .error .unfinished
  | 0, _, _, tree, _, hdepth, _ =>
    absurd (Nat.le_trans (Tree.one_le_depth tree) hdepth) (by decide)
  | levels + 1, path, id, tree, htree, hdepth, built => by
    refine jsonSerializeNode_ends (fun _ child hlink built => ?_) built
    obtain ⟨tree', htree', hlt⟩ := htree.exists_child hlink
    exact jsonSerializeNode_ends_tree levels (id :: path) htree' (by omega) built

/-- Serialising comes to an end for bounded documents and for those whose root has a tree. -/
theorem exists_jsonDocSerialize_ends (capacity : Nat)
    (h : doc.bounded = true ∨ ∃ tree, Reads doc.nodes 0 doc.root tree) :
    ∃ levels, jsonDocSerialize levels doc capacity ≠ .error .unfinished := by
  have hnode : ∃ levels, jsonSerializeNode doc (if doc.bounded then doc.byteLimit else 0) levels []
      doc.root [] ≠ .error .unfinished := by
    rcases h with hbounded | ⟨tree, htree⟩
    · exact ⟨jsonMaxDepth + 1, jsonSerializeNode_ends_bounded hbounded _ _ (Nat.zero_le _)
        (Nat.lt_succ_self _) _ _⟩
    · exact ⟨tree.depth, jsonSerializeNode_ends_tree _ _ htree (Nat.le_refl _) _⟩
  obtain ⟨levels, hends⟩ := hnode
  refine ⟨levels, ?_⟩
  unfold jsonDocSerialize
  by_cases hroot : doc.root = 0
  · rw [if_pos hroot]
    exact nofun
  rw [if_neg hroot]
  cases hresult : jsonSerializeNode doc (if doc.bounded then doc.byteLimit else 0) levels []
      doc.root [] with
  | error stop =>
    cases stop with
    | failed e => exact nofun
    | unfinished => exact absurd hresult hends
  | ok built =>
    simp only
    split_ifs
    · exact nofun
    · exact nofun

theorem jsonDocSerialize_writes {levels capacity : Nat}
    (h : jsonDocSerialize levels doc capacity = .ok out) :
    ∃ tree, Reads doc.nodes 0 doc.root tree ∧ out = renderTree tree := by
  unfold jsonDocSerialize at h
  by_cases hroot : doc.root = 0
  · exact nomatch (if_pos hroot).symm.trans h
  rw [if_neg hroot] at h
  cases hresult : jsonSerializeNode doc (if doc.bounded then doc.byteLimit else 0) levels []
      doc.root [] with
  | error stop =>
    rw [hresult] at h
    cases stop with
    | failed e | unfinished => exact nomatch h
  | ok built =>
    rw [hresult] at h
    simp only at h
    split_ifs at h
    cases h
    exact jsonSerializeNode_writes levels [] hresult

end Ending

end Sengoo.Stdlib
