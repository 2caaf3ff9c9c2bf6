import Sengoo.Stdlib.JsonApi
import Sengoo.Stdlib.JsonStrings

/-!
The text the serialiser writes for a tree. If the strings of the tree are UTF-8 and its
numbers are spelled as numbers, the text is one of the grammar, and its tree is the tree
written; if moreover no object has a key twice, the tree denotes itself.
-/

namespace Sengoo.Stdlib

open Json List

section Trees

/-- Bytes that are the UTF-8 encoding of some characters. -/
def IsText (value : Bytes) : Prop := ∃ cs, value = utf8 cs

mutual

/-- The strings and numbers of the tree have a spelling in the grammar. -/
def Spelled : Tree → Prop
  | .null => True
  | .bool _ => True
  | .number text => NumberText text
  | .string value => IsText value
  | .array items => ItemsSpelled items
  | .object members => MembersSpelled members

def ItemsSpelled : List Tree → Prop
  | [] => True
  | item :: items => Spelled item ∧ ItemsSpelled items

def MembersSpelled : List (Bytes × Tree) → Prop
  | [] => True
  | (key, value) :: members => (IsText key ∧ Spelled value) ∧ MembersSpelled members

end

mutual

/-- No object has a key twice. -/
def Distinct : Tree → Prop
  | .array items => ItemsDistinct items
  | .object members => (members.map Prod.fst).Nodup ∧ MembersDistinct members
  | _ => True

def ItemsDistinct : List Tree → Prop
  | [] => True
  | item :: items => Distinct item ∧ ItemsDistinct items

def MembersDistinct : List (Bytes × Tree) → Prop
  | [] => True
  | (_, value) :: members => Distinct value ∧ MembersDistinct members

end

theorem setMember_of_not_mem {ν : Type} {key : Bytes} {value : ν} :
    ∀ {members : List (Bytes × ν)}, key ∉ members.map Prod.fst →
      setMember key value members = members ++ [(key, value)]
  | [], _ => rfl
  | (other, old) :: members, h => by
    have hne : other ≠ key := fun heq => h (by simp [heq])
    have hrest : key ∉ members.map Prod.fst := fun hmem => h (mem_cons_of_mem _ hmem)
    rw [setMember, if_neg hne, setMember_of_not_mem hrest, cons_append]

theorem foldl_setMember_of_nodup {ν : Type} : ∀ {kept members : List (Bytes × ν)},
    ((kept ++ members).map Prod.fst).Nodup →
      members.foldl (fun kept member => setMember member.1 member.2 kept) kept = kept ++ members
  | kept, [], _ => (append_nil kept).symm
  | kept, (key, value) :: members, h => by
    have hnew : key ∉ kept.map Prod.fst := by
      rw [map_append, nodup_append] at h
      intro hmem
      exact h.2.2 key hmem key (by simp) rfl
    rw [foldl_cons, setMember_of_not_mem hnew]
    have hnodup : ((kept ++ [(key, value)] ++ members).map Prod.fst).Nodup := by
      rw [append_assoc]
      exact h
    rw [foldl_setMember_of_nodup hnodup, append_assoc]
    rfl

theorem collapse_of_nodup {ν : Type} {members : List (Bytes × ν)}
    (h : (members.map Prod.fst).Nodup) : collapse members = members := by
  have hnodup : (([] ++ members).map Prod.fst).Nodup := h
  exact foldl_setMember_of_nodup hnodup

mutual

theorem denote_of_distinct : ∀ (tree : Tree), Distinct tree → tree.denote = tree
  | .null, _ => rfl
  | .bool _, _ => rfl
  | .number _, _ => rfl
  | .string _, _ => rfl
  | .array items, h => congrArg Tree.array (denoteItems_of_distinct items h)
  | .object members, h => by
    rw [Tree.denote, denoteMembers_of_distinct members h.2, collapse_of_nodup h.1]

theorem denoteItems_of_distinct : ∀ (items : List Tree), ItemsDistinct items →
    denoteItems items = items
  | [], _ => rfl
  | item :: items, h => by
    rw [denoteItems, denote_of_distinct item h.1, denoteItems_of_distinct items h.2]

theorem denoteMembers_of_distinct : ∀ (members : List (Bytes × Tree)), MembersDistinct members →
    denoteMembers members = members
  | [], _ => rfl
  | (_, value) :: members, h => by
    rw [denoteMembers, denote_of_distinct value h.1, denoteMembers_of_distinct members h.2]

end

end Trees

section Strings

def renderString (value : Bytes) : Bytes := quote :: (value.flatMap jsonEscapeByte ++ [quote])

theorem hexDigit_jsonHexDigit {n : Nat} (h : n < 16) : hexDigit (jsonHexDigit n) = some n := by
  have hall : ∀ n < 16, hexDigit (jsonHexDigit n) = some n := by decide +kernel
  exact hall n h

theorem jsonEscapeByte_of_le {b : UInt8} (h : 0x80 ≤ b.toNat) : jsonEscapeByte b = [b] := by
  have hne : ∀ c : UInt8, c.toNat < 0x80 → b ≠ c := by
    rintro c hc rfl
    omega
  have hcontrol : ¬ b < 0x20 := by
    exact Nat.not_lt.mpr (Nat.le_trans (by decide) h)
  unfold jsonEscapeByte
  rw [if_neg (hne _ (by decide)), if_neg (hne _ (by decide)), if_neg (hne _ (by decide)),
    if_neg (hne _ (by decide)), if_neg (hne _ (by decide)), if_neg (hne _ (by decide)),
    if_neg (hne _ (by decide)), if_neg hcontrol]

theorem flatMap_escape_of_ge : ∀ {bytes : Bytes}, (∀ b ∈ bytes, 0x80 ≤ b.toNat) →
    bytes.flatMap jsonEscapeByte = bytes
  | [], _ => rfl
  | b :: bytes, h => by
    rw [flatMap_cons, jsonEscapeByte_of_le (h b (mem_cons_self ..)),
      flatMap_escape_of_ge fun c hc => h c (mem_cons_of_mem b hc)]
    rfl

/-- A character of one byte is written as itself or as one of the escapes. -/
theorem charText_escape_single {b : UInt8} (h : b.toNat < 0x80) :
    CharText (jsonEscapeByte b) (Char.ofNat b.toNat) := by
  have hscalar : Scalar b.toNat := by
    unfold Scalar
    omega
  unfold jsonEscapeByte
  split_ifs with h₁ h₂ h₃ h₄ h₅ h₆ h₇ h₈
  · subst h₁
    exact .escape rfl
  · subst h₂
    exact .escape rfl
  · subst h₃
    exact .escape rfl
  · subst h₄
    exact .escape rfl
  · subst h₅
    exact .escape rfl
  · subst h₆
    exact .escape rfl
  · subst h₇
    exact .escape rfl
  · have hhex := HexText.mk (hexDigit_jsonHexDigit (n := 0) (by decide))
      (hexDigit_jsonHexDigit (n := 0) (by decide))
      (hexDigit_jsonHexDigit (n := b.toNat / 16) (by omega))
      (hexDigit_jsonHexDigit (n := b.toNat % 16) (by omega))
    have hcode : ((0 * 16 + 0) * 16 + b.toNat / 16) * 16 + b.toNat % 16 = b.toNat := by omega
    rw [hcode] at hhex
    refine .unicode hhex ?_ ?_
    · unfold HighSurrogate
      omega
    · unfold LowSurrogate
      omega
  · have hplain : CharText (String.utf8EncodeChar (Char.ofNat b.toNat)) (Char.ofNat b.toNat) := by
      refine .plain ?_
      unfold Plain
      rw [hscalar.toNat_ofNat]
      refine ⟨?_, fun heq => h₁ (UInt8.toNat_inj.mp heq), fun heq => h₂ (UInt8.toNat_inj.mp heq)⟩
      exact Nat.not_lt.mp h₈
    rwa [utf8EncodeChar_single h] at hplain

theorem charText_escape (c : Char) :
    CharText ((String.utf8EncodeChar c).flatMap jsonEscapeByte) c := by
  by_cases h : c.toNat < 0x80
  · have hbytes := Utf8.toNat_encode c
    rw [if_pos h] at hbytes
    obtain ⟨b, tail, hc, hb, hbytes⟩ := map_eq_cons_iff.mp hbytes
    obtain rfl := map_eq_nil_iff.mp hbytes
    have hchar : Char.ofNat b.toNat = c := by
      apply Char.toNat_inj.mp
      rw [hb, (scalar_toNat c).toNat_ofNat]
    have hsingle := charText_escape_single (hb ▸ h)
    rw [hchar] at hsingle
    rw [hc]
    simpa using hsingle
  · have hge : 0x80 ≤ c.toNat := Nat.not_lt.mp h
    rw [flatMap_escape_of_ge (Utf8.encode_high hge)]
    exact .plain ⟨by omega, by omega, by omega⟩

theorem stringText_render {value : Bytes} (h : IsText value) :
    StringText (renderString value) value := by
  obtain ⟨cs, rfl⟩ := h
  have hchars : CharsText ((utf8 cs).flatMap jsonEscapeByte) cs := by
    induction cs with
    | nil => exact .nil
    | cons c cs ih =>
      rw [utf8, flatMap_cons, flatMap_append]
      exact .cons (charText_escape c) ih
  exact .mk hchars

end Strings

section Rendering

mutual

def renderTree : Tree → Bytes
  | .null => ascii "null"
  | .bool value => if value then ascii "true" else ascii "false"
  | .number text => text
  | .string value => renderString value
  | .array items => byte '[' :: (renderItems true items ++ [byte ']'])
  | .object members => openBrace :: (renderMembers true members ++ [closeBrace])

def renderItems : Bool → List Tree → Bytes
  | _, [] => []
  | first, item :: items =>
    (if first then [] else [byte ',']) ++ (renderTree item ++ renderItems false items)

def renderMembers : Bool → List (Bytes × Tree) → Bytes
  | _, [] => []
  | first, (key, value) :: members =>
    (if first then [] else [byte ',']) ++
      (renderString key ++ (byte ':' :: (renderTree value ++ renderMembers false members)))

end

theorem space_nil : Space [] := fun _ hb => nomatch hb

mutual

/-- The text of a tree is a text of the grammar for that tree. -/
theorem valueText_renderTree : ∀ (tree : Tree), Spelled tree → ValueText (renderTree tree) tree
  | .null, _ => .null
  | .bool true, _ => .true
  | .bool false, _ => .false
  | .number _, h => .number h
  | .string _, h => .string (stringText_render h)
  | .array items, h => by
    by_cases hne : items = []
    · rw [hne]
      exact .emptyArray space_nil
    · exact .array (itemsText_renderItems items hne h)
  | .object members, h => by
    by_cases hne : members = []
    · rw [hne]
      exact .emptyObject space_nil
    · exact .object (membersText_renderMembers members hne h)

theorem itemsText_renderItems : ∀ (items : List Tree), items ≠ [] → ItemsSpelled items →
    ItemsText (renderItems true items) items
  | [], hne, _ => absurd rfl hne
  | [item], _, h => .last space_nil (valueText_renderTree item h.1) space_nil
  | item :: next :: items, _, h => by
    have hrest := itemsText_renderItems (next :: items) (cons_ne_nil _ _) h.2
    exact .more space_nil (valueText_renderTree item h.1) space_nil hrest

theorem membersText_renderMembers : ∀ (members : List (Bytes × Tree)), members ≠ [] →
    MembersSpelled members → MembersText (renderMembers true members) members
  | [], hne, _ => absurd rfl hne
  | [(_, value)], _, h =>
    .last space_nil (stringText_render h.1.1) space_nil space_nil
      (valueText_renderTree value h.1.2) space_nil
  | (_, value) :: next :: members, _, h => by
    have hrest := membersText_renderMembers (next :: members) (cons_ne_nil _ _) h.2
    exact .more space_nil (stringText_render h.1.1) space_nil space_nil
      (valueText_renderTree value h.1.2) space_nil hrest

end

theorem documentText_renderTree {tree : Tree} (h : Spelled tree) :
    DocumentText (renderTree tree) tree := by
  have hdocument := DocumentText.mk space_nil (valueText_renderTree tree h) space_nil
  rwa [nil_append, append_nil] at hdocument

end Rendering

end Sengoo.Stdlib
