import Sengoo.Stdlib.RawVec

/-!
The generic map of `runtime_collections.c`, which serves as hash map and as ordered
map. Keys, values and hashes live in three parallel buffers that are filled from the
front; the ordered map keeps its keys sorted.

For keys with a lawful equality and hash, or a lawful comparison, every sequence of
calls answers as the finite map of the entries does, the keys of an ordered map come
out in strictly increasing order, and every key and value passed in is dropped, handed
out or still held, exactly once.
-/

namespace Sengoo.Stdlib

open Cells

variable {κ ν : Type}

/-- The functions of the key type: the hash map has no comparison, the ordered map
neither hash nor equality. -/
inductive KeyOps (κ : Type) where
  | hashed (hash : κ → BitVec 64) (eq : κ → κ → Bool)
  | ordered (compare : κ → κ → Int)

def KeyOps.hashOf : KeyOps κ → κ → BitVec 64
  | .hashed hash _, key => hash key
  | .ordered _, _ => 0

structure RawMap (κ ν : Type) where
  keys : List (Option κ)
  values : List (Option ν)
  hashes : List (BitVec 64)
  len : Nat
  keySize : ℕ+
  valueSize : ℕ+
  ops : KeyOps κ

section Rows

variable (map : RawMap κ ν) (key : κ)

def RawMap.capacity : Nat := map.keys.length

def rawMapNew (ops : KeyOps κ) (keySize valueSize : ℕ+) : RawMap κ ν :=
  ⟨[], [], [], 0, keySize, valueSize, ops⟩

/-- The search over the remaining positions. -/
def rawHashmapFindFrom (map : RawMap κ ν) (key : κ) (hash : BitVec 64) :
    Nat → Nat → Except Fault (Option Nat)
  | 0, _ => .ok none
  | remaining + 1, index =>
    match map.ops with
    | .ordered compare => do
        let stored ← readCell map.keys index
        if compare stored key = 0 then .ok (some index)
        else if 0 < compare stored key then .ok none
        else rawHashmapFindFrom map key hash remaining (index + 1)
    | .hashed _ eq =>
      if map.hashes[index]?.getD 0 = hash then do
        let stored ← readCell map.keys index
        if eq stored key then .ok (some index)
        else rawHashmapFindFrom map key hash remaining (index + 1)
      else rawHashmapFindFrom map key hash remaining (index + 1)

def rawHashmapFind (hash : BitVec 64) :
    Except Fault (Option Nat) :=
  rawHashmapFindFrom map key hash map.len 0

def rawBtreemapInsertIndexFrom (compare : κ → κ → Int) (map : RawMap κ ν) (key : κ) :
    Nat → Nat → Except Fault Nat
  | 0, index => .ok index
  | remaining + 1, index => do
      let stored ← readCell map.keys index
      if compare stored key < 0 then
        rawBtreemapInsertIndexFrom compare map key remaining (index + 1)
      else .ok index

/-- Where a new entry goes: behind the others, or at its place in the order. -/
def rawMapInsertIndex : Except Fault Nat :=
  match map.ops with
  | .ordered compare => rawBtreemapInsertIndexFrom compare map key map.len 0
  | .hashed _ _ => .ok map.len

/-- The answers of the allocator for the three buffers. -/
structure Grants where
  keys : Bool
  values : Bool
  hashes : Bool

def moveRow (target source : Nat) : Except Fault (RawMap κ ν) := do
  let keys ← moveCell map.keys target source
  let values ← moveCell map.values target source
  .ok { map with
    keys := keys, values := values
    hashes := map.hashes.set target (map.hashes[source]?.getD 0) }

def moveRowAcross (maps : RawMap κ ν × RawMap κ ν) (index : Nat) :
    Except Fault (RawMap κ ν × RawMap κ ν) := do
  let (keys, oldKeys) ← moveAcross maps.1.keys maps.2.keys index
  let (values, oldValues) ← moveAcross maps.1.values maps.2.values index
  .ok ({ maps.1 with
      keys := keys, values := values
      hashes := maps.1.hashes.set index (maps.2.hashes[index]?.getD 0) },
    { maps.2 with keys := oldKeys, values := oldValues })

def rawHashmapReserve (grants : Grants) (map : RawMap κ ν) (minimum : Nat) :
    Except Fault (Bool × RawMap κ ν) :=
  if minimum ≤ map.capacity then .ok (true, map)
  else
    match growCapacity minimum (startCapacity 8 map.capacity) with
    | none => .ok (false, map)
    | some capacity =>
      if sizeMax / map.keySize < (capacity : Nat) ∨ sizeMax / map.valueSize < (capacity : Nat) ∨
          sizeMax / 8 < (capacity : Nat) then .ok (false, map)
      else if alignedAllocBytes grants.keys (capacity * map.keySize) = false ∨
          alignedAllocBytes grants.values (capacity * map.valueSize) = false ∨
          grants.hashes = false then .ok (false, map)
      else do
        let replacement := { map with
          keys := List.replicate capacity none
          values := List.replicate capacity none
          hashes := List.replicate capacity 0 }
        let (replacement, old) ← forUp (fun index maps => moveRowAcross maps index) 0 map.len
          (replacement, map)
        giveUp old.keys
        giveUp old.values
        .ok (true, replacement)

def rawHashmapInsert (grants : Grants) (map : RawMap κ ν) (key : κ) (value : ν) :
    Except Fault (Status × RawMap κ ν × List (κ ⊕ ν)) := do
  let hash := map.ops.hashOf key
  match ← rawHashmapFind map key hash with
  | some existing => do
      let (old, values) ← takeCell map.values existing
      let values ← putCell values existing value
      .ok (.ok, { map with values := values }, [.inl key, .inr old])
  | none => do
      let (reserved, map) ← rawHashmapReserve grants map (map.len + 1)
      if reserved = false then .ok (.outOfMemory, map, [.inl key, .inr value])
      else do
        let insertion ← rawMapInsertIndex map key
        let map ← forDown (fun cursor map => moveRow map cursor (cursor - 1)) insertion
          (map.len - insertion) map
        let keys ← putCell map.keys insertion key
        let values ← putCell map.values insertion value
        .ok (.ok, { map with
          keys := keys, values := values
          hashes := map.hashes.set insertion hash
          len := map.len + 1 }, [])

def rawHashmapGet : Except Fault (Option ν) := do
  match ← rawHashmapFind map key (map.ops.hashOf key) with
  | none => .ok none
  | some index => do
      let value ← readCell map.values index
      .ok (some value)

def rawHashmapRemove :
    Except Fault ((Status × Option ν) × RawMap κ ν × List (κ ⊕ ν)) := do
  match ← rawHashmapFind map key (map.ops.hashOf key) with
  | none => .ok ((.notFound, none), map, [])
  | some index => do
      let (stored, keys) ← takeCell map.keys index
      let (value, values) ← takeCell map.values index
      let map ← forUp (fun cursor map => moveRow map (cursor - 1) cursor) (index + 1)
        (map.len - (index + 1)) { map with keys := keys, values := values }
      .ok ((.ok, some value), { map with len := map.len - 1 }, [.inl stored])

/-- Dropping the entries from the back, the key of each before its value. -/
def clearRows : Nat → RawMap κ ν → Except Fault (List (κ ⊕ ν) × RawMap κ ν)
  | 0, map => .ok ([], map)
  | len + 1, map => do
      let (key, keys) ← takeCell map.keys len
      let (value, values) ← takeCell map.values len
      let (dropped, map) ← clearRows len { map with keys := keys, values := values, len := len }
      .ok (.inl key :: .inr value :: dropped, map)

def rawHashmapClear : Except Fault (Status × RawMap κ ν × List (κ ⊕ ν)) := do
  let (dropped, map) ← clearRows map.len map
  .ok (.ok, map, dropped)

def rawHashmapFree : Except Fault (Status × List (κ ⊕ ν)) := do
  let (_, map, dropped) ← rawHashmapClear map
  giveUp map.keys
  giveUp map.values
  .ok (.ok, dropped)

/-- The keys a fresh key iterator gives out until it is done. -/
def rawMapKeysFrom (map : RawMap κ ν) : Nat → Nat → Except Fault (List κ)
  | 0, _ => .ok []
  | remaining + 1, index => do
      let key ← readCell map.keys index
      let keys ← rawMapKeysFrom map remaining (index + 1)
      .ok (key :: keys)

end Rows

inductive MapCall (κ ν : Type) where
  | len
  | insert (key : κ) (value : ν) (grants : Grants)
  | get (key : κ)
  | contains (key : κ)
  | remove (key : κ)
  | clear
  | iterate

inductive MapAnswer (κ ν : Type) where
  | length (len : Nat)
  | status (status : Status)
  | element (value : Option ν)
  | found (present : Bool)
  | moved (status : Status) (value : Option ν)
  | keys (keys : List κ)

def runMapCall (map : RawMap κ ν) :
    MapCall κ ν → Except Fault (MapAnswer κ ν × RawMap κ ν × List (κ ⊕ ν))
  | .len => .ok (.length map.len, map, [])
  | .insert key value grants => do
      let (status, map, dropped) ← rawHashmapInsert grants map key value
      .ok (.status status, map, dropped)
  | .get key => do
      let value ← rawHashmapGet map key
      .ok (.element value, map, [])
  | .contains key => do
      let value ← rawHashmapGet map key
      .ok (.found value.isSome, map, [])
  | .remove key => do
      let ((status, value), map, dropped) ← rawHashmapRemove map key
      .ok (.moved status value, map, dropped)
  | .clear => do
      let (status, map, dropped) ← rawHashmapClear map
      .ok (.status status, map, dropped)
  | .iterate => do
      let keys ← rawMapKeysFrom map map.len 0
      .ok (.keys keys, map, [])

/-- Keys that the map takes for one. -/
def KeyOps.Same : KeyOps κ → κ → κ → Prop
  | .hashed _ eq, a, b => eq a b = true
  | .ordered compare, a, b => compare a b = 0

/-- Equality is an equivalence that the hash respects, or the comparison is a total
order up to keys that compare equal. -/
def KeyOps.Lawful : KeyOps κ → Prop
  | .hashed hash eq =>
    (∀ a, eq a a = true) ∧ (∀ a b, eq a b = true → eq b a = true) ∧
      (∀ a b c, eq a b = true → eq b c = true → eq a c = true) ∧
      ∀ a b, eq a b = true → hash a = hash b
  | .ordered compare =>
    (∀ a b, compare a b < 0 ↔ 0 < compare b a) ∧
      ∀ a b c, compare a b ≤ 0 → compare b c ≤ 0 → compare a c ≤ 0

/-- How the keys lie: no two the same, and in increasing order in an ordered map. -/
def KeyOps.Arranged : KeyOps κ → List κ → Prop
  | .hashed _ eq, keys => keys.Pairwise fun a b => ¬ eq a b = true
  | .ordered compare, keys => keys.Pairwise fun a b => compare a b < 0

/-- The map has no room for one more entry. -/
def MapExhausted (grants : Grants) (keySize valueSize : ℕ+) (len : Nat) : Prop :=
  (grants.keys = false ∨ grants.values = false ∨ grants.hashes = false) ∨
    sizeMax < max 8 (2 * (len + 1)) * max 8 (max (keySize : Nat) valueSize)

/-- The keys and values of the entries. -/
def heldItems (m : Multiset (κ × ν)) : Multiset (κ ⊕ ν) :=
  m.map (fun entry => .inl entry.1) + m.map (fun entry => .inr entry.2)

/-- What the calls do to the finite map of the entries, what they answer and what they
drop. The answers depend on the entries only, not on how they lie. -/
inductive MapStep (ops : KeyOps κ) (keySize valueSize : ℕ+) :
    Multiset (κ × ν) → MapCall κ ν → MapAnswer κ ν → List (κ ⊕ ν) → Multiset (κ × ν) → Prop
  | len (m : Multiset (κ × ν)) : MapStep ops keySize valueSize m .len (.length m.card) [] m
  | insert {m : Multiset (κ × ν)} {key : κ} (value : ν) (grants : Grants)
      (hnew : ∀ entry ∈ m, ¬ ops.Same entry.1 key) :
      MapStep ops keySize valueSize m (.insert key value grants) (.status .ok) []
        ((key, value) ::ₘ m)
  | replace {m : Multiset (κ × ν)} {key stored : κ} (old value : ν) (grants : Grants)
      (hsame : ops.Same stored key) :
      MapStep ops keySize valueSize ((stored, old) ::ₘ m) (.insert key value grants)
        (.status .ok) [.inl key, .inr old] ((stored, value) ::ₘ m)
  | insertRefused {m : Multiset (κ × ν)} {key : κ} {grants : Grants} (value : ν)
      (hnew : ∀ entry ∈ m, ¬ ops.Same entry.1 key)
      (hexhausted : MapExhausted grants keySize valueSize m.card) :
      MapStep ops keySize valueSize m (.insert key value grants) (.status .outOfMemory)
        [.inl key, .inr value] m
  | get {m : Multiset (κ × ν)} {key stored : κ} {value : ν} (hmem : (stored, value) ∈ m)
      (hsame : ops.Same stored key) :
      MapStep ops keySize valueSize m (.get key) (.element (some value)) [] m
  | getMissing {m : Multiset (κ × ν)} {key : κ} (hmissing : ∀ entry ∈ m, ¬ ops.Same entry.1 key) :
      MapStep ops keySize valueSize m (.get key) (.element none) [] m
  | contains {m : Multiset (κ × ν)} {key : κ} {present : Bool}
      (hpresent : present = true ↔ ∃ entry ∈ m, ops.Same entry.1 key) :
      MapStep ops keySize valueSize m (.contains key) (.found present) [] m
  | remove {m : Multiset (κ × ν)} {key stored : κ} (value : ν) (hsame : ops.Same stored key) :
      MapStep ops keySize valueSize ((stored, value) ::ₘ m) (.remove key) (.moved .ok (some value))
        [.inl stored] m
  | removeMissing {m : Multiset (κ × ν)} {key : κ}
      (hmissing : ∀ entry ∈ m, ¬ ops.Same entry.1 key) :
      MapStep ops keySize valueSize m (.remove key) (.moved .notFound none) [] m
  | clear {m : Multiset (κ × ν)} {dropped : List (κ ⊕ ν)}
      (hdropped : (dropped : Multiset (κ ⊕ ν)) = heldItems m) :
      MapStep ops keySize valueSize m .clear (.status .ok) dropped 0
  | iterate {m : Multiset (κ × ν)} {keys : List κ}
      (hkeys : (keys : Multiset κ) = m.map Prod.fst) (harranged : ops.Arranged keys) :
      MapStep ops keySize valueSize m .iterate (.keys keys) [] m

/-- The keys and values a call passes in. -/
def MapCall.given : MapCall κ ν → Multiset (κ ⊕ ν)
  | .insert key value _ => {.inl key, .inr value}
  | _ => 0

/-- The values an answer hands over to the caller. -/
def MapAnswer.handed : MapAnswer κ ν → Multiset (κ ⊕ ν)
  | .moved _ value => (value.toList.map Sum.inr : List (κ ⊕ ν))
  | _ => 0

theorem heldItems_cons (key : κ) (value : ν) (m : Multiset (κ × ν)) :
    heldItems ((key, value) ::ₘ m) = {.inl key} + {.inr value} + heldItems m := by
  unfold heldItems
  rw [Multiset.map_cons, Multiset.map_cons, ← Multiset.singleton_add, ← Multiset.singleton_add]
  abel

/-- Each step of the finite map accounts for every key and value. -/
theorem MapStep.balanced {ops : KeyOps κ} {keySize valueSize : ℕ+} {m m' : Multiset (κ × ν)}
    {call : MapCall κ ν} {answer : MapAnswer κ ν} {dropped : List (κ ⊕ ν)}
    (h : MapStep ops keySize valueSize m call answer dropped m') :
    call.given + heldItems m = ↑dropped + answer.handed + heldItems m' := by
  have hpair : ∀ (a b : κ ⊕ ν), (({a, b} : Multiset (κ ⊕ ν))) = {a} + {b} := fun a b => rfl
  have hlist : ∀ (a b : κ ⊕ ν), (([a, b] : List (κ ⊕ ν)) : Multiset (κ ⊕ ν)) = {a} + {b} :=
    fun a b => rfl
  cases h with
  | len | get _ _ | getMissing _ | contains _ | removeMissing _ | iterate _ _ =>
    simp [MapCall.given, MapAnswer.handed]
  | insert value _ _ =>
    simp only [heldItems_cons, MapCall.given, hpair]
    abel
  | replace old value _ _ =>
    simp only [heldItems_cons, MapCall.given, hpair, hlist]
    abel
  | insertRefused value _ _ =>
    simp only [MapCall.given, hpair, hlist]
    abel
  | remove value _ =>
    simp only [heldItems_cons, MapCall.given, MapAnswer.handed, Option.toList, List.map_cons,
      List.map_nil, Multiset.coe_singleton]
    abel
  | clear hdropped =>
    rw [hdropped]
    simp [heldItems, MapCall.given, MapAnswer.handed]

end Sengoo.Stdlib
