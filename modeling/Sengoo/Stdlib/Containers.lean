import Sengoo.Stdlib.RawMap

/-!
The generic map refines the finite map of its entries: searching, making room,
shifting and clearing, each for the three buffers at once, and then every sequence
of calls. The module ends with what both generic containers owe their users.
-/

namespace Sengoo.Stdlib

open Cells List

variable {κ ν : Type} {ops : KeyOps κ} {keySize valueSize : ℕ+}

variable {map : RawMap κ ν}

/-- A map that holds the entries at the front of its buffers. -/
def mapOf (ops : KeyOps κ) (keySize valueSize : ℕ+) (entries : List (κ × ν)) (room : Nat)
    (junk : List (BitVec 64)) : RawMap κ ν :=
  ⟨packed (entries.map Prod.fst) room, packed (entries.map Prod.snd) room,
    entries.map (fun entry => ops.hashOf entry.1) ++ junk, entries.length, keySize, valueSize, ops⟩

variable {room : Nat} {junk : List (BitVec 64)} {key : κ} {entries front back : List (κ × ν)}
  {m : Multiset (κ × ν)}

section Search

variable {entry : κ × ν}

theorem mapOf_ops : (mapOf ops keySize valueSize entries room junk).ops = ops := rfl

theorem mapOf_len : (mapOf ops keySize valueSize entries room junk).len = entries.length := rfl

theorem mapOf_keySize : (mapOf ops keySize valueSize entries room junk).keySize = keySize := rfl

theorem mapOf_valueSize : (mapOf ops keySize valueSize entries room junk).valueSize = valueSize :=
  rfl

theorem mapOf_keys : (mapOf ops keySize valueSize entries room junk).keys =
    packed (entries.map Prod.fst) room := rfl

theorem mapOf_values : (mapOf ops keySize valueSize entries room junk).values =
    packed (entries.map Prod.snd) room := rfl

section

variable {β : Type} (column : κ × ν → β)

theorem readCell_column (room : Nat) (h : entries = front ++ entry :: back) :
    readCell (packed (entries.map column) room) front.length = .ok (column entry) := by
  have hlt : front.length < (entries.map column).length := by simp [h]
  rw [readCell_packed room hlt]
  simp [h]

variable (front back : List (κ × ν))

theorem takeCell_column (entry : κ × ν) (room : Nat) :
    takeCell (packed ((front ++ entry :: back).map column) room) front.length =
      .ok (column entry, withHole (front.map column) (back.map column) room) := by
  rw [map_append]
  exact takeCell_packed _ _ _ _ (length_map column).symm

theorem putCell_column (entry : κ × ν) (room : Nat) :
    putCell (withHole (front.map column) (back.map column) room) front.length (column entry) =
      .ok (packed ((front ++ entry :: back).map column) room) := by
  rw [map_append]
  exact putCell_withHole _ _ _ _ (length_map column).symm

end

/-- What a search that starts behind some entries finds. -/
def Finds (ops : KeyOps κ) (key : κ) (front back : List (κ × ν))
    (result : Except Fault (Option Nat)) : Prop :=
  (∃ middle entry rest, back = middle ++ entry :: rest ∧ ops.Same entry.1 key ∧
    result = .ok (some (front.length + middle.length))) ∨
  ((∀ entry ∈ back, ¬ ops.Same entry.1 key) ∧ result = .ok none)

theorem Finds.cons {result : Except Fault (Option Nat)} (hother : ¬ ops.Same entry.1 key)
    (h : Finds ops key (front ++ [entry]) back result) :
    Finds ops key front (entry :: back) result := by
  rcases h with ⟨middle, found, rest, rfl, hsame, hresult⟩ | ⟨hmissing, hresult⟩
  · refine Or.inl ⟨entry :: middle, found, rest, rfl, hsame, ?_⟩
    rw [hresult, length_append, length_singleton, length_cons]
    congr 2
    omega
  · refine Or.inr ⟨fun other hmem => ?_, hresult⟩
    rcases mem_cons.mp hmem with rfl | hmem
    · exact hother
    · exact hmissing other hmem

/-- Behind a key that is greater than the one searched for no entry is the same. -/
theorem not_same_of_lt {compare : κ → κ → Int} (hlawful : (KeyOps.ordered compare).Lawful)
    {stored other : κ} (hless : compare stored other < 0) (hgreater : 0 < compare stored key) :
    ¬ (KeyOps.ordered compare).Same other key := by
  intro hsame
  change compare other key = 0 at hsame
  have hle := hlawful.2 stored other key (by omega) (by omega)
  omega

section

variable (hmap : map = mapOf ops keySize valueSize entries room junk)
include hmap

theorem rawBtreemapInsertIndexFrom_spec (compare : κ → κ → Int) (key : κ)
    (front back : List (κ × ν)) (hentries : entries = front ++ back) :
    ∃ middle rest, back = middle ++ rest ∧ (∀ entry ∈ middle, compare entry.1 key < 0) ∧
      (∀ entry ∈ rest.head?, ¬ compare entry.1 key < 0) ∧
      rawBtreemapInsertIndexFrom compare map key back.length front.length =
        .ok (front.length + middle.length) := by
  subst hmap
  induction back generalizing front with
  | nil => exact ⟨[], [], rfl, by simp, by simp, rfl⟩
  | cons entry back ih =>
    have hread := readCell_column Prod.fst room hentries
    simp only [length_cons, rawBtreemapInsertIndexFrom, mapOf, hread, bind, Except.bind]
    by_cases hless : compare entry.1 key < 0
    · obtain ⟨middle, rest, rfl, hmiddle, hrest, hindex⟩ :=
        ih (front ++ [entry]) (by simp [hentries])
      refine ⟨entry :: middle, rest, rfl, ?_, hrest, ?_⟩
      · exact forall_mem_cons.mpr ⟨hless, hmiddle⟩
      · have hlength : (front ++ [entry]).length = front.length + 1 := by simp
        rw [hlength, Nat.add_assoc, Nat.add_comm 1] at hindex
        rw [if_pos hless]
        exact hindex
    · rw [if_neg hless]
      exact ⟨[], entry :: back, rfl, by simp, by simpa using hless, rfl⟩

variable (hlawful : ops.Lawful) (harranged : ops.Arranged (entries.map Prod.fst))
include hlawful harranged

theorem rawHashmapFindFrom_spec (key : κ) (front back : List (κ × ν))
    (hentries : entries = front ++ back) :
    Finds ops key front back
      (rawHashmapFindFrom map key (ops.hashOf key) back.length front.length) := by
  subst hmap
  induction back generalizing front with
  | nil => exact Or.inr ⟨by simp, rfl⟩
  | cons entry back ih =>
    have hrest := ih (front ++ [entry]) (by simp [hentries])
    rw [length_append] at hrest
    have hread := readCell_column Prod.fst room hentries
    cases ops with
    | ordered compare =>
      simp only [length_cons, rawHashmapFindFrom, mapOf, hread, bind, Except.bind]
      by_cases hequal : compare entry.1 key = 0
      · rw [if_pos hequal]
        exact Or.inl ⟨[], entry, back, rfl, hequal, rfl⟩
      rw [if_neg hequal]
      by_cases hgreater : 0 < compare entry.1 key
      · rw [if_pos hgreater]
        refine Or.inr ⟨fun other hmem => ?_, rfl⟩
        rcases mem_cons.mp hmem with rfl | hmem
        · exact hequal
        · refine not_same_of_lt hlawful ?_ hgreater
          rw [hentries, map_append] at harranged
          have hpairwise := (pairwise_append.mp harranged).2.1
          exact (pairwise_cons.mp hpairwise).1 other.1 (mem_map_of_mem hmem)
      · rw [if_neg hgreater]
        exact Finds.cons hequal hrest
    | hashed hash eq =>
      have hhash : (mapOf (.hashed hash eq) keySize valueSize entries room junk).hashes[
          front.length]?.getD 0 = hash entry.1 := by
        simp [mapOf, hentries, KeyOps.hashOf]
      change Finds _ _ _ _ (if (mapOf (.hashed hash eq) keySize valueSize entries room
        junk).hashes[front.length]?.getD 0 = hash key then _ else _)
      rw [hhash]
      by_cases hequal : hash entry.1 = hash key
      · rw [if_pos hequal]
        simp only [mapOf, hread, bind, Except.bind]
        by_cases hsame : eq entry.1 key = true
        · rw [if_pos hsame]
          exact Or.inl ⟨[], entry, back, rfl, hsame, rfl⟩
        · rw [if_neg hsame]
          exact Finds.cons hsame hrest
      · rw [if_neg hequal]
        refine Finds.cons (fun hsame => hequal ?_) hrest
        exact hlawful.2.2.2 entry.1 key hsame

/-- The search finds the entry of the key, if there is one. -/
theorem rawHashmapFind_spec (key : κ) :
    (∃ front entry back, entries = front ++ entry :: back ∧ ops.Same entry.1 key ∧
      rawHashmapFind map key (ops.hashOf key) = .ok (some front.length)) ∨
    ((∀ entry ∈ entries, ¬ ops.Same entry.1 key) ∧
      rawHashmapFind map key (ops.hashOf key) = .ok none) := by
  have h := rawHashmapFindFrom_spec hmap hlawful harranged key [] entries rfl
  subst hmap
  rcases h with ⟨front, entry, back, hentries, hsame, hfind⟩ | hmissing
  · refine Or.inl ⟨front, entry, back, hentries, hsame, ?_⟩
    rw [length_nil, Nat.zero_add] at hfind
    exact hfind
  · exact Or.inr hmissing

/-- The place of a new entry keeps the keys arranged. -/
theorem rawMapInsertIndex_spec (hnew : ∀ entry ∈ entries, ¬ ops.Same entry.1 key) (value : ν) :
    ∃ front back, entries = front ++ back ∧
      rawMapInsertIndex map key = .ok front.length ∧
      ops.Arranged ((front ++ (key, value) :: back).map Prod.fst) := by
  subst hmap
  cases ops with
  | hashed hash eq =>
    refine ⟨entries, [], (append_nil entries).symm, rfl, ?_⟩
    rw [map_append]
    refine pairwise_append.mpr ⟨harranged, pairwise_singleton _ _, ?_⟩
    intro a ha b hb
    obtain ⟨entry, hentry, rfl⟩ := mem_map.mp ha
    rw [mem_singleton.mp hb]
    exact hnew entry hentry
  | ordered compare =>
    obtain ⟨front, back, hentries, hfront, hback, hindex⟩ :=
      rawBtreemapInsertIndexFrom_spec rfl compare key [] entries rfl
    rw [length_nil, Nat.zero_add] at hindex
    refine ⟨front, back, hentries, hindex, ?_⟩
    rw [hentries, map_append] at harranged
    obtain ⟨hsorted, hsorted', hcross⟩ := pairwise_append.mp harranged
    have hafter : ∀ b ∈ back.map Prod.fst, compare key b < 0 := by
      intro b hb
      cases back with
      | nil => cases hb
      | cons entry back =>
        have hentry : 0 < compare entry.1 key := by
          have hge := hback entry rfl
          have hne := hnew entry (hentries ▸ by simp)
          change ¬ compare entry.1 key = 0 at hne
          omega
        have hless := (hlawful.1 key entry.1).mpr hentry
        rcases mem_cons.mp hb with rfl | hb
        · exact hless
        · have hnext := (pairwise_cons.mp hsorted').1 b hb
          -- transitivity gives at most; equality would put the later key first
          have hle := hlawful.2 key entry.1 b (by omega) (by omega)
          rcases Int.lt_or_eq_of_le hle with hlt | heq
          · exact hlt
          · have hge : compare b key ≤ 0 := by
              by_contra hgt
              have := (hlawful.1 key b).mpr (by omega)
              omega
            have hback' := hlawful.2 b key entry.1 hge (by omega)
            have hgt := (hlawful.1 entry.1 b).mp hnext
            omega
    rw [map_append]
    refine pairwise_append.mpr ⟨hsorted, pairwise_cons.mpr ⟨hafter, hsorted'⟩, ?_⟩
    intro a ha b hb
    rcases mem_cons.mp hb with rfl | hb
    · obtain ⟨entry, hentry, rfl⟩ := mem_map.mp ha
      exact hfront entry hentry
    · exact hcross a ha b hb

end

end Search

section Rows

/-- A map in the middle of shifting: there is a hole between its rows, and the hash there
does not matter. -/
structure Shifted (ops : KeyOps κ) (keySize valueSize : ℕ+) (len room : Nat)
    (front back : List (κ × ν)) (map : RawMap κ ν) : Prop where
  keys : map.keys = withHole (front.map Prod.fst) (back.map Prod.fst) room
  values : map.values = withHole (front.map Prod.snd) (back.map Prod.snd) room
  hashes : ∃ hash junk, junk.length = room ∧ map.hashes =
    (front.map fun entry => ops.hashOf entry.1) ++
      hash :: ((back.map fun entry => ops.hashOf entry.1) ++ junk)
  others : map.len = len ∧ map.keySize = keySize ∧ map.valueSize = valueSize ∧ map.ops = ops

variable {len : Nat} {entry : κ × ν}

/-- The row before the hole moves into it. -/
theorem moveRow_up (h : Shifted ops keySize valueSize len room (front ++ [entry]) back map) :
    ∃ map', moveRow map (front.length + 1) front.length = .ok map' ∧
      Shifted ops keySize valueSize len room front (entry :: back) map' := by
  obtain ⟨hkeys, hvalues, ⟨hash, junk, hroom, hhashes⟩, hothers⟩ := h
  have hmoveKeys := moveCell_hole_left (front.map Prod.fst) (back.map Prod.fst) entry.1 room
    (front.length + 1) front.length (by simp) (by simp)
  have hmoveValues := moveCell_hole_left (front.map Prod.snd) (back.map Prod.snd) entry.2 room
    (front.length + 1) front.length (by simp) (by simp)
  rw [map_append, map_singleton] at hkeys hvalues
  unfold moveRow
  simp only [hkeys, hvalues, hmoveKeys, hmoveValues]
  refine ⟨_, rfl, rfl, rfl, ⟨ops.hashOf entry.1, junk, hroom, ?_⟩, hothers⟩
  simp [hhashes]

/-- The row behind the hole moves into it. -/
theorem moveRow_down (h : Shifted ops keySize valueSize len room front (entry :: back) map) :
    ∃ map', moveRow map front.length (front.length + 1) = .ok map' ∧
      Shifted ops keySize valueSize len room (front ++ [entry]) back map' := by
  obtain ⟨hkeys, hvalues, ⟨hash, junk, hroom, hhashes⟩, hothers⟩ := h
  have hmoveKeys := moveCell_hole_right (front.map Prod.fst) (back.map Prod.fst) entry.1 room
    front.length (front.length + 1) (by simp) (by simp)
  have hmoveValues := moveCell_hole_right (front.map Prod.snd) (back.map Prod.snd) entry.2 room
    front.length (front.length + 1) (by simp) (by simp)
  rw [map_cons] at hkeys hvalues
  unfold moveRow
  simp only [hkeys, hvalues, hmoveKeys, hmoveValues]
  refine ⟨_, rfl, ?_, ?_, ⟨ops.hashOf entry.1, junk, hroom, ?_⟩, hothers⟩
  · rw [map_append, map_singleton]
  · rw [map_append, map_singleton]
  · simp [hhashes]

/-- The rows from a place on are moved up by one. -/
theorem forDown_moveRow (ops : KeyOps κ) (keySize valueSize : ℕ+) (front back : List (κ × ν))
    (hjunk : junk.length = room + 1) :
    ∃ map, forDown (fun cursor map => moveRow map cursor (cursor - 1)) front.length
        ((front ++ back).length - front.length)
        (mapOf ops keySize valueSize (front ++ back) (room + 1) junk) = .ok map ∧
      Shifted ops keySize valueSize (front ++ back).length room front back map := by
  obtain ⟨hash, junk, rfl⟩ := exists_cons_of_length_eq_add_one hjunk
  have hstart : Shifted ops keySize valueSize (front ++ back).length room (front ++ back) []
      (mapOf ops keySize valueSize (front ++ back) (room + 1) (hash :: junk)) :=
    ⟨packed_succ _ _, packed_succ _ _, ⟨hash, junk, by simpa using hjunk, rfl⟩, rfl, rfl, rfl, rfl⟩
  have hloop := forDown_rule (fun cursor map => moveRow map cursor (cursor - 1)) _ front back []
    hstart fun _ _ _ _ h => moveRow_up h
  have hback : (front ++ back).length - front.length = back.length := by simp
  rwa [append_nil, ← hback] at hloop

/-- The replacement and the old map after the rows in front were moved across. -/
def rowsRelocating (ops : KeyOps κ) (keySize valueSize : ℕ+) (room room' : Nat)
    (junk : List (BitVec 64)) (front back : List (κ × ν)) : RawMap κ ν × RawMap κ ν :=
  let keys := relocating (front.map Prod.fst) (back.map Prod.fst) room room'
  let values := relocating (front.map Prod.snd) (back.map Prod.snd) room room'
  let map := mapOf ops keySize valueSize (front ++ back) room junk
  ({ map with
      keys := keys.1, values := values.1
      hashes := (front.map fun entry => ops.hashOf entry.1) ++
        List.replicate (back.length + room') 0 },
    { map with keys := keys.2, values := values.2 })

theorem moveRowAcross_relocating (room room' : Nat) (junk : List (BitVec 64))
    (front back : List (κ × ν)) (entry : κ × ν) :
    moveRowAcross (rowsRelocating ops keySize valueSize room room' junk front (entry :: back))
      front.length =
      .ok (rowsRelocating ops keySize valueSize room room' junk (front ++ [entry]) back) := by
  have hkeys := moveAcross_relocating (front.map Prod.fst) (back.map Prod.fst) entry.1 room room'
    (length_map Prod.fst).symm
  have hvalues := moveAcross_relocating (front.map Prod.snd) (back.map Prod.snd) entry.2 room room'
    (length_map Prod.snd).symm
  have hroom : (entry :: back).length + room' = back.length + room' + 1 :=
    Nat.add_right_comm _ _ _
  unfold moveRowAcross rowsRelocating
  simp only [map_cons, hkeys, hvalues, hroom, bind, Except.bind]
  simp [mapOf, replicate_succ]

/-- Growing moves every row to the replacement and leaves the old buffers empty. -/
theorem forUp_moveRowAcross (ops : KeyOps κ) (keySize valueSize : ℕ+) (entries : List (κ × ν))
    (room : Nat) (junk : List (BitVec 64)) (grown room' : Nat)
    (hgrown : grown = entries.length + room') :
    forUp (fun index maps => moveRowAcross maps index) 0 entries.length
      ({ mapOf ops keySize valueSize entries room junk with
          keys := List.replicate grown none
          values := List.replicate grown none
          hashes := List.replicate grown 0 },
        mapOf ops keySize valueSize entries room junk) =
    .ok (mapOf ops keySize valueSize entries room' (List.replicate room' 0),
      { mapOf ops keySize valueSize entries room junk with
        keys := List.replicate (entries.length + room) none
        values := List.replicate (entries.length + room) none }) := by
  obtain ⟨_, hloop, rfl⟩ := forUp_rule (fun index maps => moveRowAcross maps index)
    (fun front back maps => maps =
      rowsRelocating ops keySize valueSize room room' junk front back) 0 [] entries rfl
    (fun front entry back _ h =>
      ⟨_, h ▸ moveRowAcross_relocating room room' junk front back entry, rfl⟩)
  unfold rowsRelocating at hloop
  simp only [map_nil, relocating_start, relocating_end, nil_append, append_nil,
    length_map, length_nil, Nat.zero_add, ← hgrown] at hloop
  exact hloop

theorem mapExhausted_of_overflow {grants : Grants} {len : Nat} {grown : ℕ+}
    (hmax : (grown : Nat) ≤ max 8 (2 * (len + 1)))
    (hbig : sizeMax / (keySize : Nat) < (grown : Nat) ∨
      sizeMax / (valueSize : Nat) < (grown : Nat) ∨ sizeMax / 8 < (grown : Nat)) :
    MapExhausted grants keySize valueSize len := by
  have hover : ∃ size : Nat, 0 < size ∧ size ≤ max 8 (max (keySize : Nat) valueSize) ∧
      sizeMax / size < (grown : Nat) := by
    rcases hbig with hbig | hbig | hbig
    · exact ⟨keySize, keySize.pos, by omega, hbig⟩
    · exact ⟨valueSize, valueSize.pos, by omega, hbig⟩
    · exact ⟨8, by decide, by omega, hbig⟩
  obtain ⟨size, hpos, hsize, hdiv⟩ := hover
  have hlt := (Nat.div_lt_iff_lt_mul hpos).mp hdiv
  exact Or.inr (Nat.lt_of_lt_of_le hlt (Nat.mul_le_mul hmax hsize))

theorem refused_of_alignedAllocBytes {granted : Bool} {grown size : ℕ+}
    (h : alignedAllocBytes granted (grown * size) = false) : granted = false := by
  rcases Bool.and_eq_false_iff.mp h with hbytes | hgranted
  · simp at hbytes
  · exact hgranted

/-- Reserving one more row: there is one, or nothing changed. -/
theorem rawHashmapReserve_spec (ops : KeyOps κ) (keySize valueSize : ℕ+) (grants : Grants)
    (entries : List (κ × ν)) (hjunk : junk.length = room) :
    (∃ room' junk', junk'.length = room' + 1 ∧
      rawHashmapReserve grants (mapOf ops keySize valueSize entries room junk)
        (entries.length + 1) =
        .ok (true, mapOf ops keySize valueSize entries (room' + 1) junk')) ∨
    (rawHashmapReserve grants (mapOf ops keySize valueSize entries room junk)
        (entries.length + 1) = .ok (false, mapOf ops keySize valueSize entries room junk) ∧
      MapExhausted grants keySize valueSize entries.length) := by
  have hcapacity : (mapOf ops keySize valueSize entries room junk).capacity =
      entries.length + room := by
    simp [RawMap.capacity, mapOf]
  unfold rawHashmapReserve
  rw [hcapacity, mapOf_keySize, mapOf_valueSize, mapOf_len]
  by_cases hroom : entries.length + 1 ≤ entries.length + room
  · refine Or.inl ⟨room - 1, junk, by omega, ?_⟩
    rw [if_pos hroom, Nat.sub_add_cancel (by omega)]
  rw [if_neg hroom]
  cases hgrow : growCapacity (entries.length + 1) (startCapacity 8 (entries.length + room)) with
  | none =>
    refine Or.inr ⟨by simp only, Or.inr ?_⟩
    have hbig := sizeMax_lt_of_growCapacity hgrow
    refine Nat.lt_of_lt_of_le hbig ((Nat.le_max_right 8 _).trans ?_)
    exact Nat.le_mul_of_pos_right _ (Nat.lt_of_lt_of_le (by decide) (Nat.le_max_left 8 _))
  | some grown =>
    obtain ⟨hle, hmax⟩ := growCapacity_le hgrow (by omega)
    simp only
    by_cases hbig : sizeMax / (keySize : Nat) < (grown : Nat) ∨
        sizeMax / (valueSize : Nat) < (grown : Nat) ∨ sizeMax / 8 < (grown : Nat)
    · rw [if_pos hbig]
      exact Or.inr ⟨rfl, mapExhausted_of_overflow hmax hbig⟩
    rw [if_neg hbig]
    by_cases halloc : alignedAllocBytes grants.keys (grown * keySize) = false ∨
        alignedAllocBytes grants.values (grown * valueSize) = false ∨ grants.hashes = false
    · rw [if_pos halloc]
      exact Or.inr ⟨rfl, Or.inl (halloc.imp refused_of_alignedAllocBytes
        (Or.imp_left refused_of_alignedAllocBytes))⟩
    · rw [if_neg halloc]
      refine Or.inl ⟨grown - (entries.length + 1),
        List.replicate (grown - (entries.length + 1) + 1) 0, length_replicate, ?_⟩
      have hloop := forUp_moveRowAcross ops keySize valueSize entries room junk grown
        (grown - (entries.length + 1) + 1) (by omega)
      dsimp only at hloop
      rw [mapOf_keySize, mapOf_valueSize, mapOf_len] at hloop
      rw [hloop]
      change (do giveUp (List.replicate _ none); giveUp (List.replicate _ none); _) = _
      rw [giveUp_replicate, giveUp_replicate]
      rfl

end Rows

section Operations

/-- The map holds the entries of the finite map, arranged. -/
structure Represents (ops : KeyOps κ) (keySize valueSize : ℕ+) (map : RawMap κ ν)
    (m : Multiset (κ × ν)) : Prop where
  entries : ∃ entries room junk, map = mapOf ops keySize valueSize entries room junk ∧
    junk.length = room ∧ ops.Arranged (entries.map Prod.fst) ∧ (entries : Multiset (κ × ν)) = m

theorem represents_rawMapNew (ops : KeyOps κ) (keySize valueSize : ℕ+) :
    Represents ops keySize valueSize (rawMapNew ops keySize valueSize : RawMap κ ν) 0 := by
  refine ⟨[], 0, [], rfl, rfl, ?_, rfl⟩
  cases ops <;> exact List.Pairwise.nil

/-- What one call leads to: an answer of the finite map, and the map after it held. -/
def MapAnswers (ops : KeyOps κ) (keySize valueSize : ℕ+) (m : Multiset (κ × ν))
    (call : MapCall κ ν) (result : Except Fault (MapAnswer κ ν × RawMap κ ν × List (κ ⊕ ν))) :
    Prop :=
  ∃ answer map dropped m', result = .ok (answer, map, dropped) ∧
    MapStep ops keySize valueSize m call answer dropped m' ∧
    Represents ops keySize valueSize map m'

theorem coe_middle (entry : κ × ν) :
    ((front ++ entry :: back : List (κ × ν)) : Multiset (κ × ν)) =
      entry ::ₘ ((front ++ back : List (κ × ν)) : Multiset (κ × ν)) :=
  Multiset.coe_eq_coe.mpr perm_middle

theorem replace_answers {stored : κ} (old value : ν)
    (hmap : map = mapOf ops keySize valueSize (front ++ (stored, old) :: back) room junk)
    (grants : Grants) (hjunk : junk.length = room)
    (harranged : ops.Arranged ((front ++ (stored, old) :: back).map Prod.fst))
    (hsame : ops.Same stored key)
    (hfind : rawHashmapFind map key (ops.hashOf key) = .ok (some front.length)) :
    MapAnswers ops keySize valueSize ↑(front ++ (stored, old) :: back) (.insert key value grants)
      (runMapCall map (.insert key value grants)) := by
  subst hmap
  have hput := putCell_column Prod.snd front back (stored, value) room
  refine ⟨.status .ok, mapOf ops keySize valueSize (front ++ (stored, value) :: back) room junk,
    [.inl key, .inr old], ↑(front ++ (stored, value) :: back), ?_, ?_,
    ⟨_, _, _, rfl, hjunk, ?_, rfl⟩⟩
  · unfold runMapCall rawHashmapInsert
    simp only [mapOf_ops, hfind, mapOf_values, takeCell_column, hput, bind, Except.bind]
    simp [mapOf]
  · rw [coe_middle, coe_middle]
    exact .replace old value grants hsame
  · simpa using harranged

section

variable (hmap : map = mapOf ops keySize valueSize entries room junk) (hlawful : ops.Lawful)
  (harranged : ops.Arranged (entries.map Prod.fst))
include hmap hlawful harranged

theorem rawHashmapGet_spec (key : κ) :
    (∃ entry ∈ entries, ops.Same entry.1 key ∧ rawHashmapGet map key = .ok (some entry.2)) ∨
    ((∀ entry ∈ entries, ¬ ops.Same entry.1 key) ∧ rawHashmapGet map key = .ok none) := by
  have hspec := rawHashmapFind_spec hmap hlawful harranged key
  subst hmap
  unfold rawHashmapGet
  rw [mapOf_ops]
  rcases hspec with ⟨front, entry, back, hentries, hsame, hfind⟩ | ⟨hnew, hfind⟩
  · refine Or.inl ⟨entry, by simp [hentries], hsame, ?_⟩
    have hread : readCell (mapOf ops keySize valueSize entries room junk).values front.length =
        .ok entry.2 := readCell_column _ room hentries
    simp only [hfind, hread, bind, Except.bind]
  · refine Or.inr ⟨hnew, ?_⟩
    simp only [hfind, bind, Except.bind]

variable (hjunk : junk.length = room)
include hjunk

theorem insertNew_answers (value : ν) (grants : Grants)
    (hnew : ∀ entry ∈ entries, ¬ ops.Same entry.1 key)
    (hfind : rawHashmapFind map key (ops.hashOf key) = .ok none) :
    MapAnswers ops keySize valueSize ↑entries (.insert key value grants)
      (runMapCall map (.insert key value grants)) := by
  subst hmap
  have hnewMem : ∀ entry ∈ (entries : Multiset (κ × ν)), ¬ ops.Same entry.1 key := hnew
  unfold runMapCall rawHashmapInsert
  simp only [mapOf_ops, mapOf_len, hfind, bind, Except.bind]
  rcases rawHashmapReserve_spec ops keySize valueSize grants
    entries hjunk with ⟨room', junk', hjunk', hreserve⟩ | ⟨hreserve, hexhausted⟩
  · have hplace := rawMapInsertIndex_spec
      (rfl : mapOf ops keySize valueSize entries (room' + 1) junk' = _) hlawful harranged hnew value
    obtain ⟨front, back, rfl, hindex, harranged'⟩ := hplace
    obtain ⟨map, hloop, hmap⟩ := forDown_moveRow ops keySize valueSize front back hjunk'
    obtain ⟨hash, rest, hrest, hhashes⟩ := hmap.hashes
    obtain ⟨hmapLen, hkeySize, hvalueSize, hmapOps⟩ := hmap.others
    have hputKeys := putCell_column Prod.fst front back (key, value) room'
    have hputValues := putCell_column Prod.snd front back (key, value) room'
    have hset : map.hashes.set front.length (ops.hashOf key) =
        (front.map fun entry => ops.hashOf entry.1) ++
          ops.hashOf key :: ((back.map fun entry => ops.hashOf entry.1) ++ rest) := by
      rw [hhashes, set_append_right _ _ (by simp), length_map, Nat.sub_self]
      rfl
    refine ⟨.status .ok, mapOf ops keySize valueSize (front ++ (key, value) :: back) room' rest,
      [], ↑(front ++ (key, value) :: back), ?_, ?_, ⟨_, _, _, rfl, hrest, harranged', rfl⟩⟩
    · simp only [hreserve, hindex, mapOf_len, hloop, hmap.keys, hmap.values, hputKeys, hputValues, hset,
        hmapLen, hkeySize, hvalueSize, hmapOps]
      simp [mapOf, Nat.add_assoc]
    · rw [coe_middle]
      exact .insert value grants hnewMem
  · refine ⟨.status .outOfMemory, mapOf ops keySize valueSize entries room junk, _, ↑entries, ?_,
      .insertRefused value hnewMem hexhausted, ⟨_, _, _, rfl, hjunk, harranged, rfl⟩⟩
    simp only [hreserve]
    rfl

theorem insert_map_answers (key : κ) (value : ν) (grants : Grants) :
    MapAnswers ops keySize valueSize ↑entries (.insert key value grants)
      (runMapCall map (.insert key value grants)) := by
  rcases rawHashmapFind_spec hmap hlawful harranged
    key with ⟨front, entry, back, rfl, hsame, hfind⟩ | ⟨hnew, hfind⟩
  · exact replace_answers entry.2 value hmap grants hjunk harranged hsame hfind
  · exact insertNew_answers hmap hlawful harranged hjunk value grants hnew hfind

theorem remove_map_answers (key : κ) :
    MapAnswers ops keySize valueSize ↑entries (.remove key) (runMapCall map (.remove key)) := by
  have hspec := rawHashmapFind_spec hmap hlawful harranged key
  subst hmap
  unfold runMapCall rawHashmapRemove
  rw [mapOf_ops]
  rcases hspec with ⟨front, entry, back, rfl, hsame, hfind⟩ | ⟨hmissing, hfind⟩
  · obtain ⟨stored, value⟩ := entry
    have hlen : (mapOf ops keySize valueSize (front ++ (stored, value) :: back) room junk).len -
        (front.length + 1) = back.length := by
      simp [mapOf]
      omega
    have hholed : Shifted ops keySize valueSize (front ++ (stored, value) :: back).length room
        front back { mapOf ops keySize valueSize (front ++ (stored, value) :: back) room junk with
          keys := withHole (front.map Prod.fst) (back.map Prod.fst) room
          values := withHole (front.map Prod.snd) (back.map Prod.snd) room } :=
      ⟨rfl, rfl, ⟨ops.hashOf stored, junk, hjunk, by simp [mapOf]⟩, rfl, rfl, rfl, rfl⟩
    -- the rows behind the place move down by one
    obtain ⟨map, hloop, hmap⟩ := forUp_rule (fun cursor map => moveRow map (cursor - 1) cursor) _ 1
      front back hholed fun _ _ _ _ h => moveRow_down h
    obtain ⟨hash, rest, hrest, hhashes⟩ := hmap.hashes
    obtain ⟨hmapLen, hkeySize, hvalueSize, hmapOps⟩ := hmap.others
    have hmapOf : { map with len := map.len - 1 } =
        mapOf ops keySize valueSize (front ++ back) (room + 1) (hash :: rest) := by
      have hpred : (front ++ (stored, value) :: back).length - 1 = (front ++ back).length := by
        simp
      rw [hmapLen, hmap.keys, hmap.values, hhashes, hkeySize, hvalueSize, hmapOps, hpred,
        map_nil, map_nil, ← packed_succ, ← packed_succ]
      rfl
    have hsublist : (front ++ back).Sublist (front ++ (stored, value) :: back) :=
      List.Sublist.append_left (sublist_cons_self _ _) front
    refine ⟨.moved .ok (some value), mapOf ops keySize valueSize (front ++ back) (room + 1)
      (hash :: rest), [.inl stored], ↑(front ++ back), ?_, ?_,
      ⟨_, _, _, rfl, by simp [hrest], ?_, rfl⟩⟩
    · dsimp only at hloop
      rw [mapOf_ops] at hloop
      simp only [hfind, mapOf_keys, mapOf_values, takeCell_column, hlen, hloop, bind, Except.bind]
      rw [← hmapOf]
    · rw [coe_middle]
      exact .remove value hsame
    · cases ops with
      | hashed hash eq | ordered compare => exact harranged.sublist (hsublist.map Prod.fst)
  · refine ⟨.moved .notFound none, _, [], ↑entries, ?_, .removeMissing hmissing,
      ⟨_, _, _, rfl, hjunk, harranged, rfl⟩⟩
    simp only [hfind, bind, Except.bind]

end

/-- Clearing drops the keys and values of the entries. -/
theorem clearRows_spec (ops : KeyOps κ) (keySize valueSize : ℕ+) (entries : List (κ × ν))
    (room : Nat) (junk : List (BitVec 64)) :
    ∃ dropped : List (κ ⊕ ν), (dropped : Multiset (κ ⊕ ν)) = heldItems ↑entries ∧
      clearRows entries.length (mapOf ops keySize valueSize entries room junk) =
        .ok (dropped, mapOf ops keySize valueSize [] (entries.length + room)
          ((entries.map fun entry => ops.hashOf entry.1) ++ junk)) := by
  induction entries using List.reverseRecOn generalizing room junk with
  | nil => exact ⟨[], rfl, by simp [clearRows]⟩
  | append_singleton front entry ih =>
    obtain ⟨key, value⟩ := entry
    obtain ⟨dropped, hdropped, hclear⟩ := ih (room + 1) (ops.hashOf key :: junk)
    have htakeKeys := takeCell_column Prod.fst front [] (key, value) room
    have htakeValues := takeCell_column Prod.snd front [] (key, value) room
    rw [map_nil, ← packed_succ] at htakeKeys htakeValues
    have hroom : front.length + (room + 1) = front.length + 1 + room := by omega
    rw [hroom] at hclear
    refine ⟨.inl key :: .inr value :: dropped, ?_, ?_⟩
    · rw [coe_middle, append_nil, heldItems_cons, ← hdropped]
      rfl
    · have hhashes : ((front ++ [(key, value)]).map fun entry => ops.hashOf entry.1) ++ junk =
          (front.map fun entry => ops.hashOf entry.1) ++ ops.hashOf key :: junk := by simp
      unfold mapOf at hclear ⊢
      rw [length_append, length_singleton, hhashes, clearRows]
      simp only [htakeKeys, htakeValues, hclear, bind, Except.bind]

theorem clear_map_answers (hmap : map = mapOf ops keySize valueSize entries room junk)
    (hjunk : junk.length = room) :
    MapAnswers ops keySize valueSize ↑entries .clear (runMapCall map .clear) := by
  subst hmap
  obtain ⟨dropped, hdropped, hclear⟩ := clearRows_spec ops keySize valueSize entries room junk
  refine ⟨_, _, dropped, 0, ?_, .clear hdropped, ⟨[], entries.length + room,
    (entries.map fun entry => ops.hashOf entry.1) ++ junk, rfl, by simp [hjunk], ?_, rfl⟩⟩
  · unfold runMapCall rawHashmapClear
    rw [mapOf_len, hclear]
    rfl
  · cases ops <;> exact List.Pairwise.nil

theorem rawHashmapFree_of_represents {map : RawMap κ ν}
    (h : Represents ops keySize valueSize map m) :
    ∃ dropped : List (κ ⊕ ν), (dropped : Multiset (κ ⊕ ν)) = heldItems m ∧
      rawHashmapFree map = .ok (.ok, dropped) := by
  obtain ⟨entries, room, junk, rfl, -, -, rfl⟩ := h
  obtain ⟨dropped, hdropped, hclear⟩ := clearRows_spec ops keySize valueSize entries room junk
  have hgiveUp : ∀ β : Type, giveUp (packed ([] : List β) (entries.length + room)) = .ok () :=
    fun _ => giveUp_replicate _
  refine ⟨dropped, hdropped, ?_⟩
  unfold rawHashmapFree rawHashmapClear
  rw [mapOf_len, hclear]
  simp only [mapOf, map_nil, hgiveUp, bind, Except.bind]

theorem rawMapKeysFrom_spec (hmap : map = mapOf ops keySize valueSize entries room junk)
    (front back : List (κ × ν)) (hentries : entries = front ++ back) :
    rawMapKeysFrom map back.length front.length = .ok (back.map Prod.fst) := by
  subst hmap
  induction back generalizing front with
  | nil => rfl
  | cons entry back ih =>
    have hread : readCell (mapOf ops keySize valueSize entries room junk).keys front.length =
        .ok entry.1 := readCell_column _ room hentries
    have hrest := ih (front ++ [entry]) (by simp [hentries])
    rw [length_append, length_singleton] at hrest
    rw [length_cons]
    unfold rawMapKeysFrom
    simp only [hread, hrest]
    rfl

/-- Every call on a map answers as the finite map it represents. -/
theorem runMapCall_answers (hlawful : ops.Lawful) {map : RawMap κ ν}
    (h : Represents ops keySize valueSize map m) (call : MapCall κ ν) :
    MapAnswers ops keySize valueSize m call (runMapCall map call) := by
  have hsame := h
  obtain ⟨entries, room, junk, hmap, hjunk, harranged, rfl⟩ := h
  cases call with
  | len =>
    subst hmap
    exact ⟨_, _, _, _, rfl, .len _, hsame⟩
  | insert key value grants =>
    exact insert_map_answers hmap hlawful harranged hjunk key value grants
  | get key =>
    rcases rawHashmapGet_spec hmap hlawful harranged
      key with ⟨entry, hmem, hkey, hget⟩ | ⟨hmissing, hget⟩
    · refine ⟨_, _, _, _, ?_, .get hmem hkey, hsame⟩
      unfold runMapCall
      simp only [hget, bind, Except.bind]
    · refine ⟨_, _, _, _, ?_, .getMissing hmissing, hsame⟩
      unfold runMapCall
      simp only [hget, bind, Except.bind]
  | contains key =>
    rcases rawHashmapGet_spec hmap hlawful harranged
      key with ⟨entry, hmem, hkey, hget⟩ | ⟨hmissing, hget⟩
    · refine ⟨.found true, _, _, _, ?_, .contains ⟨fun _ => ⟨entry, hmem, hkey⟩, fun _ => rfl⟩,
        hsame⟩
      unfold runMapCall
      simp only [hget, bind, Except.bind, Option.isSome_some]
    · refine ⟨.found false, _, _, _, ?_, .contains ⟨fun h => (Bool.false_ne_true h).elim, ?_⟩,
        hsame⟩
      · unfold runMapCall
        simp only [hget, bind, Except.bind, Option.isSome_none]
      · rintro ⟨entry, hmem, hkey⟩
        exact absurd hkey (hmissing entry hmem)
  | remove key => exact remove_map_answers hmap hlawful harranged hjunk key
  | clear => exact clear_map_answers hmap hjunk
  | iterate =>
    have hkeys := rawMapKeysFrom_spec hmap [] entries rfl
    refine ⟨.keys (entries.map Prod.fst), _, _, _, ?_, .iterate rfl harranged, hsame⟩
    unfold runMapCall
    rw [hmap, mapOf_len, ← hmap, ← length_nil (α := κ × ν), hkeys]
    rfl

end Operations

/-- Both generic containers: every sequence of calls on a new vector answers as the list,
and every sequence of calls on a new map with lawful keys as the finite map, whose keys
stay different, whatever the allocator answers and without a use of an element that is
gone; freeing them drops what is left; and what was passed in is what was dropped and
what was handed out, each element as often as it was passed in. -/
theorem containers_exact :
    (∀ (α : Type) (size : Nat) (calls : List (VecCall α)),
      ∃ answers vec dropped xs rest,
        runCalls runVecCall calls (rawVecNew size) = .ok (answers, vec, dropped) ∧
        SpecRun (ListStep size) [] calls answers dropped xs ∧
        rawVecFree vec = .ok (.ok, rest) ∧
        (calls.map VecCall.given).sum =
          ↑dropped + (answers.map VecAnswer.handed).sum + ↑rest) ∧
    (∀ (κ ν : Type) (ops : KeyOps κ) (keySize valueSize : ℕ+), ops.Lawful →
      ∀ calls : List (MapCall κ ν),
      ∃ answers map dropped m rest,
        runCalls runMapCall calls (rawMapNew ops keySize valueSize) = .ok (answers, map, dropped) ∧
        SpecRun (MapStep ops keySize valueSize) 0 calls answers dropped m ∧
        (∃ entries : List (κ × ν), ↑entries = m ∧ ops.Arranged (entries.map Prod.fst)) ∧
        rawHashmapFree map = .ok (.ok, rest) ∧
        (calls.map MapCall.given).sum =
          ↑dropped + (answers.map MapAnswer.handed).sum + ↑rest) := by
  constructor
  · intro α size calls
    obtain ⟨answers, vec, dropped, xs, hok, hspec, hholds⟩ :=
      runCalls_refines (R := Holds size) (fun _ _ call h => runVecCall_answers h call) calls
        (rawVecNew size) [] (holds_rawVecNew size)
    refine ⟨answers, vec, dropped, xs, xs.reverse, hok, hspec, rawVecFree_of_holds hholds, ?_⟩
    have hbalanced := hspec.balanced VecCall.given VecAnswer.handed
      (fun xs : List α => (xs : Multiset α)) (fun _ _ _ _ _ h => h.balanced)
    simpa using hbalanced
  · intro κ ν ops keySize valueSize hlawful calls
    obtain ⟨answers, map, dropped, m, hok, hspec, hrepresents⟩ :=
      runCalls_refines (R := Represents ops keySize valueSize)
        (fun _ _ call h => runMapCall_answers hlawful h call) calls
        (rawMapNew ops keySize valueSize) 0 (represents_rawMapNew ops keySize valueSize)
    obtain ⟨rest, hrest, hfree⟩ := rawHashmapFree_of_represents hrepresents
    obtain ⟨entries, room, junk, -, -, harranged, hentries⟩ := hrepresents
    refine ⟨answers, map, dropped, m, rest, hok, hspec, ⟨entries, hentries, harranged⟩, hfree, ?_⟩
    have hbalanced := hspec.balanced MapCall.given MapAnswer.handed
      heldItems (fun _ _ _ _ _ h => h.balanced)
    rw [hrest]
    simpa [heldItems] using hbalanced

/-- An ordered map with integer keys after two insertions and a removal. -/
theorem containers_exact_integer_keys :
    (KeyOps.ordered fun a b : Int => a - b).Lawful ∧
      ∃ answers map dropped m rest,
        runCalls runMapCall
          [.insert 3 true ⟨true, true, true⟩, .insert 1 false ⟨true, true, true⟩, .remove 3]
          (rawMapNew (.ordered fun a b : Int => a - b) 8 1) = .ok (answers, map, dropped) ∧
        SpecRun (MapStep (.ordered fun a b : Int => a - b) 8 1) 0
          [.insert 3 true ⟨true, true, true⟩, .insert 1 false ⟨true, true, true⟩, .remove 3]
          answers dropped m ∧
        rawHashmapFree map = .ok (.ok, rest) := by
  have hlawful : (KeyOps.ordered fun a b : Int => a - b).Lawful := by
    constructor
    · intro a b
      change a - b < 0 ↔ 0 < b - a
      omega
    · intro a b c
      change a - b ≤ 0 → b - c ≤ 0 → a - c ≤ 0
      omega
  obtain ⟨answers, map, dropped, m, rest, hok, hspec, -, hfree, -⟩ :=
    containers_exact.2 Int Bool (.ordered fun a b => a - b) 8 1 hlawful
      [.insert 3 true ⟨true, true, true⟩, .insert 1 false ⟨true, true, true⟩, .remove 3]
  exact ⟨hlawful, answers, map, dropped, m, rest, hok, hspec, hfree⟩

end Sengoo.Stdlib
