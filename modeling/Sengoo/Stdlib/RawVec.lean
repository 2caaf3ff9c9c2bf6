import Mathlib.Data.PNat.Basic
import Sengoo.Cells

/-!
The generic vector of `runtime_collections.c`. It owns a buffer of cells that it
fills from the front; elements are relocated one by one with the move function of
their type when the buffer grows and when an insertion or a removal shifts them.

Every sequence of calls on a live vector answers as the list does, whatever the
allocator says, without ever touching an element that was moved away; and every
element passed in is dropped, handed out or still held, exactly once.
-/

namespace Sengoo.Stdlib

open Cells List

variable {α : Type}

/-- The status codes the containers answer with. -/
inductive Status where
  | ok
  | invalidArgument
  | notFound
  | outOfMemory
  deriving DecidableEq

def sizeMax : Nat := 2 ^ 64 - 1

/-- The doubling loop of both containers. -/
def growCapacity (minimum : Nat) (capacity : ℕ+) : Option ℕ+ :=
  if (capacity : Nat) < minimum then
    if sizeMax / 2 < (capacity : Nat) then none else growCapacity minimum (capacity * 2)
  else some capacity
termination_by minimum - (capacity : Nat)
decreasing_by
  have hpos := capacity.pos
  rw [PNat.mul_coe]
  change minimum - (capacity : Nat) * 2 < _
  omega

/-- Growing starts from the capacity there is, or from a first one. -/
def startCapacity (first : ℕ+) : Nat → ℕ+
  | 0 => first
  | capacity + 1 => capacity.succPNat

/-- The allocator gives no empty buffers; whether it has the bytes is up to it. -/
def alignedAllocBytes (granted : Bool) (bytes : Nat) : Bool := bytes != 0 && granted

/-- The buffer has a cell for every element the capacity allows. -/
structure RawVec (α : Type) where
  data : List (Option α)
  len : Nat
  size : Nat

def RawVec.capacity (vec : RawVec α) : Nat := vec.data.length

def rawVecNew (size : Nat) : RawVec α := ⟨[], 0, size⟩

def rawVecReserve (granted : Bool) (vec : RawVec α) (minimum : Nat) :
    Except Fault (Bool × RawVec α) :=
  if minimum ≤ vec.capacity then .ok (true, vec)
  else
    match growCapacity minimum (startCapacity 4 vec.capacity) with
    | none => .ok (false, vec)
    | some capacity =>
      if vec.size ≠ 0 ∧ sizeMax / vec.size < (capacity : Nat) then .ok (false, vec)
      else if alignedAllocBytes granted (capacity * vec.size) = false then .ok (false, vec)
      else do
        let (replacement, data) ← forUp
          (fun index (buffers : List (Option α) × List (Option α)) =>
            moveAcross buffers.1 buffers.2 index)
          0 vec.len (List.replicate capacity none, vec.data)
        giveUp data
        .ok (true, { vec with data := replacement })

def rawVecPush (granted : Bool) (vec : RawVec α) (value : α) : Except Fault (Status × RawVec α × List α) := do
  let (reserved, vec) ← rawVecReserve granted vec (vec.len + 1)
  if reserved = false then .ok (.outOfMemory, vec, [value])
  else do
    let data ← putCell vec.data vec.len value
    .ok (.ok, { vec with data := data, len := vec.len + 1 }, [])

def rawVecGet (vec : RawVec α) (index : Int) : Except Fault (Option α × RawVec α × List α) :=
  if index < 0 ∨ vec.len ≤ index.toNat then .ok (none, vec, [])
  else do
    let value ← readCell vec.data index.toNat
    .ok (some value, vec, [])

/-- Without a value the pointer passed in is the slot itself. -/
def rawVecSet (vec : RawVec α) (index : Int) (value : Option α) : Except Fault (Status × RawVec α × List α) :=
  if index < 0 ∨ vec.len ≤ index.toNat then .ok (.invalidArgument, vec, value.toList)
  else
    match value with
    | none => .ok (.ok, vec, [])
    | some value => do
        let (old, data) ← takeCell vec.data index.toNat
        let data ← putCell data index.toNat value
        .ok (.ok, { vec with data := data }, [old])

def rawVecInsert (granted : Bool) (vec : RawVec α) (index : Int) (value : α) :
    Except Fault (Status × RawVec α × List α) :=
  if index < 0 ∨ vec.len < index.toNat then .ok (.invalidArgument, vec, [value])
  else do
    let (reserved, vec) ← rawVecReserve granted vec (vec.len + 1)
    if reserved = false then .ok (.outOfMemory, vec, [value])
    else do
      let data ← forDown (fun cursor data => moveCell data cursor (cursor - 1)) index.toNat
        (vec.len - index.toNat) vec.data
      let data ← putCell data index.toNat value
      .ok (.ok, { vec with data := data, len := vec.len + 1 }, [])

def rawVecPop (vec : RawVec α) : Except Fault ((Status × Option α) × RawVec α × List α) :=
  if vec.len = 0 then .ok ((.notFound, none), vec, [])
  else do
    let (value, data) ← takeCell vec.data (vec.len - 1)
    .ok ((.ok, some value), { vec with data := data, len := vec.len - 1 }, [])

def rawVecRemove (vec : RawVec α) (index : Int) : Except Fault ((Status × Option α) × RawVec α × List α) :=
  if index < 0 ∨ vec.len ≤ index.toNat then .ok ((.notFound, none), vec, [])
  else do
    let (value, data) ← takeCell vec.data index.toNat
    let data ← forUp (fun cursor data => moveCell data (cursor - 1) cursor) (index.toNat + 1)
      (vec.len - (index.toNat + 1)) data
    .ok ((.ok, some value), { vec with data := data, len := vec.len - 1 }, [])

/-- Dropping from the back until nothing is left. -/
def clearCells : Nat → List (Option α) → Except Fault (List α × List (Option α))
  | 0, data => .ok ([], data)
  | len + 1, data => do
      let (value, data) ← takeCell data len
      let (dropped, data) ← clearCells len data
      .ok (value :: dropped, data)

def rawVecClear (vec : RawVec α) : Except Fault (Status × RawVec α × List α) := do
  let (dropped, data) ← clearCells vec.len vec.data
  .ok (.ok, { vec with data := data, len := 0 }, dropped)

/-- What freeing the vector drops. -/
def rawVecFree (vec : RawVec α) : Except Fault (Status × List α) := do
  let (_, vec, dropped) ← rawVecClear vec
  giveUp vec.data
  .ok (.ok, dropped)

/-- A call with what it passes in and, where it may allocate, the allocator's answer. -/
inductive VecCall (α : Type) where
  | len
  | push (value : α) (granted : Bool)
  | get (index : Int)
  | set (index : Int) (value : Option α)
  | insert (index : Int) (value : α) (granted : Bool)
  | pop
  | remove (index : Int)
  | clear

inductive VecAnswer (α : Type) where
  | length (len : Nat)
  | status (status : Status)
  | element (value : Option α)
  | moved (status : Status) (value : Option α)

def runVecCall (vec : RawVec α) : VecCall α → Except Fault (VecAnswer α × RawVec α × List α)
  | .len => .ok (.length vec.len, vec, [])
  | .push value granted => do
      let (status, vec, dropped) ← rawVecPush granted vec value
      .ok (.status status, vec, dropped)
  | .get index => do
      let (value, vec, dropped) ← rawVecGet vec index
      .ok (.element value, vec, dropped)
  | .set index value => do
      let (status, vec, dropped) ← rawVecSet vec index value
      .ok (.status status, vec, dropped)
  | .insert index value granted => do
      let (status, vec, dropped) ← rawVecInsert granted vec index value
      .ok (.status status, vec, dropped)
  | .pop => do
      let ((status, value), vec, dropped) ← rawVecPop vec
      .ok (.moved status value, vec, dropped)
  | .remove index => do
      let ((status, value), vec, dropped) ← rawVecRemove vec index
      .ok (.moved status value, vec, dropped)
  | .clear => do
      let (status, vec, dropped) ← rawVecClear vec
      .ok (.status status, vec, dropped)

/-- The vector has no room for one more element: the allocator refused, or the buffer
would not fit the address space. -/
def Exhausted (granted : Bool) (size len : Nat) : Prop :=
  granted = false ∨ size = 0 ∨ sizeMax < max 4 (2 * (len + 1)) * size

/-- The element at an index that may be out of range. -/
def elementAt (xs : List α) (index : Int) : Option α :=
  if index < 0 then none else xs[index.toNat]?

/-- What the calls do to the list, what they answer and what they drop. -/
inductive ListStep (size : Nat) : List α → VecCall α → VecAnswer α → List α → List α → Prop
  | len (xs : List α) : ListStep size xs .len (.length xs.length) [] xs
  | push (xs : List α) (a : α) (granted : Bool) :
      ListStep size xs (.push a granted) (.status .ok) [] (xs ++ [a])
  | pushRefused {xs : List α} {granted : Bool} (a : α)
      (hexhausted : Exhausted granted size xs.length) :
      ListStep size xs (.push a granted) (.status .outOfMemory) [a] xs
  | get (xs : List α) (index : Int) :
      ListStep size xs (.get index) (.element (elementAt xs index)) [] xs
  | set (front back : List α) (old a : α) :
      ListStep size (front ++ old :: back) (.set front.length (some a)) (.status .ok) [old]
        (front ++ a :: back)
  | setSelf {xs : List α} {index : Int} (h : (elementAt xs index).isSome = true) :
      ListStep size xs (.set index none) (.status .ok) [] xs
  | setOutside {xs : List α} {index : Int} (value : Option α) (h : elementAt xs index = none) :
      ListStep size xs (.set index value) (.status .invalidArgument) value.toList xs
  | insert (front back : List α) (a : α) (granted : Bool) :
      ListStep size (front ++ back) (.insert front.length a granted) (.status .ok) []
        (front ++ a :: back)
  | insertRefused {xs : List α} {granted : Bool} (index : Int) (a : α)
      (hexhausted : Exhausted granted size xs.length) :
      ListStep size xs (.insert index a granted) (.status .outOfMemory) [a] xs
  | insertOutside {xs : List α} {index : Int} (a : α) (granted : Bool)
      (h : index < 0 ∨ xs.length < index.toNat) :
      ListStep size xs (.insert index a granted) (.status .invalidArgument) [a] xs
  | pop (front : List α) (a : α) : ListStep size (front ++ [a]) .pop (.moved .ok (some a)) [] front
  | popEmpty : ListStep size [] .pop (.moved .notFound none) [] []
  | remove (front back : List α) (a : α) :
      ListStep size (front ++ a :: back) (.remove front.length) (.moved .ok (some a)) []
        (front ++ back)
  | removeOutside {xs : List α} {index : Int} (h : elementAt xs index = none) :
      ListStep size xs (.remove index) (.moved .notFound none) [] xs
  | clear (xs : List α) : ListStep size xs .clear (.status .ok) xs.reverse []

/-- The elements a call passes in. -/
def VecCall.given : VecCall α → Multiset α
  | .push value _ => {value}
  | .set _ value => (value.toList : Multiset α)
  | .insert _ value _ => {value}
  | _ => 0

/-- The elements an answer hands over to the caller. -/
def VecAnswer.handed : VecAnswer α → Multiset α
  | .moved _ value => (value.toList : Multiset α)
  | _ => 0

/-- Each step of the list accounts for every element. -/
theorem ListStep.balanced {size : Nat} {xs xs' dropped : List α} {call : VecCall α}
    {answer : VecAnswer α} (h : ListStep size xs call answer dropped xs') :
    call.given + (xs : Multiset α) = ↑dropped + answer.handed + (xs' : Multiset α) := by
  cases h with
  | len | pushRefused a _ | get _ | setSelf _ | setOutside _ _ | insertRefused _ _ _
  | insertOutside _ _ _ | popEmpty | removeOutside _ | clear =>
    simp [VecCall.given, VecAnswer.handed]
  | push a _ =>
    simp only [VecCall.given, VecAnswer.handed, ← Multiset.coe_add, Multiset.coe_nil,
      Multiset.coe_singleton]
    abel
  | set front back old a | pop a | remove front back a =>
    simp only [VecCall.given, VecAnswer.handed, ← Multiset.coe_add, ← Multiset.cons_coe,
      Option.toList, ← Multiset.singleton_add, Multiset.coe_nil]
    abel
  | insert front back a _ =>
    simp only [VecCall.given, VecAnswer.handed, ← Multiset.coe_add, ← Multiset.cons_coe,
      ← Multiset.singleton_add, Multiset.coe_nil]
    abel

section Growth

variable {minimum : Nat}

theorem sizeMax_lt_of_growCapacity {capacity : ℕ+}
    (h : growCapacity minimum capacity = none) : sizeMax < 2 * minimum := by
  fun_induction growCapacity minimum capacity with
  | case1 capacity hlt hbig =>
    omega
  | case2 capacity _ _ ih => exact ih h
  | case3 capacity _ => cases h

theorem growCapacity_bounds {capacity grown : ℕ+}
    (h : growCapacity minimum capacity = some grown) :
    minimum ≤ grown ∧ (grown = capacity ∨ (grown : Nat) < 2 * minimum) := by
  fun_induction growCapacity minimum capacity with
  | case1 capacity _ _ => cases h
  | case2 capacity hlt _ ih =>
    obtain ⟨hle, hgrown⟩ := ih h
    refine ⟨hle, Or.inr ?_⟩
    rcases hgrown with rfl | hgrown
    · rw [PNat.mul_coe]
      change (capacity : Nat) * 2 < _
      omega
    · exact hgrown
  | case3 capacity hge =>
    cases h
    exact ⟨Nat.le_of_not_lt hge, Or.inl rfl⟩

/-- A capacity that had to grow is small compared with what was asked for. -/
theorem growCapacity_le {first capacity : Nat} {hfirst : 0 < first}
    {grown : ℕ+} (h : growCapacity minimum (startCapacity ⟨first, hfirst⟩ capacity) = some grown)
    (hsmall : capacity < minimum) : minimum ≤ grown ∧ (grown : Nat) ≤ max first (2 * minimum) := by
  obtain ⟨hle, hgrown⟩ := growCapacity_bounds h
  refine ⟨hle, ?_⟩
  rcases hgrown with rfl | hgrown
  · cases capacity with
    | zero => exact Nat.le_max_left _ _
    | succ capacity =>
      change capacity + 1 ≤ _
      omega
  · omega

end Growth

section Operations

variable {size : Nat} {vec : RawVec α} {xs : List α}

/-- The vector holds the elements of the list at the front of its buffer. -/
structure Holds (size : Nat) (vec : RawVec α) (xs : List α) : Prop where
  data : ∃ room, vec.data = packed xs room
  len : vec.len = xs.length
  size : vec.size = size

theorem Holds.intro (room : Nat) : Holds size ⟨packed xs room, xs.length, size⟩ xs :=
  ⟨⟨room, rfl⟩, rfl, rfl⟩

theorem Holds.eq (h : Holds size vec xs) : ∃ room, vec = ⟨packed xs room, xs.length, size⟩ := by
  obtain ⟨data, len, vecSize⟩ := vec
  obtain ⟨⟨room, hdata⟩, hlen, hsize⟩ := h
  exact ⟨room, by cases hdata; cases hlen; cases hsize; rfl⟩

theorem holds_rawVecNew (size : Nat) : Holds size (rawVecNew size : RawVec α) [] :=
  ⟨⟨0, rfl⟩, rfl, rfl⟩

/-- Reserving one more cell: there is one, or nothing changed. -/
theorem rawVecReserve_spec (size : Nat) (granted : Bool) (xs : List α) (room : Nat) :
    (∃ room', rawVecReserve granted ⟨packed xs room, xs.length, size⟩ (xs.length + 1) =
      .ok (true, ⟨packed xs (room' + 1), xs.length, size⟩)) ∨
    (rawVecReserve granted ⟨packed xs room, xs.length, size⟩ (xs.length + 1) =
      .ok (false, ⟨packed xs room, xs.length, size⟩) ∧ Exhausted granted size xs.length) := by
  have hcapacity : (RawVec.capacity ⟨packed xs room, xs.length, size⟩) = xs.length + room := by
    simp [RawVec.capacity]
  unfold rawVecReserve
  rw [hcapacity]
  by_cases hroom : xs.length + 1 ≤ xs.length + room
  · refine Or.inl ⟨room - 1, ?_⟩
    rw [if_pos hroom, Nat.sub_add_cancel (by omega)]
  rw [if_neg hroom]
  cases hgrow : growCapacity (xs.length + 1) (startCapacity 4 (xs.length + room)) with
  | none =>
    refine Or.inr ⟨by simp only, ?_⟩
    have hbig := sizeMax_lt_of_growCapacity hgrow
    rcases Nat.eq_zero_or_pos size with hzero | hpos
    · exact Or.inr (Or.inl hzero)
    · refine Or.inr (Or.inr (Nat.lt_of_lt_of_le hbig ?_))
      exact (Nat.le_max_right 4 _).trans (Nat.le_mul_of_pos_right _ hpos)
  | some grown =>
    obtain ⟨hle, hmax⟩ := growCapacity_le hgrow (by omega)
    simp only
    by_cases hbig : size ≠ 0 ∧ sizeMax / size < (grown : Nat)
    · rw [if_pos hbig]
      refine Or.inr ⟨rfl, Or.inr (Or.inr ?_)⟩
      have hlt := (Nat.div_lt_iff_lt_mul (Nat.pos_of_ne_zero hbig.1)).mp hbig.2
      exact Nat.lt_of_lt_of_le hlt (Nat.mul_le_mul_right size hmax)
    rw [if_neg hbig]
    by_cases halloc : alignedAllocBytes granted (grown * size) = false
    · rw [if_pos halloc]
      refine Or.inr ⟨rfl, ?_⟩
      rcases Bool.and_eq_false_iff.mp halloc with hbytes | hgranted
      · have hzero : (grown : Nat) * size = 0 := by simpa using hbytes
        exact Or.inr (Or.inl ((Nat.mul_eq_zero.mp hzero).resolve_left grown.ne_zero))
      · exact Or.inl hgranted
    · rw [if_neg halloc]
      refine Or.inl ⟨grown - (xs.length + 1), ?_⟩
      have hroom' : (grown : Nat) = xs.length + (grown - (xs.length + 1) + 1) := by omega
      obtain ⟨_, hloop, rfl⟩ := forUp_rule
        (fun index (buffers : List (Option α) × List (Option α)) =>
          moveAcross buffers.1 buffers.2 index)
        (fun front back buffers => buffers = relocating front back room _) 0 [] xs
        (relocating_start xs room (grown - (xs.length + 1) + 1)).symm
        (fun front a back _ h => ⟨_, h ▸ moveAcross_relocating front back a room _ rfl, rfl⟩)
      rw [← hroom', relocating_end, length_nil] at hloop
      rw [hloop]
      change (do giveUp (List.replicate _ none); _) = _
      rw [giveUp_replicate]
      rfl

theorem elementAt_eq_none_iff (xs : List α) (index : Int) :
    elementAt xs index = none ↔ index < 0 ∨ xs.length ≤ index.toNat := by
  unfold elementAt
  by_cases hneg : index < 0
  · simp [hneg]
  · simp [hneg]

/-- An index in range splits the list there. -/
theorem exists_split_of_elementAt {xs : List α} {index : Int}
    (h : ¬ (index < 0 ∨ xs.length ≤ index.toNat)) :
    ∃ front a back, xs = front ++ a :: back ∧ index = front.length := by
  rw [not_or] at h
  have hlt : index.toNat < xs.length := Nat.lt_of_not_le h.2
  refine ⟨xs.take index.toNat, xs[index.toNat], xs.drop (index.toNat + 1), ?_, ?_⟩
  · rw [← drop_eq_getElem_cons hlt, take_append_drop]
  · rw [length_take]
    omega

/-- What one call leads to: an answer of the list, and the list after it held. -/
def Answers (size : Nat) (xs : List α) (call : VecCall α)
    (result : Except Fault (VecAnswer α × RawVec α × List α)) : Prop :=
  ∃ answer vec dropped xs', result = .ok (answer, vec, dropped) ∧
    ListStep size xs call answer dropped xs' ∧ Holds size vec xs'

section

variable (xs : List α)

section

variable (room : Nat)
include room

theorem push_answers (value : α) (granted : Bool) :
    Answers size xs (.push value granted)
      (runVecCall ⟨packed xs room, xs.length, size⟩ (.push value granted)) := by
  unfold runVecCall rawVecPush
  rcases rawVecReserve_spec size granted xs room with ⟨room', hok⟩ | ⟨hok, hexhausted⟩
  · have hput := putCell_withHole xs [] value room' rfl
    rw [← packed_succ] at hput
    refine ⟨_, _, _, _, ?_, .push xs value granted, Holds.intro room'⟩
    simp only [hok, hput, bind, Except.bind]
    simp
  · refine ⟨_, _, _, _, ?_, .pushRefused value hexhausted, Holds.intro room⟩
    simp only [hok]
    rfl

theorem get_answers (index : Int) :
    Answers size xs (.get index) (runVecCall ⟨packed xs room, xs.length, size⟩ (.get index)) := by
  unfold runVecCall rawVecGet
  refine ⟨_, _, _, _, ?_, .get xs index, Holds.intro room⟩
  by_cases hrange : index < 0 ∨ xs.length ≤ index.toNat
  · rw [(elementAt_eq_none_iff xs index).mpr hrange]
    simp only [if_pos hrange, bind, Except.bind]
  · have hlt : index.toNat < xs.length := Nat.lt_of_not_le (not_or.mp hrange).2
    have hread := readCell_packed room hlt
    have hat : elementAt xs index = some xs[index.toNat] := by
      simp [elementAt, (not_or.mp hrange).1]
    rw [hat]
    simp only [if_neg hrange, hread, bind, Except.bind]

theorem set_answers (index : Int) (value : Option α) :
    Answers size xs (.set index value)
      (runVecCall ⟨packed xs room, xs.length, size⟩ (.set index value)) := by
  unfold runVecCall rawVecSet
  by_cases hrange : index < 0 ∨ xs.length ≤ index.toNat
  · refine ⟨_, _, _, _, ?_, .setOutside value ((elementAt_eq_none_iff xs index).mpr hrange),
      Holds.intro room⟩
    simp only [if_pos hrange, bind, Except.bind]
  cases value with
  | none =>
    refine ⟨_, _, _, _, ?_, .setSelf ?_, Holds.intro room⟩
    · simp only [if_neg hrange, bind, Except.bind]
    · rw [Option.isSome_iff_ne_none]
      exact fun hnone => hrange ((elementAt_eq_none_iff xs index).mp hnone)
  | some value =>
    obtain ⟨front, old, back, rfl, rfl⟩ := exists_split_of_elementAt hrange
    have htake := takeCell_packed front back old room rfl
    have hput := putCell_withHole front back value room rfl
    refine ⟨_, ⟨packed (front ++ value :: back) room, (front ++ value :: back).length, size⟩,
      _, _, ?_, .set front back old value, Holds.intro _⟩
    simp only [if_neg hrange]
    simp only [Int.toNat_natCast, htake, hput, bind, Except.bind]
    simp

theorem insert_answers (index : Int) (value : α) (granted : Bool) :
    Answers size xs (.insert index value granted)
      (runVecCall ⟨packed xs room, xs.length, size⟩ (.insert index value granted)) := by
  unfold runVecCall rawVecInsert
  by_cases hrange : index < 0 ∨ xs.length < index.toNat
  · refine ⟨_, _, _, _, ?_, .insertOutside value granted hrange, Holds.intro room⟩
    simp only [if_pos hrange, bind, Except.bind]
  rcases rawVecReserve_spec size granted xs room with ⟨room', hok⟩ | ⟨hok, hexhausted⟩
  · have hbounds := not_or.mp hrange
    obtain ⟨front, back, rfl, rfl⟩ : ∃ front back, xs = front ++ back ∧ index = front.length := by
      refine ⟨_, _, (take_append_drop index.toNat xs).symm, ?_⟩
      rw [length_take]
      omega
    obtain ⟨_, hloop, rfl⟩ := forDown_rule (fun cursor data => moveCell data cursor (cursor - 1))
      (fun front back data => data = withHole front back room') front back []
      (packed_succ (front ++ back) room')
      (fun front a back _ h => ⟨_, h ▸ moveCell_hole_left front back a room' _ _ rfl rfl, rfl⟩)
    rw [append_nil] at hloop
    have hput := putCell_withHole front back value room' rfl
    have hback : (front ++ back).length - front.length = back.length := by simp
    refine ⟨_, ⟨packed (front ++ value :: back) room', (front ++ value :: back).length, size⟩,
      _, _, ?_, .insert front back value granted, Holds.intro _⟩
    simp only [if_neg hrange]
    simp only [Int.toNat_natCast, hok, hback, hloop, hput, bind, Except.bind]
    simp [Nat.add_assoc]
  · refine ⟨_, _, _, _, ?_, .insertRefused index value hexhausted, Holds.intro room⟩
    simp only [if_neg hrange, hok]
    rfl

theorem pop_answers : Answers size xs .pop (runVecCall ⟨packed xs room, xs.length, size⟩ .pop) := by
  unfold runVecCall rawVecPop
  rcases xs.eq_nil_or_concat' with rfl | ⟨front, a, rfl⟩
  · exact ⟨_, _, _, _, rfl, .popEmpty, Holds.intro room⟩
  · have htake := takeCell_packed front [] a room rfl
    rw [← packed_succ] at htake
    refine ⟨_, ⟨packed front (room + 1), front.length, size⟩, _, _, ?_, .pop front a, Holds.intro _⟩
    simp [htake, bind, Except.bind]

theorem remove_answers (index : Int) : Answers size xs (.remove index)
      (runVecCall ⟨packed xs room, xs.length, size⟩ (.remove index)) := by
  unfold runVecCall rawVecRemove
  by_cases hrange : index < 0 ∨ xs.length ≤ index.toNat
  · refine ⟨_, _, _, _, ?_, .removeOutside ((elementAt_eq_none_iff xs index).mpr hrange),
      Holds.intro room⟩
    simp only [if_pos hrange, bind, Except.bind]
  obtain ⟨front, a, back, rfl, rfl⟩ := exists_split_of_elementAt hrange
  have htake := takeCell_packed front back a room rfl
  obtain ⟨_, hloop, rfl⟩ := forUp_rule (fun cursor data => moveCell data (cursor - 1) cursor)
    (fun front back data => data = withHole front back room) 1 front back rfl
    (fun front a back _ h => ⟨_, h ▸ moveCell_hole_right front back a room _ _ rfl rfl, rfl⟩)
  rw [← packed_succ] at hloop
  have hcount : (front ++ a :: back).length - (front.length + 1) = back.length := by
    simp
    omega
  refine ⟨_, ⟨packed (front ++ back) (room + 1), (front ++ back).length, size⟩, _, _, ?_,
    .remove front back a, Holds.intro _⟩
  simp only [if_neg hrange]
  simp only [Int.toNat_natCast, hcount, htake, hloop, bind, Except.bind]
  simp

theorem clearCells_packed :
    clearCells xs.length (packed xs room) = .ok (xs.reverse, packed [] (xs.length + room)) := by
  induction xs using List.reverseRecOn generalizing room with
  | nil => simp [clearCells]
  | append_singleton front a ih =>
    have htake := takeCell_packed front [] a room rfl
    rw [← packed_succ] at htake
    have hroom : front.length + (room + 1) = front.length + 1 + room := by omega
    rw [length_append, length_singleton, reverse_append]
    unfold clearCells
    simp only [htake, ih, hroom, bind, Except.bind]
    rfl

theorem rawVecClear_packed : rawVecClear ⟨packed xs room, xs.length, size⟩ =
      .ok (.ok, ⟨packed [] (xs.length + room), 0, size⟩, xs.reverse) := by
  unfold rawVecClear
  simp only [clearCells_packed, bind, Except.bind]

theorem clear_answers :
    Answers size xs .clear (runVecCall ⟨packed xs room, xs.length, size⟩ .clear) := by
  unfold runVecCall
  refine ⟨_, ⟨packed [] (xs.length + room), 0, size⟩, _, _, ?_, .clear xs, Holds.intro _⟩
  simp only [rawVecClear_packed, bind, Except.bind]

end

end

theorem rawVecFree_of_holds (h : Holds size vec xs) : rawVecFree vec = .ok (.ok, xs.reverse) := by
  obtain ⟨room, rfl⟩ := h.eq
  unfold rawVecFree
  have hgiveUp : giveUp (packed ([] : List α) (xs.length + room)) = .ok () := giveUp_replicate _
  simp only [rawVecClear_packed, hgiveUp, bind, Except.bind]

/-- Every call on a vector answers as the list it holds. -/
theorem runVecCall_answers (h : Holds size vec xs) (call : VecCall α) :
    Answers size xs call (runVecCall vec call) := by
  obtain ⟨room, rfl⟩ := h.eq
  cases call with
  | len => exact ⟨_, _, _, _, rfl, .len xs, Holds.intro _⟩
  | push value granted => exact push_answers xs room value granted
  | get index => exact get_answers xs room index
  | set index value => exact set_answers xs room index value
  | insert index value granted => exact insert_answers xs room index value granted
  | pop => exact pop_answers xs room
  | remove index => exact remove_answers xs room index
  | clear => exact clear_answers xs room

end Operations

end Sengoo.Stdlib
