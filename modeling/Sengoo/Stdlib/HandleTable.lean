import Sengoo.Generational

/-!
The two tables of the C runtime that give out integer handles: the opaque handles
of `runtime.c` and the string slots of `runtime_string.c`. Both keep slots with a
pointer, a 32-bit generation and a flag, and pack the generation above the position
into a signed 64-bit handle.

They are generational tables, except that a handle whose generation needs the sign
bit is negative and is turned away by the decoders.
-/

namespace Sengoo.Stdlib

open Generational History List

/-- A slot of either table; the object is the pointer, absent when it is null. -/
abbrev Slots (α : Type) := List (Slot (BitVec 32) α)

variable {α : Type}

def bumpGeneration (generation : BitVec 32) : BitVec 32 :=
  if generation + 1 = 0 then 1 else generation + 1

def packHandle (generation : BitVec 32) (index : Nat) : BitVec 64 :=
  generation.setWidth 64 <<< 32 ||| BitVec.ofNat 64 (index + 1)

/-- The common body of both allocators: the first slot that is not alive, or a new
zeroed one, is taken. -/
def takeSlot (object : α) (slots : Slots α) : BitVec 64 × Slots α :=
  let index := slots.findIdx fun slot => !slot.alive
  let slots := if index = slots.length then slots ++ [⟨none, 0, false⟩] else slots
  let generation := bumpGeneration ((slots[index]?.map Slot.generation).getD 0)
  (packHandle generation index, slots.set index ⟨some object, generation, true⟩)

def opaqueHandleNew (ptr : Option α) (slots : Slots α) : BitVec 64 × Slots α :=
  match ptr with
  | none => (0, slots)
  | some ptr => takeSlot ptr slots

section Operations

variable (slots : Slots α) (handle : BitVec 64)

def opaqueHandleDecode : Option (Nat × BitVec 32) :=
  let rawIndex := handle.setWidth 32
  let generation := (handle >>> 32).setWidth 32
  if handle.toInt ≤ 0 then none
  else if rawIndex = 0 ∨ generation = 0 then none
  else if slots.length ≤ (rawIndex - 1).toNat then none
  else some ((rawIndex - 1).toNat, generation)

/-- The common end of both lookups: the slot has to be in use and of the generation
of the handle. -/
def readSlot (parts : Option (Nat × BitVec 32)) : Option α := do
  let (index, generation) ← parts
  let slot ← slots[index]?
  if slot.alive = false ∨ slot.generation ≠ generation then none else slot.object

def opaqueHandleGet : Option α :=
  readSlot slots (opaqueHandleDecode slots handle)

def opaqueHandleTake : Option α × Slots α :=
  match opaqueHandleDecode slots handle with
  | none => (none, slots)
  | some (index, generation) =>
    match slots[index]? with
    | none => (none, slots)
    | some slot =>
      if slot.alive = false ∨ slot.generation ≠ generation then (none, slots)
      else (slot.object, slots.set index { slot with object := none, alive := false })

def opaqueLiveHandleCount : Nat := slots.countP Slot.alive

def stringAllocHandle (owned : α) (slots : Slots α) : BitVec 64 × Slots α :=
  takeSlot owned slots

/-- The position is computed in 64 bits, so a zero lower half wraps around. -/
def stringDecodeHandle : Option (Nat × BitVec 32) :=
  let index := (handle &&& 0xFFFFFFFF) - 1
  if handle.toInt ≤ 0 then none
  else if slots.length ≤ index.toNat then none
  else some (index.toNat, (handle >>> 32).setWidth 32)

def stringResolve : Option α :=
  readSlot slots (stringDecodeHandle slots handle)

def statusOk : Int := 0

def statusInvalidHandle : Int := 3

def stringFreeStatus : Int × Slots α :=
  match stringDecodeHandle slots handle with
  | none => (-statusInvalidHandle, slots)
  | some (index, generation) =>
    match slots[index]? with
    | none => (-statusInvalidHandle, slots)
    | some slot =>
      if slot.generation ≠ generation then (-statusInvalidHandle, slots)
      else if slot.alive = false ∨ slot.object.isNone then (statusOk, slots)
      else (statusOk, slots.set index { slot with object := none, alive := false })

def stringLiveHandleCount : Nat :=
  slots.countP fun slot => slot.alive && slot.object.isSome

end Operations

/-- Which of the two tables is meant. -/
inductive TableKind where
  | opaqueHandles
  | stringSlots
  deriving DecidableEq

def lookupHandle : TableKind → Slots α → BitVec 64 → Option α
  | .opaqueHandles => opaqueHandleGet
  | .stringSlots => stringResolve

def liveHandleCount : TableKind → Slots α → Nat
  | .opaqueHandles => opaqueLiveHandleCount
  | .stringSlots => stringLiveHandleCount

def allocHandle : TableKind → α → Slots α → BitVec 64 × Slots α
  | .opaqueHandles, object, slots => opaqueHandleNew (some object) slots
  | .stringSlots, object, slots => stringAllocHandle object slots

def releaseHandle : TableKind → Slots α → BitVec 64 → Slots α
  | .opaqueHandles, slots, handle => (opaqueHandleTake slots handle).2
  | .stringSlots, slots, handle => (stringFreeStatus slots handle).2

/-- The most slots that are in use at once. -/
def slotLimit : Nat := 2 ^ 31

/-- The calls on a table. A release is logged with the object the handle stood for. -/
inductive TableStep (kind : TableKind) : Slots α → Event (BitVec 64) α → Slots α → Prop
  | alloc {slots : Slots α} (object : α) (hroom : slots.countP Slot.alive < slotLimit) :
      TableStep kind slots (.alloc object (allocHandle kind object slots).1)
        (allocHandle kind object slots).2
  | lookup {slots : Slots α} (handle : BitVec 64) :
      TableStep kind slots (.lookup handle (lookupHandle kind slots handle)) slots
  | release {slots : Slots α} (handle : BitVec 64) :
      TableStep kind slots (.release handle (lookupHandle kind slots handle))
        (releaseHandle kind slots handle)

variable {index : Nat}

section Packing

variable (generation : BitVec 32)

theorem toNat_packHandle (h : index < slotLimit) :
    (packHandle generation index).toNat = generation.toNat * 2 ^ 32 + (index + 1) := by
  unfold slotLimit at h
  unfold packHandle
  rw [BitVec.toNat_or, BitVec.toNat_shiftLeft, BitVec.toNat_setWidth, BitVec.toNat_ofNat,
    Nat.mod_eq_of_lt (a := generation.toNat) (by omega), Nat.shiftLeft_eq,
    Nat.mod_eq_of_lt (a := generation.toNat * 2 ^ 32) (by omega),
    Nat.mod_eq_of_lt (a := index + 1) (by omega), ← Nat.shiftLeft_eq,
    ← Nat.shiftLeft_add_eq_or_of_lt (by omega)]

theorem toNat_high (handle : BitVec 64) :
    ((handle >>> 32).setWidth 32).toNat = handle.toNat / 2 ^ 32 := by
  rw [BitVec.toNat_setWidth, BitVec.toNat_ushiftRight]
  omega

/-- The parts of a handle determine it. -/
theorem packHandle_eq_iff {generation : BitVec 32} (h : index < slotLimit)
    (handle : BitVec 64) :
    packHandle generation index = handle ↔
      handle.toNat % 2 ^ 32 = index + 1 ∧ (handle >>> 32).setWidth 32 = generation := by
  have hindex := h
  unfold slotLimit at hindex
  rw [← BitVec.toNat_inj, ← BitVec.toNat_inj, toNat_packHandle generation h, toNat_high]
  omega

/-- A handle is positive as long as its generation leaves the sign bit alone. -/
theorem packHandle_pos_iff (h : index < slotLimit) :
    0 < (packHandle generation index).toInt ↔ generation.toNat < 2 ^ 31 := by
  have hnat := toNat_packHandle generation h
  have hindex := h
  unfold slotLimit at hindex
  rw [BitVec.toInt_eq_toNat_cond]
  split <;> omega

/-- The tables as generational tables. -/
def scheme : Scheme (BitVec 32) (BitVec 64) where
  zero := 0
  bump := bumpGeneration
  pack := packHandle
  slotOf := fun handle => handle.toNat % 2 ^ 32 - 1
  usable := fun handle => decide (0 < handle.toInt)
  limit := slotLimit
  slotOf_pack := by
    intro generation index h
    have hparts := (packHandle_eq_iff h (packHandle generation index)).mp rfl
    omega
  pack_injective := by
    intro generation generation' index h heq
    have hparts := (packHandle_eq_iff h (packHandle generation' index)).mp heq
    have hparts' := (packHandle_eq_iff h (packHandle generation' index)).mp rfl
    exact hparts.2.symm.trans hparts'.2

theorem toNat_bumpGeneration :
    (bumpGeneration generation).toNat = generation.toNat % (2 ^ 32 - 1) + 1 := by
  unfold bumpGeneration
  have hsucc : (generation + 1).toNat = (generation.toNat + 1) % 2 ^ 32 := by
    rfl
  by_cases h : generation + 1 = 0
  · have hzero : (generation.toNat + 1) % 2 ^ 32 = 0 := by
      rw [← hsucc, h]
      rfl
    rw [if_pos h]
    change 1 = _
    omega
  · rw [if_neg h]
    have hne : (generation.toNat + 1) % 2 ^ 32 ≠ 0 := by
      exact fun hzero => h (BitVec.eq_of_toNat_eq hzero)
    omega

theorem bumpGeneration_ne_zero : bumpGeneration generation ≠ 0 := by
  intro h
  have hnat := toNat_bumpGeneration generation
  rw [h] at hnat
  change 0 = _ at hnat
  omega

theorem toNat_iterate_bumpGeneration (k : Nat) :
    (bumpGeneration^[k] (bumpGeneration generation)).toNat =
      (generation.toNat + k) % (2 ^ 32 - 1) + 1 := by
  induction k with
  | zero => exact toNat_bumpGeneration generation
  | succ k ih =>
    rw [Function.iterate_succ_apply', toNat_bumpGeneration]
    omega

/-- The generations come round after all values but zero were passed. -/
theorem bumpGeneration_period (k : Nat) (hpos : 0 < k)
    (hlt : k < 2 ^ 32 - 1) :
    bumpGeneration^[k] (bumpGeneration generation) ≠ bumpGeneration generation := by
  intro h
  have hnat := toNat_iterate_bumpGeneration generation k
  have hnat' := toNat_bumpGeneration generation
  rw [h] at hnat
  omega

end Packing

section Refinement

/-- A slot in use was taken before and has its object. -/
def WellFormed (slots : Slots α) : Prop :=
  ∀ slot ∈ slots, slot.alive = true → slot.generation ≠ 0 ∧ slot.object.isSome = true

/-- What a decoder answers: the parts of a positive handle whose slot exists. -/
structure Decodes (slots : Slots α) (handle : BitVec 64) (parts : Option (Nat × BitVec 32)) :
    Prop where
  sound : ∀ {index generation}, parts = some (index, generation) →
    0 < handle.toInt ∧ index < slots.length ∧ packHandle generation index = handle
  complete : ∀ {index generation}, 0 < handle.toInt → index < slots.length → generation ≠ 0 →
    packHandle generation index = handle → parts = some (index, generation)

variable {slots : Slots α} {handle : BitVec 64}

theorem decodes_opaqueHandleDecode (hlength : slots.length ≤ slotLimit) (handle : BitVec 64) :
    Decodes slots handle (opaqueHandleDecode slots handle) := by
  have hlow := BitVec.toNat_setWidth 32 handle
  have hpred : handle.setWidth 32 ≠ 0 →
      ((handle.setWidth 32) - 1).toNat + 1 = handle.toNat % 2 ^ 32 := by
    intro hne
    have hpos : (handle.setWidth 32).toNat ≠ 0 := fun h => hne (BitVec.eq_of_toNat_eq h)
    have hle : 1 ≤ handle.setWidth 32 := by
      rw [BitVec.le_def]
      change 1 ≤ _
      omega
    rw [BitVec.toNat_sub_of_le hle]
    change _ - 1 + 1 = _
    omega
  constructor
  · intro index generation h
    simp only [opaqueHandleDecode] at h
    split_ifs at h with hpos hzero hbound
    obtain ⟨rfl, rfl⟩ := Prod.mk.inj (Option.some.inj h)
    rw [not_or] at hzero
    exact ⟨by omega, by omega, (packHandle_eq_iff (by omega) handle).mpr ⟨(hpred hzero.1).symm, rfl⟩⟩
  · intro index generation hpos hbound hgeneration hpack
    obtain ⟨hindex, rfl⟩ := (packHandle_eq_iff (by omega) handle).mp hpack
    have hne : handle.setWidth 32 ≠ 0 := by
      intro h
      rw [h] at hlow
      change 0 = _ at hlow
      omega
    have hraw : ((handle.setWidth 32) - 1).toNat = index := by
      have hraw := hpred hne
      omega
    simp only [opaqueHandleDecode, hraw]
    rw [if_neg (by omega), if_neg (not_or.mpr ⟨hne, hgeneration⟩), if_neg (by omega)]

theorem decodes_stringDecodeHandle (hlength : slots.length ≤ slotLimit) (handle : BitVec 64) :
    Decodes slots handle (stringDecodeHandle slots handle) := by
  have hlimit : slotLimit = 2 ^ 31 := rfl
  have hmask : (handle &&& 0xFFFFFFFF).toNat = handle.toNat % 2 ^ 32 := by
    exact Nat.and_two_pow_sub_one_eq_mod handle.toNat 32
  have hindex : ((handle &&& 0xFFFFFFFF) - 1).toNat =
      (2 ^ 64 - 1 + handle.toNat % 2 ^ 32) % 2 ^ 64 := by
    rw [BitVec.toNat_sub, hmask]
    rfl
  constructor
  · intro index generation h
    simp only [stringDecodeHandle] at h
    split_ifs at h with hpos hbound
    obtain ⟨rfl, rfl⟩ := Prod.mk.inj (Option.some.inj h)
    refine ⟨by omega, by omega, (packHandle_eq_iff (by omega) handle).mpr ⟨?_, rfl⟩⟩
    omega
  · intro index generation hpos hbound _ hpack
    obtain ⟨hlow, rfl⟩ := (packHandle_eq_iff (by omega) handle).mp hpack
    have hraw : ((handle &&& 0xFFFFFFFF) - 1).toNat = index := by omega
    simp only [stringDecodeHandle, hraw]
    rw [if_neg (by omega), if_neg (by omega)]

theorem takeSlot_eq_claim (object : α) (slots : Slots α) :
    takeSlot object slots = claim scheme object slots := by
  have hle := firstFree_le slots
  unfold takeSlot claim taken nextGeneration
  by_cases hlt : firstFree slots < slots.length
  · have hne : ¬ slots.findIdx (fun slot => !slot.alive) = slots.length := Nat.ne_of_lt hlt
    simp only [if_neg hne, if_pos hlt]
    rfl
  · have heq : slots.findIdx (fun slot => !slot.alive) = slots.length :=
      Nat.le_antisymm hle (Nat.le_of_not_lt hlt)
    simp only [firstFree, heq]
    simp [scheme]

theorem allocHandle_eq_claim (kind : TableKind) (object : α) (slots : Slots α) :
    allocHandle kind object slots = claim scheme object slots := by
  cases kind <;> exact takeSlot_eq_claim object slots

theorem readSlot_eq_some_iff {parts : Option (Nat × BitVec 32)} {object : α} :
    readSlot slots parts = some object ↔ ∃ index generation slot,
      parts = some (index, generation) ∧ slots[index]? = some slot ∧ slot.alive = true ∧
        slot.generation = generation ∧ slot.object = some object := by
  rcases parts with _ | ⟨index, generation⟩
  · simp [readSlot]
  cases hat : slots[index]? with
  | none => simp [readSlot, hat]
  | some slot =>
    rcases eq_or_ne generation slot.generation with rfl | hne
    · cases halive : slot.alive <;> simp [readSlot, hat]
    · simp [readSlot, hat, hne, hne.symm]

theorem readSlot_eq_some_iff_resolves (hwf : WellFormed slots)
    {parts : Option (Nat × BitVec 32)} (hdecodes : Decodes slots handle parts) (object : α) :
    readSlot slots parts = some object ↔ Resolves scheme slots handle object := by
  rw [readSlot_eq_some_iff]
  constructor
  · rintro ⟨index, generation, slot, hparts, hat, halive, rfl, hobject⟩
    obtain ⟨hpos, -, hpack⟩ := hdecodes.sound hparts
    exact ⟨decide_eq_true hpos, index, slot, hat, halive, hobject, hpack⟩
  · rintro ⟨husable, index, slot, hat, halive, hobject, hpack⟩
    refine ⟨index, slot.generation, slot, ?_, hat, halive, rfl, hobject⟩
    exact hdecodes.complete (of_decide_eq_true husable) (List.getElem?_eq_some_iff.mp hat).1
      (hwf slot (List.mem_of_getElem? hat) halive).1 hpack

def decodeHandle : TableKind → Slots α → BitVec 64 → Option (Nat × BitVec 32)
  | .opaqueHandles => opaqueHandleDecode
  | .stringSlots => stringDecodeHandle

section

variable (kind : TableKind)
include kind

theorem lookupHandle_eq (slots : Slots α) (handle : BitVec 64) :
    lookupHandle kind slots handle = readSlot slots (decodeHandle kind slots handle) := by
  cases kind <;> rfl

theorem decodes_decodeHandle (hlength : slots.length ≤ slotLimit) (handle : BitVec 64) :
    Decodes slots handle (decodeHandle kind slots handle) := by
  cases kind with
  | opaqueHandles => exact decodes_opaqueHandleDecode hlength handle
  | stringSlots => exact decodes_stringDecodeHandle hlength handle

/-- Both lookups find what the handle stands for. -/
theorem lookupHandle_eq_some_iff (hwf : WellFormed slots) (hlength : slots.length ≤ slotLimit)
    (handle : BitVec 64) (object : α) :
    lookupHandle kind slots handle = some object ↔ Resolves scheme slots handle object := by
  rw [lookupHandle_eq]
  exact readSlot_eq_some_iff_resolves hwf (decodes_decodeHandle kind hlength handle) object

/-- Both releases give up the slot whose object the lookup finds. -/
theorem releaseHandle_of_found {generation : BitVec 32} {slot : Slot (BitVec 32) α} {object : α}
    (hparts : decodeHandle kind slots handle = some (index, generation))
    (hat : slots[index]? = some slot) (halive : slot.alive = true)
    (hgeneration : slot.generation = generation) (hobject : slot.object = some object) :
    releaseHandle kind slots handle = slots.set index (freed slot) := by
  cases kind with
  | opaqueHandles =>
    change opaqueHandleDecode slots handle = _ at hparts
    simp [releaseHandle, opaqueHandleTake, hparts, hat, halive, hgeneration, freed]
  | stringSlots =>
    change stringDecodeHandle slots handle = _ at hparts
    simp [releaseHandle, stringFreeStatus, hparts, hat, halive, hgeneration, hobject, freed]

theorem releaseHandle_of_missing (hwf : WellFormed slots)
    (hmissing : lookupHandle kind slots handle = none) :
    releaseHandle kind slots handle = slots := by
  have hnone : ∀ index generation slot, decodeHandle kind slots handle = some (index, generation) →
      slots[index]? = some slot → ¬ (slot.alive = true ∧ slot.generation = generation) := by
    rintro index generation slot hparts hat ⟨halive, hgeneration⟩
    obtain ⟨object, hobject⟩ := Option.isSome_iff_exists.mp
      (hwf slot (List.mem_of_getElem? hat) halive).2
    rw [lookupHandle_eq, readSlot_eq_some_iff.mpr
      ⟨index, generation, slot, hparts, hat, halive, hgeneration, hobject⟩] at hmissing
    cases hmissing
  cases kind
  all_goals
    simp only [releaseHandle, opaqueHandleTake, stringFreeStatus]
    split
    · rfl
    · rename_i index generation hparts
      split
      · rfl
      · rename_i slot hat
        have hmiss := hnone index generation slot hparts hat
        split_ifs <;> first | rfl | exact absurd (by simp_all) hmiss

/-- Both live counts count the slots in use. -/
theorem liveHandleCount_eq (hwf : WellFormed slots) :
    liveHandleCount kind slots = liveCount slots := by
  cases kind with
  | opaqueHandles => rfl
  | stringSlots =>
    refine countP_congr fun slot hslot => ?_
    rw [Bool.and_eq_true]
    exact ⟨fun h => h.1, fun halive => ⟨halive, (hwf slot hslot halive).2⟩⟩

end

end Refinement

section Runs

variable {kind : TableKind} {slots slots' : Slots α} {events : List (Event (BitVec 64) α)}

variable {event : Event (BitVec 64) α}

/-- Every call on a table is a call on the generational table. -/
theorem TableStep.refines (hwf : WellFormed slots)
    (hlength : slots.length ≤ slotLimit) (hstep : TableStep kind slots event slots') :
    Step scheme slots event slots' := by
  cases hstep with
  | alloc object hroom =>
    rw [allocHandle_eq_claim]
    exact .alloc object hroom
  | lookup handle => exact .lookup fun object => lookupHandle_eq_some_iff kind hwf hlength handle object
  | release handle =>
    cases hfound : lookupHandle kind slots handle with
    | none =>
      rw [releaseHandle_of_missing kind hwf hfound]
      refine .miss fun object hresolves => ?_
      rw [(lookupHandle_eq_some_iff kind hwf hlength handle object).mpr hresolves] at hfound
      cases hfound
    | some object =>
      rw [lookupHandle_eq, readSlot_eq_some_iff] at hfound
      obtain ⟨index, generation, slot, hparts, hat, halive, rfl, hobject⟩ := hfound
      obtain ⟨hpos, -, hpack⟩ := (decodes_decodeHandle kind hlength handle).sound hparts
      rw [releaseHandle_of_found kind hparts hat halive rfl hobject]
      exact .release (decide_eq_true hpos) hat halive hobject hpack

/-- A property of slots that a taken slot and a freed slot have is kept. -/
theorem forall_slot_step {P : Slot (BitVec 32) α → Prop}
    (h : ∀ slot ∈ slots, P slot) (hstep : Step scheme slots event slots')
    (htaken : ∀ object handle, event = .alloc object handle → P (taken scheme object slots))
    (hfreed : ∀ slot, P slot → P (freed slot)) : ∀ slot ∈ slots', P slot := by
  cases hstep with
  | alloc object _ =>
    intro slot hslot
    obtain ⟨i, hat⟩ := getElem?_of_mem hslot
    rw [getElem?_claim] at hat
    by_cases hi : i = firstFree slots
    · rw [if_pos hi] at hat
      cases hat
      exact htaken object _ rfl
    · rw [if_neg hi] at hat
      exact h slot (List.mem_of_getElem? hat)
  | lookup _ | miss _ => exact h
  | release _ hat _ _ _ =>
    intro slot hslot
    rcases mem_or_eq_of_mem_set hslot with hslot | rfl
    · exact h slot hslot
    · exact hfreed _ (h _ (List.mem_of_getElem? hat))

theorem WellFormed.step (hwf : WellFormed slots)
    (hstep : Step scheme slots event slots') : WellFormed slots' := by
  refine forall_slot_step hwf hstep (fun object handle _ _ => ?_) (fun slot _ halive => ?_)
  · exact ⟨bumpGeneration_ne_zero _, rfl⟩
  · cases halive

/-- Runs of the tables are runs of the generational table. -/
theorem refines_of_run {events more : List (Event (BitVec 64) α)}
    (hwf : WellFormed slots) (hcounted : Counted scheme events slots)
    (hrun : Run (TableStep kind) slots more slots') :
    Run (Step scheme) slots more slots' ∧ WellFormed slots' ∧
      Counted scheme (events ++ more) slots' := by
  refine hrun.invariant (P := fun more slots' => Run (Step scheme) slots more slots' ∧
    WellFormed slots' ∧ Counted scheme (events ++ more) slots')
    ⟨.nil _, hwf, by simpa using hcounted⟩ ?_
  rintro more middle event last - ⟨hrun, hwf, hcounted⟩ hstep
  have hstep := hstep.refines hwf hcounted.length_le
  rw [← append_assoc]
  exact ⟨hrun.snoc hstep, hwf.step hstep, hcounted.step hstep⟩

theorem refines_of_initial_run (hrun : Run (TableStep kind) [] events slots) :
    Run (Step scheme) [] events slots ∧ WellFormed slots ∧ Counted scheme events slots := by
  have hwf : WellFormed ([] : Slots α) := fun slot hslot => by cases hslot
  exact refines_of_run hwf Counted.initial hrun

/-- The slot the next allocation takes has a generation to go before the sign bit. -/
def GenerationLeft (slots : Slots α) : Prop :=
  ∀ slot, slots[slots.findIdx fun slot => !slot.alive]? = some slot →
    slot.generation.toNat < 2 ^ 31 - 1

instance (slots : Slots α) : Decidable (GenerationLeft slots) := by
  unfold GenerationLeft
  cases slots[slots.findIdx fun slot => !slot.alive]? with
  | none => exact isTrue fun _ h => by cases h
  | some slot =>
    exact decidable_of_iff (slot.generation.toNat < 2 ^ 31 - 1)
      ⟨fun h _ heq => Option.some.inj heq ▸ h, fun h => h slot rfl⟩

theorem generationLeft_iff (slots : Slots α) :
    GenerationLeft slots ↔ (nextGeneration scheme slots).toNat < 2 ^ 31 - 1 := by
  unfold GenerationLeft nextGeneration firstFree
  cases slots[slots.findIdx fun slot => !slot.alive]? with
  | none =>
    have hzero : (0 : BitVec 32).toNat < 2 ^ 31 - 1 := by decide
    exact ⟨fun _ => hzero, fun _ _ h => by cases h⟩
  | some slot => exact ⟨fun h => h slot rfl, fun h _ heq => Option.some.inj heq ▸ h⟩

/-- A call that allocates only while there is a generation left. -/
def GuardedStep (kind : TableKind) (slots : Slots α) (event : Event (BitVec 64) α)
    (slots' : Slots α) : Prop :=
  TableStep kind slots event slots' ∧ ((allocated event).isSome = true → GenerationLeft slots)

/-- What the handles of a table owe their users, after the calls of a history. -/
structure HandlesSafe (kind : TableKind) (events : List (Event (BitVec 64) α))
    (slots : Slots α) : Prop where
  positive : ∀ object handle, .alloc object handle ∈ events → 0 < handle.toInt
  resolves : ∀ handle object,
    lookupHandle kind slots handle = some object ↔ (handle, object) ∈ live events
  distinct : ((live events).map Prod.fst).Nodup
  reused : ∀ issued object handle between later middle found,
    events = issued ++ .alloc object handle :: between ++ later →
    Run (TableStep kind) [] (issued ++ .alloc object handle :: between) middle →
    Run (TableStep kind) middle later slots → lookupHandle kind middle handle = none →
    lookupHandle kind slots handle = some found →
    2 ^ 32 - 1 ≤ uses scheme (scheme.slotOf handle) (between ++ later)
  count : liveHandleCount kind slots + releases events = allocations events

/-- In guarded runs no generation reaches the sign bit. -/
theorem generations_lt_of_guarded_run (hrun : Run (GuardedStep kind) [] events slots) :
    Run (TableStep kind) [] events slots ∧ ∀ slot ∈ slots, slot.generation.toNat < 2 ^ 31 := by
  refine hrun.invariant (P := fun events slots => Run (TableStep kind) [] events slots ∧
    ∀ slot ∈ slots, slot.generation.toNat < 2 ^ 31) ⟨.nil _, fun slot hslot => by cases hslot⟩ ?_
  rintro events slots event slots' - ⟨hrun, hlt⟩ ⟨hstep, hguard⟩
  obtain ⟨-, hwf, hcounted⟩ := refines_of_initial_run hrun
  refine ⟨hrun.snoc hstep, forall_slot_step hlt (hstep.refines hwf hcounted.length_le) ?_ ?_⟩
  · rintro object handle rfl
    have hleft := (generationLeft_iff slots).mp (hguard rfl)
    change (bumpGeneration (nextGeneration scheme slots)).toNat < _
    rw [toNat_bumpGeneration]
    omega
  · exact fun slot h => h

theorem nextGeneration_lt (hlt : ∀ slot ∈ slots, slot.generation.toNat < 2 ^ 31) :
    (nextGeneration scheme slots).toNat < 2 ^ 31 := by
  unfold nextGeneration
  cases hat : slots[firstFree slots]? with
  | none =>
    have hzero : (0 : BitVec 32).toNat < 2 ^ 31 := by decide
    exact hzero
  | some slot => exact hlt slot (List.mem_of_getElem? hat)

/-- An allocation gives out a positive handle exactly while there is a generation left. -/
theorem allocHandle_pos_iff (hlength : slots.length ≤ slotLimit)
    (hlt : ∀ slot ∈ slots, slot.generation.toNat < 2 ^ 31)
    (hroom : liveCount slots < slotLimit) (object : α) :
    0 < (allocHandle kind object slots).1.toInt ↔ GenerationLeft slots := by
  have hnext := nextGeneration_lt hlt
  rw [allocHandle_eq_claim, generationLeft_iff]
  change 0 < (packHandle (bumpGeneration (nextGeneration scheme slots)) (firstFree slots)).toInt ↔ _
  rw [packHandle_pos_iff _ (firstFree_lt_limit (S := scheme) hroom hlength), toNat_bumpGeneration]
  omega

/-- Guarded calls give out usable handles only. -/
theorem GuardedStep.usable
    (hrun : Run (GuardedStep kind) [] events slots) (hstep : GuardedStep kind slots event slots') :
    ∀ object handle, event = .alloc object handle → 0 < handle.toInt := by
  obtain ⟨hrun, hlt⟩ := generations_lt_of_guarded_run hrun
  obtain ⟨-, -, hcounted⟩ := refines_of_initial_run hrun
  intro object handle hevent
  obtain ⟨hstep, hguard⟩ := hstep
  cases hstep with
  | alloc new hroom =>
    cases hevent
    exact (allocHandle_pos_iff hcounted.length_le hlt hroom object).mpr (hguard rfl)
  | lookup _ | release _ => cases hevent

theorem usableRun_of_guarded_run (hrun : Run (GuardedStep kind) [] events slots) :
    Run (UsableStep (S := scheme)) [] events slots ∧
      ∀ object handle, .alloc object handle ∈ events → 0 < handle.toInt := by
  refine hrun.invariant (P := fun events slots => Run (UsableStep (S := scheme)) [] events slots ∧
    ∀ object handle, .alloc object handle ∈ events → 0 < handle.toInt)
    ⟨.nil _, fun _ _ h => by cases h⟩ ?_
  rintro events slots event slots' hguarded ⟨hrun, hpositive⟩ hstep
  have husable := hstep.usable hguarded
  obtain ⟨-, hwf, hcounted⟩ := refines_of_initial_run (generations_lt_of_guarded_run hguarded).1
  refine ⟨hrun.snoc ⟨hstep.1.refines hwf hcounted.length_le, ?_⟩, ?_⟩
  · exact fun object handle hevent => decide_eq_true (husable object handle hevent)
  · intro object handle hmem
    rcases mem_append.mp hmem with hmem | hmem
    · exact hpositive object handle hmem
    · exact husable object handle (mem_singleton.mp hmem).symm

/-- No table forgets a released handle before its generation has come round. -/
theorem uses_of_lookup_again {issued between later : List (Event (BitVec 64) α)} {object found : α}
    {handle : BitVec 64} {middle : Slots α}
    (hissued : Run (TableStep kind) [] (issued ++ .alloc object handle :: between) middle)
    (hlater : Run (TableStep kind) middle later slots)
    (hgone : lookupHandle kind middle handle = none)
    (hagain : lookupHandle kind slots handle = some found) :
    2 ^ 32 - 1 ≤ uses scheme (scheme.slotOf handle) (between ++ later) := by
  obtain ⟨hissued, hwf, hcounted⟩ := refines_of_initial_run hissued
  obtain ⟨hlater, hwf', hcounted'⟩ := refines_of_run hwf hcounted hlater
  refine reused_of_resolves (S := scheme) bumpGeneration_period hissued ?_ hlater
    ((lookupHandle_eq_some_iff kind hwf' hcounted'.length_le handle found).mp hagain)
  intro object hresolves
  rw [(lookupHandle_eq_some_iff kind hwf hcounted.length_le handle object).mpr hresolves] at hgone
  cases hgone

/-- Both tables are safe in every run that allocates only while the slot it takes has
a generation left below the sign bit, and the next allocation of such a run gives out
a positive handle only then. -/
theorem handlesSafe_while_generationLeft (kind : TableKind) {events : List (Event (BitVec 64) α)}
    {slots : Slots α} (hrun : Run (GuardedStep kind) [] events slots) :
    HandlesSafe kind events slots ∧ ∀ object, slots.countP Slot.alive < slotLimit →
      (0 < (allocHandle kind object slots).1.toInt ↔ GenerationLeft slots) := by
  obtain ⟨htable, hlt⟩ := generations_lt_of_guarded_run hrun
  obtain ⟨hstep, hwf, hcounted⟩ := refines_of_initial_run htable
  obtain ⟨husable, hpositive⟩ := usableRun_of_guarded_run hrun
  have hagrees := (agrees_of_run husable).2
  refine ⟨⟨hpositive, fun handle object => ?_, hagrees.nodup, ?_, ?_⟩, fun object hroom => ?_⟩
  · rw [lookupHandle_eq_some_iff kind hwf hcounted.length_le]
    exact hagrees.resolves_iff handle object
  · rintro issued object handle between later middle found - hissued hlater hgone hagain
    exact uses_of_lookup_again hissued hlater hgone hagain
  · rw [liveHandleCount_eq kind hwf]
    exact liveCount_add_releases hstep
  · exact allocHandle_pos_iff hcounted.length_le hlt hroom object

/-- Two allocations with a release between them on the table of opaque handles. -/
theorem handlesSafe_two_allocations :
    ∃ (events : List (Event (BitVec 64) Nat)) (slots : Slots Nat),
      live events = [(0x200000001, 8)] ∧ HandlesSafe .opaqueHandles events slots :=
  have hfirst : GuardedStep .opaqueHandles [] _ _ := ⟨.alloc 7 (by decide), fun _ => by decide⟩
  have hsecond : GuardedStep .opaqueHandles _ _ _ := ⟨.release 0x100000001, fun h => by cases h⟩
  have hthird : GuardedStep .opaqueHandles _ _ _ := ⟨.alloc 8 (by decide), fun _ => by decide⟩
  have hrun := (((Run.nil _).snoc hfirst).snoc hsecond).snoc hthird
  ⟨_, _, by decide, (handlesSafe_while_generationLeft .opaqueHandles hrun).1⟩

end Runs

section Overflow

/-- The table after one slot was taken and given up some number of times. -/
def cycled (k : Nat) : Slots Unit := if k = 0 then [] else [⟨none, BitVec.ofNat 32 k, false⟩]

def cycleTaken (k : Nat) : Slots Unit := [⟨some (), BitVec.ofNat 32 (k + 1), true⟩]

theorem bumpGeneration_ofNat {k : Nat} (hk : k < 2 ^ 31) :
    bumpGeneration (BitVec.ofNat 32 k) = BitVec.ofNat 32 (k + 1) := by
  apply BitVec.eq_of_toNat_eq
  rw [toNat_bumpGeneration, BitVec.toNat_ofNat, BitVec.toNat_ofNat]
  omega

variable (kind : TableKind)

theorem allocHandle_cycled {k : Nat} (hk : k < 2 ^ 31) :
    allocHandle kind () (cycled k) = (packHandle (BitVec.ofNat 32 (k + 1)) 0, cycleTaken k) := by
  have hbump := bumpGeneration_ofNat hk
  rw [allocHandle_eq_claim, cycleTaken, ← hbump]
  by_cases hzero : k = 0
  · subst hzero
    rfl
  · unfold cycled
    rw [if_neg hzero]
    rfl

theorem countP_alive_cycled (k : Nat) : (cycled k).countP Slot.alive < slotLimit := by
  have hlive : (cycled k).countP Slot.alive = 0 := by
    unfold cycled
    split_ifs <;> rfl
  rw [hlive]
  decide

theorem releaseHandle_cycleTaken {k : Nat} (hk : k + 1 < 2 ^ 31) :
    releaseHandle kind (cycleTaken k) (packHandle (BitVec.ofNat 32 (k + 1)) 0) =
      cycled (k + 1) := by
  have hnat : (BitVec.ofNat 32 (k + 1)).toNat = k + 1 := by
    rw [BitVec.toNat_ofNat]
    omega
  have hpos : 0 < (packHandle (BitVec.ofNat 32 (k + 1)) 0).toInt := by
    rw [packHandle_pos_iff _ (by decide), hnat]
    exact hk
  have hne : BitVec.ofNat 32 (k + 1) ≠ 0 := by
    intro h
    rw [h] at hnat
    change 0 = _ at hnat
    omega
  have hlength : (cycleTaken k).length ≤ slotLimit := by
    change 1 ≤ slotLimit
    decide
  have hparts : decodeHandle kind (cycleTaken k) (packHandle (BitVec.ofNat 32 (k + 1)) 0) =
      some (0, BitVec.ofNat 32 (k + 1)) :=
    (decodes_decodeHandle kind hlength _).complete hpos Nat.one_pos hne rfl
  rw [releaseHandle_of_found kind hparts rfl rfl rfl rfl]
  rfl

/-- A slot can be taken and given up as often as there are generations. -/
theorem exists_run_cycled (k : Nat) (hk : k < 2 ^ 31) :
    ∃ events, Run (TableStep kind) [] events (cycled k) := by
  induction k with
  | zero => exact ⟨[], .nil _⟩
  | succ k ih =>
    obtain ⟨events, hrun⟩ := ih (by omega)
    have halloc : TableStep kind _ _ _ := .alloc () (countP_alive_cycled k)
    have hrelease : TableStep kind (cycleTaken k) _ _ :=
      .release (packHandle (BitVec.ofNat 32 (k + 1)) 0)
    rw [allocHandle_cycled kind (by omega)] at halloc
    rw [releaseHandle_cycleTaken kind hk] at hrelease
    exact ⟨_, (hrun.snoc halloc).snoc hrelease⟩

/-- After a slot was used often enough, with no slot in use, the next allocation gives
out a negative handle that stands for nothing. -/
theorem exists_run_negative_handle :
    ∃ (events : List (Event (BitVec 64) Unit)) (handle : BitVec 64) (slots : Slots Unit),
      Run (TableStep kind) [] (events ++ [.alloc () handle]) slots ∧ handle.toInt < 0 ∧
        lookupHandle kind slots handle = none := by
  obtain ⟨events, hrun⟩ := exists_run_cycled kind (2 ^ 31 - 1) (by decide)
  have halloc : TableStep kind _ _ _ := .alloc () (countP_alive_cycled (2 ^ 31 - 1))
  rw [allocHandle_cycled kind (by decide)] at halloc
  refine ⟨events, _, _, hrun.snoc halloc, by decide +kernel, ?_⟩
  cases kind with
  | opaqueHandles | stringSlots => decide +kernel

theorem tables_give_out_negative_handle :
    (∃ (events : List (Event (BitVec 64) Unit)) (handle : BitVec 64) (slots : Slots Unit),
      Run (TableStep .opaqueHandles) [] (events ++ [.alloc () handle]) slots ∧
        handle.toInt < 0 ∧ lookupHandle .opaqueHandles slots handle = none) ∧
    (∃ (events : List (Event (BitVec 64) Unit)) (handle : BitVec 64) (slots : Slots Unit),
      Run (TableStep .stringSlots) [] (events ++ [.alloc () handle]) slots ∧
        handle.toInt < 0 ∧ lookupHandle .stringSlots slots handle = none) :=
  ⟨exists_run_negative_handle _, exists_run_negative_handle _⟩

end Overflow

end Sengoo.Stdlib
