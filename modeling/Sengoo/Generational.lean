import Sengoo.History

/-!
Tables of reusable slots whose handles carry a generation. An allocation takes the
first free slot, or a new one behind the others, and moves its generation on; the
handle packs the generation and the position. A handle that is usable stands for
its slot as long as the slot is taken and has the generation of the handle.

The history of a run says which handles are live. As long as only usable handles
are given out, the table is that finite map; and a handle that was given up does
not come back before the generations of its slot have gone round.
-/

namespace Sengoo.Generational

open History List

structure Slot (γ α : Type) where
  object : Option α
  generation : γ
  alive : Bool

/-- How generations follow one another and how handles are made of them. Positions
below the limit can be read off a handle. -/
structure Scheme (γ η : Type) where
  zero : γ
  bump : γ → γ
  pack : γ → Nat → η
  slotOf : η → Nat
  usable : η → Bool
  limit : Nat
  slotOf_pack : ∀ g i, i < limit → slotOf (pack g i) = i
  pack_injective : ∀ g g' i, i < limit → pack g i = pack g' i → g = g'

/-- A call on the table with its answer; a release tells the object it gave up. -/
inductive Event (η α : Type) where
  | alloc (object : α) (handle : η)
  | lookup (handle : η) (found : Option α)
  | release (handle : η) (found : Option α)

section History

variable {η α : Type} [DecidableEq η]

def record (live : List (η × α)) : Event η α → List (η × α)
  | .alloc object handle => (handle, object) :: live
  | .lookup _ _ => live
  | .release handle _ => live.filter fun entry => entry.1 ≠ handle

/-- The handles given out and not given up, with their objects. -/
def live (events : List (Event η α)) : List (η × α) := events.foldl record []

def allocated : Event η α → Option η
  | .alloc _ handle => some handle
  | _ => none

/-- How often the slot at a position was taken. -/
def uses {γ : Type} (S : Scheme γ η) (i : Nat) (events : List (Event η α)) : Nat :=
  events.countP fun event => (allocated event).any fun handle => S.slotOf handle == i

def allocations (events : List (Event η α)) : Nat :=
  events.countP fun event => (allocated event).isSome

/-- A key that occurs once is filtered out once. -/
theorem length_filter_ne {entries : List (η × α)} (hnodup : (entries.map Prod.fst).Nodup)
    {handle : η} {object : α} (hmem : (handle, object) ∈ entries) :
    (entries.filter fun entry => entry.1 ≠ handle).length + 1 = entries.length := by
  have hone := hnodup.count (a := handle)
  rw [if_pos (mem_map_of_mem hmem), count, countP_map] at hone
  have hall := length_eq_countP_add_countP (l := entries) fun entry => entry.1 ≠ handle
  rw [hall, countP_eq_length_filter, ← hone]
  congr 2
  funext entry
  by_cases heq : entry.1 = handle <;> simp [heq]

def isRelease : Event η α → Bool
  | .release _ (some _) => true
  | _ => false

/-- The releases that gave up an object. -/
def releases (events : List (Event η α)) : Nat := events.countP isRelease

theorem live_append (events : List (Event η α)) (event : Event η α) :
    live (events ++ [event]) = record (live events) event := by
  simp [live]

end History

variable {γ η α : Type} (S : Scheme γ η)

def firstFree (slots : List (Slot γ α)) : Nat := slots.findIdx fun slot => !slot.alive

def liveCount (slots : List (Slot γ α)) : Nat := slots.countP Slot.alive

/-- The generation the next allocation starts from. -/
def nextGeneration (slots : List (Slot γ α)) : γ :=
  (slots[firstFree slots]?.map Slot.generation).getD S.zero

def taken (object : α) (slots : List (Slot γ α)) : Slot γ α :=
  ⟨some object, S.bump (nextGeneration S slots), true⟩

/-- Allocation: the handle and the table with the slot taken. -/
def claim (object : α) (slots : List (Slot γ α)) : η × List (Slot γ α) :=
  (S.pack (S.bump (nextGeneration S slots)) (firstFree slots),
    if firstFree slots < slots.length then slots.set (firstFree slots) (taken S object slots)
    else slots ++ [taken S object slots])

/-- The slot at this position is taken under the handle. -/
def Occupies (slots : List (Slot γ α)) (i : Nat) (handle : η) (object : α) : Prop :=
  ∃ slot, slots[i]? = some slot ∧ slot.alive = true ∧ slot.object = some object ∧
    S.pack slot.generation i = handle

def Resolves (slots : List (Slot γ α)) (handle : η) (object : α) : Prop :=
  S.usable handle = true ∧ ∃ i, Occupies S slots i handle object

def freed (slot : Slot γ α) : Slot γ α := { slot with object := none, alive := false }

/-- The calls on a table. The number of slots in use stays below the limit. -/
inductive Step : List (Slot γ α) → Event η α → List (Slot γ α) → Prop
  | alloc {slots : List (Slot γ α)} (object : α) (hroom : liveCount slots < S.limit) :
      Step slots (.alloc object (claim S object slots).1) (claim S object slots).2
  | lookup {slots : List (Slot γ α)} {handle : η} {found : Option α}
      (hfound : ∀ object, found = some object ↔ Resolves S slots handle object) :
      Step slots (.lookup handle found) slots
  | miss {slots : List (Slot γ α)} {handle : η}
      (hmiss : ∀ object, ¬ Resolves S slots handle object) :
      Step slots (.release handle none) slots
  | release {slots : List (Slot γ α)} {handle : η} {i : Nat} {object : α} {slot : Slot γ α}
      (husable : S.usable handle = true) (hat : slots[i]? = some slot) (halive : slot.alive = true)
      (hobject : slot.object = some object) (hpack : S.pack slot.generation i = handle) :
      Step slots (.release handle (some object)) (slots.set i (freed slot))

variable {slots slots' : List (Slot γ α)} {events more : List (Event η α)} {event : Event η α}
  {slot : Slot γ α} {object found : α} {handle : η} {i : Nat}

section Claim

variable {S}

theorem firstFree_le (slots : List (Slot γ α)) : firstFree slots ≤ slots.length :=
  findIdx_le_length

theorem not_alive_firstFree (h : slots[firstFree slots]? = some slot) : slot.alive = false := by
  obtain ⟨hlt, hat⟩ := List.getElem?_eq_some_iff.mp h
  have hfree : (!(slots[firstFree slots]).alive) = true :=
    List.findIdx_getElem (p := fun slot : Slot γ α => !slot.alive) (w := hlt)
  rw [hat] at hfree
  simpa using hfree

/-- Without a free slot every slot is in use. -/
theorem liveCount_eq_length (h : firstFree slots = slots.length) :
    liveCount slots = slots.length := by
  refine countP_eq_length.mpr fun slot hslot => ?_
  have hnone := findIdx_eq_length.mp h slot hslot
  simpa using hnone

theorem getElem?_claim (i : Nat) : (claim S object slots).2[i]? =
      if i = firstFree slots then some (taken S object slots) else slots[i]? := by
  have hle := firstFree_le slots
  unfold claim
  by_cases hlt : firstFree slots < slots.length
  · simp only [if_pos hlt, List.getElem?_set]
    by_cases hi : i = firstFree slots
    · subst hi
      simp
    · simp [hi, Ne.symm hi]
  · have heq : firstFree slots = slots.length := by omega
    simp only [if_neg hlt]
    rw [heq]
    rcases Nat.lt_trichotomy i slots.length with hi | rfl | hi
    · rw [getElem?_append_left hi, if_neg (by omega)]
    · simp
    · rw [getElem?_eq_none (by simp; omega), if_neg (by omega),
        getElem?_eq_none (by omega)]

theorem length_claim_le (hroom : liveCount slots < S.limit) (hlength : slots.length ≤ S.limit) :
    (claim S object slots).2.length ≤ S.limit := by
  unfold claim
  by_cases hlt : firstFree slots < slots.length
  · simp only [if_pos hlt, length_set]
    exact hlength
  · have heq : firstFree slots = slots.length := Nat.le_antisymm (firstFree_le slots) (by omega)
    rw [liveCount_eq_length heq] at hroom
    simp only [if_neg hlt, length_append, length_singleton]
    omega

theorem firstFree_lt_limit (hroom : liveCount slots < S.limit) (hlength : slots.length ≤ S.limit) :
    firstFree slots < S.limit := by
  rcases Nat.lt_or_ge (firstFree slots) slots.length with hlt | hge
  · omega
  · have heq : firstFree slots = slots.length := Nat.le_antisymm (firstFree_le slots) hge
    rw [liveCount_eq_length heq] at hroom
    omega

theorem liveCount_claim : liveCount (claim S object slots).2 = liveCount slots + 1 := by
  unfold claim liveCount
  by_cases hlt : firstFree slots < slots.length
  · have hfree : slots[firstFree slots].alive = false :=
      not_alive_firstFree (getElem?_eq_getElem hlt)
    simp only [if_pos hlt]
    rw [countP_set hlt]
    simp [hfree, taken]
  · simp [if_neg hlt, taken]

theorem occupies_claim : Occupies S (claim S object slots).2 i handle found ↔
      (i = firstFree slots ∧ handle = (claim S object slots).1 ∧ found = object) ∨
        Occupies S slots i handle found := by
  unfold Occupies
  rw [getElem?_claim]
  by_cases hi : i = firstFree slots
  · subst hi
    rw [if_pos rfl]
    constructor
    · rintro ⟨slot, hslot, -, hobject, rfl⟩
      cases hslot
      exact Or.inl ⟨rfl, rfl, (Option.some.inj hobject).symm⟩
    · rintro (⟨-, rfl, rfl⟩ | ⟨slot, hslot, halive, -⟩)
      · exact ⟨_, rfl, rfl, rfl, rfl⟩
      · rw [not_alive_firstFree hslot] at halive
        cases halive
  · rw [if_neg hi]
    constructor
    · exact Or.inr
    · rintro (⟨heq, -⟩ | h)
      · exact absurd heq hi
      · exact h

end Claim

section Free

variable {S}

theorem occupies_freed {j : Nat} :
    Occupies S (slots.set i (freed slot)) j handle found ↔
      j ≠ i ∧ Occupies S slots j handle found := by
  unfold Occupies
  rw [List.getElem?_set]
  by_cases hj : i = j
  · subst hj
    simp [freed]
  · simp [hj, Ne.symm hj]

theorem liveCount_freed (hat : slots[i]? = some slot) (halive : slot.alive = true) :
    liveCount (slots.set i (freed slot)) + 1 = liveCount slots := by
  obtain ⟨hlt, hget⟩ := List.getElem?_eq_some_iff.mp hat
  have hpos : 0 < slots.countP Slot.alive :=
    List.countP_pos_iff.mpr ⟨slot, List.mem_of_getElem? hat, halive⟩
  unfold liveCount
  rw [countP_set hlt, hget]
  simp only [halive, freed]
  simp
  omega

theorem generations_freed (hat : slots[i]? = some slot) :
    (slots.set i (freed slot)).map Slot.generation = slots.map Slot.generation := by
  obtain ⟨hlt, rfl⟩ := List.getElem?_eq_some_iff.mp hat
  have hsame := @set_getElem_self _ (slots.map Slot.generation) i (by simpa using hlt)
  rw [getElem_map] at hsame
  rw [map_set]
  exact hsame

end Free

section Generations

theorem uses_append (i : Nat) (events more : List (Event η α)) :
    uses S i (events ++ more) = uses S i events + uses S i more :=
  countP_append

theorem uses_alloc (hlimit : firstFree slots < S.limit) (object : α)
    (i : Nat) :
    uses S i [Event.alloc object (claim S object slots).1] =
      if firstFree slots = i then 1 else 0 := by
  have hslot : S.slotOf (claim S object slots).1 = firstFree slots := S.slotOf_pack _ _ hlimit
  simp [uses, allocated, hslot]

/-- What holds of the slots after any run: their generations tell how often they
were taken. -/
structure Counted (events : List (Event η α)) (slots : List (Slot γ α)) : Prop where
  length_le : slots.length ≤ S.limit
  generation : ∀ i slot, slots[i]? = some slot → slot.generation = S.bump^[uses S i events] S.zero
  unused : ∀ i, slots[i]? = none → uses S i events = 0

variable {S}

theorem Counted.initial : Counted S ([] : List (Event η α)) [] where
  length_le := Nat.zero_le _
  generation := fun _ _ h => by simp at h
  unused := fun _ _ => rfl

theorem Counted.nextGeneration_eq
    (h : Counted S events slots) :
    nextGeneration S slots = S.bump^[uses S (firstFree slots) events] S.zero := by
  unfold nextGeneration
  cases hat : slots[firstFree slots]? with
  | some slot => exact h.generation _ slot hat
  | none =>
    rw [h.unused _ hat]
    rfl

/-- A call that takes no slot, and leaves the generations alone, keeps the count. -/
theorem Counted.of_generations_eq (h : Counted S events slots) (hevent : allocated event = none)
    (hsame : slots'.map Slot.generation = slots.map Slot.generation) :
    Counted S (events ++ [event]) slots' := by
  have huses : ∀ i, uses S i (events ++ [event]) = uses S i events := by
    simp [uses, hevent]
  have hat : ∀ i : Nat, slots'[i]?.map Slot.generation = slots[i]?.map Slot.generation := by
    intro i
    rw [← getElem?_map, ← getElem?_map, hsame]
  refine ⟨?_, fun i slot' hslot' => ?_, fun i hnone => ?_⟩
  · have hlength := congrArg List.length hsame
    rw [length_map, length_map] at hlength
    exact hlength ▸ h.length_le
  · have hgeneration := hat i
    rw [hslot'] at hgeneration
    obtain ⟨slot, hslot, heq⟩ := Option.map_eq_some_iff.mp hgeneration.symm
    rw [huses, ← heq]
    exact h.generation i slot hslot
  · have hgeneration := hat i
    rw [hnone] at hgeneration
    rw [huses]
    exact h.unused i (Option.map_eq_none_iff.mp hgeneration.symm)

theorem Counted.step (h : Counted S events slots) (hstep : Step S slots event slots') :
    Counted S (events ++ [event]) slots' := by
  cases hstep with
  | alloc object hroom =>
    have hlimit := firstFree_lt_limit hroom h.length_le
    refine ⟨length_claim_le hroom h.length_le, fun i slot hat => ?_, fun i hnone => ?_⟩
    · rw [uses_append, uses_alloc S hlimit]
      rw [getElem?_claim] at hat
      by_cases hfree : i = firstFree slots
      · subst hfree
        rw [if_pos rfl] at hat ⊢
        cases hat
        rw [Function.iterate_succ_apply', ← h.nextGeneration_eq]
        rfl
      · rw [if_neg hfree] at hat
        rw [if_neg (Ne.symm hfree)]
        exact h.generation i slot hat
    · rw [uses_append, uses_alloc S hlimit]
      rw [getElem?_claim] at hnone
      by_cases hfree : i = firstFree slots
      · rw [if_pos hfree] at hnone
        cases hnone
      · rw [if_neg hfree] at hnone
        rw [if_neg (Ne.symm hfree), h.unused i hnone]
  | lookup _ | miss _ => exact h.of_generations_eq rfl rfl
  | release _ hat => exact h.of_generations_eq rfl (generations_freed hat)

theorem Counted.run
    (hrun : Run (Step S) [] events slots) : Counted S events slots :=
  hrun.invariant Counted.initial fun _ _ _ _ _ h hstep => h.step hstep

/-- The handle an allocation gives out tells how often the slot was taken before. -/
theorem Counted.claim_eq
    (h : Counted S events slots) (object : α) :
    (claim S object slots).1 =
      S.pack (S.bump^[uses S (firstFree slots) events + 1] S.zero) (firstFree slots) := by
  rw [Function.iterate_succ_apply', ← h.nextGeneration_eq]
  rfl

theorem Counted.slotOf_pack (h : Counted S events slots) (hat : slots[i]? = some slot) :
    S.slotOf (S.pack slot.generation i) = i :=
  S.slotOf_pack _ i (Nat.lt_of_lt_of_le (List.getElem?_eq_some_iff.mp hat).1 h.length_le)

/-- A live handle is the handle of one slot only. -/
theorem Counted.occupies_unique (h : Counted S events slots) {j : Nat} {object' : α}
    (hi : Occupies S slots i handle object) (hj : Occupies S slots j handle object') :
    i = j ∧ object = object' := by
  obtain ⟨slot, hati, -, hobject, hpack⟩ := hi
  obtain ⟨slot', hatj, -, hobject', hpack'⟩ := hj
  obtain rfl : i = j := by
    rw [← h.slotOf_pack hati, hpack, ← hpack', h.slotOf_pack hatj]
  rw [hati, Option.some.injEq] at hatj
  subst hatj
  rw [hobject, Option.some.injEq] at hobject'
  exact ⟨rfl, hobject'⟩

/-- An allocation does not give out the handle of a taken slot. -/
theorem Counted.claim_fresh
    (h : Counted S events slots) (hroom : liveCount slots < S.limit) (object : α) (i : Nat)
    (found : α) : ¬ Occupies S slots i (claim S object slots).1 found := by
  rintro ⟨slot, hat, halive, -, hpack⟩
  have hlimit := firstFree_lt_limit hroom h.length_le
  obtain rfl : i = firstFree slots := by
    rw [← h.slotOf_pack hat, hpack]
    exact S.slotOf_pack _ _ hlimit
  rw [not_alive_firstFree hat] at halive
  cases halive

end Generations

section Live

variable [DecidableEq η]

/-- The table and the history agree: the live handles are those under which slots
are taken. -/
structure Agrees (events : List (Event η α)) (slots : List (Slot γ α)) : Prop where
  live_iff : ∀ handle object, (handle, object) ∈ live events ↔ ∃ i, Occupies S slots i handle object
  usable : ∀ entry ∈ live events, S.usable entry.1 = true
  nodup : ((live events).map Prod.fst).Nodup
  count : liveCount slots = (live events).length

variable {S}

theorem Agrees.initial : Agrees S ([] : List (Event η α)) [] where
  live_iff := by simp [live, Occupies]
  usable := by simp [live]
  nodup := nodup_nil
  count := rfl

theorem Agrees.alloc (h : Agrees S events slots) (hcounted : Counted S events slots)
    (hroom : liveCount slots < S.limit) (husable : S.usable (claim S object slots).1 = true) :
    Agrees S (events ++ [.alloc object (claim S object slots).1]) (claim S object slots).2 := by
  have hlive : live (events ++ [.alloc object (claim S object slots).1]) =
      ((claim S object slots).1, object) :: live events := live_append _ _
  refine ⟨fun handle found => ?_, fun entry hentry => ?_, ?_, ?_⟩
  · rw [hlive, mem_cons, h.live_iff, Prod.mk.injEq]
    constructor
    · rintro (⟨rfl, rfl⟩ | ⟨i, hi⟩)
      · exact ⟨firstFree slots, occupies_claim.mpr (Or.inl ⟨rfl, rfl, rfl⟩)⟩
      · exact ⟨i, occupies_claim.mpr (Or.inr hi)⟩
    · rintro ⟨i, hi⟩
      rcases occupies_claim.mp hi with ⟨-, hhandle, hfound⟩ | hi
      · exact Or.inl ⟨hhandle, hfound⟩
      · exact Or.inr ⟨i, hi⟩
  · rw [hlive, mem_cons] at hentry
    rcases hentry with rfl | hentry
    · exact husable
    · exact h.usable entry hentry
  · rw [hlive, map_cons, nodup_cons]
    refine ⟨fun hmem => ?_, h.nodup⟩
    obtain ⟨⟨handle, found⟩, hentry, heq⟩ := mem_map.mp hmem
    obtain ⟨i, hi⟩ := (h.live_iff handle found).mp hentry
    exact hcounted.claim_fresh hroom object i found (heq ▸ hi)
  · rw [hlive, length_cons, ← h.count]
    exact liveCount_claim

/-- Giving up a handle that is not live changes nothing. -/
theorem Agrees.miss (h : Agrees S events slots)
    (hmiss : ∀ object, ¬ Resolves S slots handle object) :
    Agrees S (events ++ [.release handle none]) slots := by
  have hlive : live (events ++ [.release handle none]) = live events := by
    rw [live_append]
    refine filter_eq_self.mpr fun entry hentry => ?_
    rw [decide_eq_true_eq]
    rintro rfl
    exact hmiss entry.2 ⟨h.usable entry hentry, (h.live_iff entry.1 entry.2).mp hentry⟩
  exact ⟨hlive ▸ h.live_iff, hlive ▸ h.usable, hlive ▸ h.nodup, hlive ▸ h.count⟩

theorem Agrees.release (h : Agrees S events slots) (hcounted : Counted S events slots)
    (hat : slots[i]? = some slot) (halive : slot.alive = true)
    (hobject : slot.object = some object) :
    Agrees S (events ++ [.release (S.pack slot.generation i) (some object)])
      (slots.set i (freed slot)) := by
  have hlive : live (events ++ [.release (S.pack slot.generation i) (some object)]) =
      (live events).filter fun entry => entry.1 ≠ S.pack slot.generation i := live_append _ _
  have hself : Occupies S slots i (S.pack slot.generation i) object :=
    ⟨slot, hat, halive, hobject, rfl⟩
  refine ⟨fun handle found => ?_, fun entry hentry => ?_, ?_, ?_⟩
  · rw [hlive, mem_filter, decide_eq_true_eq, h.live_iff]
    simp only [occupies_freed]
    constructor
    · rintro ⟨⟨j, hj⟩, hne⟩
      refine ⟨j, ?_, hj⟩
      rintro rfl
      obtain ⟨other, hother, -, -, hpack⟩ := hj
      rw [hat, Option.some.injEq] at hother
      exact hne (hother ▸ hpack.symm)
    · rintro ⟨j, hne, hj⟩
      refine ⟨⟨j, hj⟩, ?_⟩
      rintro rfl
      exact hne (hcounted.occupies_unique hj hself).1
  · rw [hlive] at hentry
    exact h.usable entry (mem_of_mem_filter hentry)
  · rw [hlive]
    exact h.nodup.sublist (filter_sublist.map _)
  · rw [hlive]
    have hmem := (h.live_iff _ _).mpr ⟨i, hself⟩
    have hremoved := length_filter_ne h.nodup hmem
    have hfreed := liveCount_freed hat halive
    have hcount := h.count
    omega

/-- A call of a run that gives out usable handles only. -/
def UsableStep (slots : List (Slot γ α)) (event : Event η α) (slots' : List (Slot γ α)) : Prop :=
  Step S slots event slots' ∧ ∀ object handle, event = .alloc object handle → S.usable handle = true

theorem Agrees.step (h : Agrees S events slots) (hcounted : Counted S events slots)
    (hstep : UsableStep (S := S) slots event slots') : Agrees S (events ++ [event]) slots' := by
  obtain ⟨hstep, husable⟩ := hstep
  cases hstep with
  | alloc object hroom => exact h.alloc hcounted hroom (husable object _ rfl)
  | @lookup handle found =>
    have hlive : live (events ++ [.lookup handle found]) = live events := live_append _ _
    exact ⟨hlive ▸ h.live_iff, hlive ▸ h.usable, hlive ▸ h.nodup, hlive ▸ h.count⟩
  | miss hmiss => exact h.miss hmiss
  | release _ hat halive hobject hpack =>
    subst hpack
    exact h.release hcounted hat halive hobject

theorem agrees_of_run
    (hrun : Run (UsableStep (S := S)) [] events slots) :
    Counted S events slots ∧ Agrees S events slots := by
  refine hrun.invariant (P := fun events slots => Counted S events slots ∧ Agrees S events slots)
    ⟨Counted.initial, Agrees.initial⟩ ?_
  rintro events slots event slots' - ⟨hcounted, hagrees⟩ hstep
  exact ⟨hcounted.step hstep.1, hagrees.step hcounted hstep⟩

/-- A handle stands for an object exactly when it is live with that object. -/
theorem Agrees.resolves_iff
    (h : Agrees S events slots) (handle : η) (object : α) :
    Resolves S slots handle object ↔ (handle, object) ∈ live events := by
  rw [h.live_iff]
  constructor
  · exact fun hresolves => hresolves.2
  · intro hoccupies
    exact ⟨h.usable (handle, object) ((h.live_iff handle object).mpr hoccupies), hoccupies⟩

end Live

section Runs

variable {S}

/-- Along every run the slots in use are the allocations less the releases. -/
theorem liveCount_add_releases (hrun : Run (Step S) [] events slots) :
    liveCount slots + releases events = allocations events := by
  refine hrun.invariant (P := fun events slots =>
    liveCount slots + releases events = allocations events) rfl ?_
  intro events slots event slots' _ h hstep
  have hreleases : releases (events ++ [event]) = releases events + releases [event] :=
    countP_append
  have hallocations : allocations (events ++ [event]) = allocations events + allocations [event] :=
    countP_append
  rw [hreleases, hallocations]
  cases hstep with
  | alloc object _ =>
    rw [liveCount_claim]
    change liveCount slots + 1 + (releases events + 0) = allocations events + 1
    omega
  | lookup _ | miss _ => exact h
  | release _ hat halive _ _ =>
    have hfreed := liveCount_freed hat halive
    change _ + (releases events + 1) = allocations events + 0
    omega

/-- A free slot is taken again by an allocation only. -/
theorem Step.occupies (hstep : Step S slots event slots') (hlength : slots.length ≤ S.limit)
    (hunused : uses S i [event] = 0) (h : Occupies S slots' i handle object) :
    Occupies S slots i handle object := by
  cases hstep with
  | alloc new hroom =>
    rw [uses_alloc S (firstFree_lt_limit hroom hlength)] at hunused
    rcases occupies_claim.mp h with ⟨rfl, -⟩ | h
    · simp at hunused
    · exact h
  | lookup _ | miss _ => exact h
  | release => exact (occupies_freed.mp h).2

theorem Counted.occupies_of_run (hcounted : Counted S events slots)
    (hrun : Run (Step S) slots more slots')
    (hunused : uses S i more = 0) (h : Occupies S slots' i handle object) :
    Occupies S slots i handle object := by
  have hboth := hrun.invariant (P := fun more slots' =>
    Counted S (events ++ more) slots' ∧
      (uses S i more = 0 → Occupies S slots' i handle object → Occupies S slots i handle object))
    ⟨by simpa using hcounted, fun _ h => h⟩ (by
      rintro more middle event last - ⟨hcounted, hoccupies⟩ hstep
      rw [← append_assoc]
      refine ⟨hcounted.step hstep, fun hunused h => ?_⟩
      rw [uses_append, Nat.add_eq_zero_iff] at hunused
      exact hoccupies hunused.1 (hstep.occupies hcounted.length_le hunused.2 h))
  exact hboth.2 hunused h

/-- A handle that was given out and does not stand for an object any more stands
for one again only after its slot was taken for a whole round of generations. -/
theorem reused_of_resolves {period : Nat}
    (hperiod : ∀ g k, 0 < k → k < period → S.bump^[k] (S.bump g) ≠ S.bump g)
    {between later : List (Event η α)} {middle last : List (Slot γ α)}
    (hissued : Run (Step S) [] (events ++ .alloc object handle :: between) middle)
    (hgone : ∀ object, ¬ Resolves S middle handle object)
    (hrun : Run (Step S) middle later last) (hresolves : Resolves S last handle found) :
    period ≤ uses S (S.slotOf handle) (between ++ later) := by
  obtain ⟨husable, i, hoccupies⟩ := hresolves
  have hcounted := Counted.run hissued
  have hlast := Counted.run (hissued.append hrun)
  rw [← singleton_append (l := between), ← append_assoc] at hissued
  obtain ⟨issued, hissued, -⟩ := hissued.cut
  obtain ⟨before, hbefore, hstep⟩ := hissued.snoc_inv
  cases hstep with
  | alloc _ hroom =>
    have hbefore := Counted.run hbefore
    have hlimit := firstFree_lt_limit hroom hbefore.length_le
    have hslot : S.slotOf (claim S object before).1 = firstFree before :=
      S.slotOf_pack _ _ hlimit
    obtain ⟨slot, hat, halive, hobject, hpack⟩ := id hoccupies
    obtain rfl : i = firstFree before := by
      rw [← hslot, ← hpack, hlast.slotOf_pack hat]
    rw [hslot]
    -- the generation of the slot has come back to that of the handle
    have huses : uses S (firstFree before)
        (events ++ .alloc object (claim S object before).1 :: between ++ later) =
        uses S (firstFree before) (between ++ later) + (uses S (firstFree before) events + 1) := by
      have halloc := uses_alloc S hlimit object (firstFree before)
      rw [if_pos rfl] at halloc
      rw [append_assoc, uses_append, cons_append, ← singleton_append,
        uses_append S _ [_], halloc]
      omega
    have hround : S.bump^[uses S (firstFree before) (between ++ later)]
        (S.bump (S.bump^[uses S (firstFree before) events] S.zero)) =
        S.bump (S.bump^[uses S (firstFree before) events] S.zero) := by
      rw [hlast.generation _ slot hat, huses, Function.iterate_add_apply, hbefore.claim_eq] at hpack
      have hsame := S.pack_injective _ _ _ hlimit hpack
      rwa [Function.iterate_succ_apply'] at hsame
    by_contra hless
    rcases Nat.eq_zero_or_pos (uses S (firstFree before) (between ++ later)) with hzero | hpos
    · rw [uses_append, Nat.add_eq_zero_iff] at hzero
      exact hgone found ⟨husable, _, hcounted.occupies_of_run hrun hzero.2 hoccupies⟩
    · exact hperiod _ _ hpos (Nat.lt_of_not_le hless) hround

end Runs

end Sengoo.Generational
