import Mathlib.Data.BitVec
import Mathlib.Data.List.AList

/-!
Finite tables, as Mathlib's `AList` with one type of values, and how many of
their entries meet a condition.
-/

namespace Sengoo

open List

abbrev Table (κ ν : Type) := AList fun _ : κ => ν

namespace Table

variable {κ ν : Type} [DecidableEq κ] {t : Table κ ν} {k : κ} {v : ν} (p : ν → Bool)

def count (t : Table κ ν) : Nat := t.entries.countP fun entry => p entry.2

def any (t : Table κ ν) : Bool := t.entries.any fun entry => p entry.2

theorem mem_entries_iff : (⟨k, v⟩ : Sigma fun _ : κ => ν) ∈ t.entries ↔ t.lookup k = some v := by
  rw [← AList.mem_lookup_iff]
  exact Iff.rfl

theorem mem_of_lookup (h : t.lookup k = some v) : k ∈ t :=
  AList.lookup_isSome.mp (by rw [h]; rfl)

theorem lookup_of_mem (h : k ∈ t) : ∃ v, t.lookup k = some v :=
  Option.isSome_iff_exists.mp (AList.lookup_isSome.mpr h)

theorem lookup_insert_some {k' : κ} {w : ν} (h : (t.insert k v).lookup k' = some w) :
    k' = k ∧ w = v ∨ k' ≠ k ∧ t.lookup k' = some w := by
  by_cases hk : k' = k
  · subst hk
    rw [AList.lookup_insert] at h
    exact .inl ⟨rfl, (Option.some.inj h).symm⟩
  · exact .inr ⟨hk, (AList.lookup_insert_ne hk).symm.trans h⟩

theorem lookup_erase_some {k' : κ} (h : (t.erase k).lookup k' = some v) :
    k' ≠ k ∧ t.lookup k' = some v := by
  by_cases hk : k' = k
  · subst hk
    rw [AList.lookup_erase] at h
    cases h
  · exact ⟨hk, (AList.lookup_erase_ne hk).symm.trans h⟩

theorem count_insert (h : k ∉ t) : count p (t.insert k v) = count p t + if p v then 1 else 0 := by
  rw [count, AList.entries_insert_of_notMem h, countP_cons]
  rfl

theorem exists_split (h : t.lookup k = some v) :
    ∃ before after, t.entries = before ++ ⟨k, v⟩ :: after ∧
      (t.erase k).entries = before ++ after := by
  obtain ⟨value, before, after, -, hsplit, herase⟩ :=
    exists_of_kerase (mem_keys_of_mem (mem_entries_iff.mpr h))
  have hvalue : t.lookup k = some value := by
    rw [← mem_entries_iff, hsplit]
    simp
  rw [h, Option.some.injEq] at hvalue
  subst hvalue
  exact ⟨before, after, hsplit, herase⟩

/-- Taking an entry out lowers the count by what the entry added to it. -/
theorem count_erase (h : t.lookup k = some v) :
    count p (t.erase k) + (if p v then 1 else 0) = count p t := by
  obtain ⟨before, after, hsplit, herase⟩ := exists_split h
  rw [count, count, hsplit, herase]
  simp only [countP_append, countP_cons]
  omega

/-- Writing over an entry changes the count by what the two add to it. -/
theorem count_overwrite {w : ν} (h : t.lookup k = some v) :
    count p (t.insert k w) + (if p v then 1 else 0) = count p t + if p w then 1 else 0 := by
  have herase := count_erase p h
  have hinsert : count p (t.insert k w) = count p (t.erase k) + if p w then 1 else 0 :=
    countP_cons
  omega

theorem length_keys_overwrite {w : ν} (h : t.lookup k = some v) :
    (t.insert k w).keys.length = t.keys.length := by
  have hmem : k ∈ t.keys := AList.mem_keys.mp (mem_of_lookup h)
  rw [AList.keys_insert, length_cons, length_erase_of_mem hmem]
  exact Nat.sub_add_cancel (length_pos_of_mem hmem)

theorem any_eq_true : any p t = true ↔ ∃ k v, t.lookup k = some v ∧ p v = true := by
  unfold any
  rw [List.any_eq_true]
  constructor
  · rintro ⟨⟨k, v⟩, hmem, hp⟩
    exact ⟨k, v, mem_entries_iff.mp hmem, hp⟩
  · rintro ⟨k, v, hlookup, hp⟩
    exact ⟨⟨k, v⟩, mem_entries_iff.mpr hlookup, hp⟩

theorem count_pos (h : t.lookup k = some v) (hp : p v = true) : 0 < count p t := by
  have := count_erase p h
  rw [hp] at this
  simp only [if_true] at this
  omega

/-- The sum over the entries of what each weighs. -/
def total (f : ν → Nat) (t : Table κ ν) : Nat := (t.entries.map fun entry => f entry.2).sum

variable (f : ν → Nat)

theorem total_eq_zero (h : ∀ k v, t.lookup k = some v → f v = 0) : total f t = 0 := by
  refine List.sum_eq_zero_iff_forall_eq_nat.mpr fun weight hweight => ?_
  obtain ⟨⟨k, v⟩, hmem, rfl⟩ := mem_map.mp hweight
  exact h k v (mem_entries_iff.mp hmem)

theorem total_erase (h : t.lookup k = some v) : total f (t.erase k) + f v = total f t := by
  obtain ⟨before, after, hsplit, herase⟩ := exists_split h
  rw [total, total, hsplit, herase]
  simp only [map_append, map_cons, sum_append, sum_cons]
  omega

theorem total_insert : total f (t.insert k v) = f v + total f (t.erase k) := rfl

theorem total_erase_of_notMem (h : k ∉ t) : total f (t.erase k) = total f t := by
  change ((t.entries.kerase k).map fun entry => f entry.2).sum = _
  rw [kerase_of_notMem_keys h]
  rfl

end Table

end Sengoo
