import Mathlib.Data.List.Basic

/-!
Inversion of fallible computations: what a successful or failed bind and a
successful or failed traversal of a list say about their parts.
-/

namespace Sengoo.Fallible

open List

variable {ε α β : Type}

variable {result : Except ε α} {f : α → Except ε β} {items : List α} {values : List β}

theorem bind_eq_ok {b : β} (h : result >>= f = .ok b) : ∃ a, result = .ok a ∧ f a = .ok b := by
  cases result with
  | error e => cases h
  | ok a => exact ⟨a, rfl, h⟩

theorem of_guard {c : Prop} [Decidable c] {e : ε} {a : α}
    (h : (if c then .error e else result) = .ok a) : ¬ c ∧ result = .ok a := by
  split at h
  · cases h
  · exact ⟨‹_›, h⟩

theorem of_check {c : Prop} [Decidable c] {e : ε} {a : α}
    (h : (if c then result else .error e) = .ok a) : c ∧ result = .ok a := by
  split at h
  · exact ⟨‹_›, h⟩
  · cases h

theorem bind_eq_error {e : ε}
    (h : result >>= f = .error e) :
    result = .error e ∨ ∃ a, result = .ok a ∧ f a = .error e := by
  cases result with
  | error e' =>
    cases h
    exact .inl rfl
  | ok a => exact .inr ⟨a, rfl, h⟩

theorem mapM_cons_eq_ok {a : α}
    (h : (a :: items).mapM f = .ok values) :
    ∃ b rest, f a = .ok b ∧ items.mapM f = .ok rest ∧ values = b :: rest := by
  rw [mapM_cons] at h
  obtain ⟨b, hb, h⟩ := bind_eq_ok h
  obtain ⟨rest, hrest, h⟩ := bind_eq_ok h
  cases h
  exact ⟨b, rest, hb, hrest, rfl⟩

theorem exists_of_forM_ok {f : α → Except ε Unit}
    (h : items.forM f = .ok ()) : ∀ item ∈ items, f item = .ok () := by
  induction items with
  | nil => simp
  | cons item rest ih =>
    obtain ⟨_, hitem, hrest⟩ := bind_eq_ok h
    exact forall_mem_cons.mpr ⟨hitem, ih hrest⟩

/-- Every value of a successful traversal comes from one of the items. -/
theorem exists_of_mem_mapM
    (h : items.mapM f = .ok values) :
    ∀ value ∈ values, ∃ item ∈ items, f item = .ok value := by
  induction items generalizing values with
  | nil =>
    cases h
    simp
  | cons item rest ih =>
    obtain ⟨first, others, hfirst, hothers, rfl⟩ := mapM_cons_eq_ok h
    intro value hvalue
    rcases mem_cons.mp hvalue with rfl | hvalue
    · exact ⟨item, mem_cons_self .., hfirst⟩
    · exact exists_mem_cons_of_exists (ih hothers value hvalue)

theorem getElem?_of_mapM
    (h : items.mapM f = .ok values) {k : Nat} {item : α} (hitem : items[k]? = some item) :
    ∃ value, values[k]? = some value ∧ f item = .ok value := by
  induction items generalizing values k with
  | nil => cases hitem
  | cons first rest ih =>
    obtain ⟨value, others, hvalue, hothers, rfl⟩ := mapM_cons_eq_ok h
    cases k with
    | zero =>
      cases hitem
      exact ⟨value, rfl, hvalue⟩
    | succ k => exact ih hothers hitem

theorem map_eq_of_mapM {γ : Type}
    (h : items.mapM f = .ok values) {g : β → γ} {g' : α → γ}
    (hg : ∀ item value, f item = .ok value → g value = g' item) :
    values.map g = items.map g' := by
  induction items generalizing values with
  | nil =>
    cases h
    rfl
  | cons item rest ih =>
    obtain ⟨value, others, hvalue, hothers, rfl⟩ := mapM_cons_eq_ok h
    rw [map_cons, map_cons, hg item value hvalue, ih hothers]

/-- A failed traversal fails with the error of one of the items. -/
theorem exists_of_mapM_error {e : ε}
    (h : items.mapM f = .error e) : ∃ item ∈ items, f item = .error e := by
  induction items with
  | nil => cases h
  | cons item rest ih =>
    rw [mapM_cons] at h
    rcases bind_eq_error h with hitem | ⟨first, -, h⟩
    · exact ⟨item, mem_cons_self .., hitem⟩
    · rcases bind_eq_error h with hrest | ⟨others, -, h⟩
      · exact exists_mem_cons_of_exists (ih hrest)
      · cases h

/-- A failed fold fails at one of its steps. -/
theorem exists_of_foldlM_error {f : β → α → Except ε β} {b : β} {e : ε}
    (h : items.foldlM f b = .error e) : ∃ item ∈ items, ∃ b, f b item = .error e := by
  induction items generalizing b with
  | nil => cases h
  | cons item rest ih =>
    rcases bind_eq_error h with hitem | ⟨next, -, h⟩
    · exact ⟨item, mem_cons_self .., b, hitem⟩
    · exact exists_mem_cons_of_exists (ih h)

/-- To evaluate that a computation succeeds with a value that has a decidable
property. -/
theorem exists_ok_of_decide {p : α → Prop} [DecidablePred p]
    (h : (match result with
      | .ok a => decide (p a)
      | .error _ => false) = true) : ∃ a, result = .ok a ∧ p a := by
  cases result with
  | error e => cases h
  | ok a => exact ⟨a, rfl, of_decide_eq_true h⟩

end Sengoo.Fallible
