import Mathlib.Data.List.Nodup
import Mathlib.Logic.Relation

/-!
Lists in which every element comes after all its successors under a relation.
Such a list is closed under the relation, and none of its elements lies on a
cycle.
-/

namespace Sengoo.Topological

open List Relation

variable {α : Type} {R : α → α → Prop}

/-- Built by appending new elements whose successors are all listed already. -/
inductive Ordered (R : α → α → Prop) : List α → Prop
  | nil : Ordered R []
  | snoc {order : List α} {a : α} :
      Ordered R order → a ∉ order → (∀ b, R a b → b ∈ order) → Ordered R (order ++ [a])

namespace Ordered

variable {order : List α}

section

variable (h : Ordered R order)
include h

theorem nodup : order.Nodup := by
  induction h with
  | nil => exact nodup_nil
  | snoc _ hfresh _ ih =>
    exact nodup_append'.mpr ⟨ih, nodup_singleton _, disjoint_singleton.mpr hfresh⟩

theorem closed {a b : α} (ha : a ∈ order) (hab : R a b) : b ∈ order := by
  induction h with
  | nil => cases ha
  | snoc _ _ hlast ih =>
    rcases mem_append.mp ha with ha | ha
    · exact mem_append_left _ (ih ha)
    · rw [mem_singleton] at ha
      subst ha
      exact mem_append_left _ (hlast b hab)

theorem reachable {a b : α} (ha : a ∈ order) (hab : ReflTransGen R a b) : b ∈ order := by
  induction hab with
  | refl => exact ha
  | tail _ hstep ih => exact h.closed ih hstep

theorem acyclic {a : α} (ha : a ∈ order) : ¬ TransGen R a a := by
  induction h with
  | nil => cases ha
  | @snoc order last hinit hfresh hlast ih =>
    rcases mem_append.mp ha with ha | ha
    · exact ih ha
    · rw [mem_singleton] at ha
      subst ha
      intro hcycle
      obtain ⟨b, hab, hba⟩ := TransGen.head'_iff.mp hcycle
      exact hfresh (hinit.reachable (hlast b hab) hba)

/-- The successors of an element stand before it. -/
theorem before {before after : List α} {a b : α} (hsplit : order = before ++ a :: after)
    (hab : R a b) : b ∈ before := by
  induction h generalizing after with
  | nil => simp at hsplit
  | @snoc order last hinit hfresh hlast ih =>
    rcases eq_nil_or_concat after with rfl | ⟨middle, final, rfl⟩
    · obtain ⟨rfl, hlastEq⟩ := append_inj' hsplit rfl
      cases hlastEq
      exact hlast b hab
    · have hsplit' : order ++ [last] = (before ++ a :: middle) ++ [final] := by
        simpa using hsplit
      obtain ⟨horder, -⟩ := append_inj' hsplit' rfl
      exact ih horder

end

end Ordered

end Sengoo.Topological
