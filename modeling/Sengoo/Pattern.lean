import Mathlib.Data.List.Basic

/-!
The first place where a pattern occurs in a list, and how it behaves when the list
grows at its end.
-/

namespace Sengoo.Pattern

open List

variable {α : Type} [DecidableEq α] {pattern xs ys : List α} {i : Nat}

/-- Where the pattern occurs first. -/
def position (pattern : List α) : List α → Option Nat
  | [] => none
  | x :: xs =>
    if pattern.isPrefixOf (x :: xs) then some 0 else (position pattern xs).map (· + 1)

/-- Whether the pattern occurs. -/
def occurs (pattern xs : List α) : Bool := (position pattern xs).isSome

theorem position_of_isPrefix (hne : pattern ≠ []) (h : pattern <+: xs) :
    position pattern xs = some 0 := by
  cases xs with
  | nil => exact absurd (prefix_nil.mp h) hne
  | cons x xs => exact if_pos (List.isPrefixOf_iff_prefix.mpr h)

theorem position_cons_of_not {x : α} (h : ¬ pattern <+: x :: xs) :
    position pattern (x :: xs) = (position pattern xs).map (· + 1) :=
  if_neg fun hp => h (List.isPrefixOf_iff_prefix.mp hp)

/-- The pattern is not found before its first element. -/
theorem position_skip {p : α} {ps : List α} (h : p ∉ xs) (ys : List α) :
    position (p :: ps) (xs ++ ys) = (position (p :: ps) ys).map (· + xs.length) := by
  induction xs with
  | nil => simp
  | cons x xs ih =>
    rw [mem_cons, not_or] at h
    have hnot : ¬ p :: ps <+: x :: (xs ++ ys) := by
      rintro ⟨tail, htail⟩
      exact h.1 (List.cons.inj htail).1
    rw [cons_append, position_cons_of_not hnot, ih h.2, Option.map_map]
    congr 1

section

variable (hne : pattern ≠ [])
include hne

/-- The pattern stands where it is found, and nowhere before. -/
theorem position_eq_some_iff : position pattern xs = some i ↔
    pattern <+: xs.drop i ∧ ∀ j < i, ¬ pattern <+: xs.drop j := by
  induction xs generalizing i with
  | nil => simp [position, hne]
  | cons x xs ih =>
    by_cases hp : pattern <+: x :: xs
    · rw [position_of_isPrefix hne hp, Option.some.injEq]
      constructor
      · rintro rfl
        exact ⟨hp, nofun⟩
      · rintro ⟨-, hbefore⟩
        by_contra hpos
        exact hbefore 0 (Nat.pos_of_ne_zero (Ne.symm hpos)) hp
    · rw [position_cons_of_not hp]
      cases i with
      | zero => simp [hp]
      | succ i =>
        rw [Nat.forall_lt_succ_left]
        simp [ih, hp]

theorem position_le (h : position pattern xs = some i) : i + pattern.length ≤ xs.length := by
  have hlength := ((position_eq_some_iff hne).mp h).1.length_le
  have hpos := length_pos_of_ne_nil hne
  rw [length_drop] at hlength
  omega

/-- When the list grows, the pattern is found where it is found in a list long enough to
show it there. -/
theorem position_append_iff (ys : List α) (hlong : i + pattern.length ≤ xs.length) :
    position pattern (xs ++ ys) = some i ↔ position pattern xs = some i := by
  have hshown : ∀ j ≤ i, pattern <+: (xs ++ ys).drop j ↔ pattern <+: xs.drop j := by
    intro j hj
    have hroom : pattern.length ≤ (xs.drop j).length := by
      rw [length_drop]
      omega
    rw [drop_append_of_le_length (by omega)]
    exact ⟨fun hp => prefix_of_prefix_length_le hp (prefix_append ..) hroom,
      fun hp => hp.trans (prefix_append ..)⟩
  rw [position_eq_some_iff hne, position_eq_some_iff hne, hshown i (Nat.le_refl i)]
  exact and_congr_right fun _ =>
    forall₂_congr fun j hj => not_congr (hshown j (Nat.le_of_lt hj))

/-- A list without the pattern ends before the pattern is complete. -/
theorem length_lt_of_none (hnone : position pattern xs = none)
    (h : position pattern (xs ++ ys) = some i) : xs.length < i + pattern.length := by
  by_contra hlong
  rw [(position_append_iff hne ys (Nat.le_of_not_lt hlong)).mp h] at hnone
  cases hnone

end

end Sengoo.Pattern
