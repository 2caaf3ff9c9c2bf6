import Mathlib.Logic.Relation

/-!
Relations with a rank that every step lowers, so that no step can be repeated for ever:
induction along them, and how a rank is kept when a step is added that closes no cycle
or when two such relations are put side by side.
-/

namespace Sengoo

variable {α : Type} {r s t : α → α → Prop}

def Ranked (r : α → α → Prop) : Prop := ∃ rank : α → Nat, ∀ a b, r a b → rank b < rank a

namespace Ranked

theorem mono (h : Ranked r) (hsub : ∀ a b, s a b → r a b) : Ranked s := by
  obtain ⟨rank, hrank⟩ := h
  exact ⟨rank, fun a b hab => hrank a b (hsub a b hab)⟩

theorem induction (h : Ranked r) {P : α → Prop} (hstep : ∀ a, (∀ b, r a b → P b) → P a) (a : α) :
    P a := by
  obtain ⟨rank, hrank⟩ := h
  have hall : ∀ n a, rank a < n → P a := by
    intro n
    induction n with
    | zero => exact fun a ha => absurd ha (Nat.not_lt_zero _)
    | succ n ih =>
      intro a ha
      refine hstep a fun b hab => ih b ?_
      have hlt := hrank a b hab
      omega
  exact hall (rank a + 1) a (Nat.lt_succ_self _)

open Classical in
/-- A step is added to a place from which its own start cannot be reached. -/
theorem insert (h : Ranked r) {a b : α} (hno : ¬ Relation.ReflTransGen r b a) :
    Ranked fun x y => r x y ∨ (x = a ∧ y = b) := by
  obtain ⟨rank, hrank⟩ := h
  -- everything that reaches the start is lifted above the end
  refine ⟨fun x => if Relation.ReflTransGen r x a then rank x + (rank b + 1) else rank x, ?_⟩
  rintro x y (hxy | ⟨rfl, rfl⟩) <;> dsimp only
  · have hlt := hrank x y hxy
    by_cases hy : Relation.ReflTransGen r y a
    · rw [if_pos hy, if_pos (.head hxy hy)]
      omega
    · rw [if_neg hy]
      split
      · omega
      · exact hlt
  · rw [if_neg hno, if_pos .refl]
    omega

open Classical in
/-- Two relations side by side, neither with a step to the other's places. -/
theorem glue (inside : α → Prop) (hr : Ranked r) (hs : Ranked s) (hsplit : ∀ a b, t a b →
      (inside a ∧ inside b ∧ r a b) ∨ (¬ inside a ∧ ¬ inside b ∧ s a b)) : Ranked t := by
  obtain ⟨rank, hrank⟩ := hr
  obtain ⟨rank', hrank'⟩ := hs
  refine ⟨fun a => if inside a then rank a else rank' a, fun a b hab => ?_⟩
  dsimp only
  rcases hsplit a b hab with ⟨ha, hb, hab⟩ | ⟨ha, hb, hab⟩
  · rw [if_pos ha, if_pos hb]
    exact hrank a b hab
  · rw [if_neg ha, if_neg hb]
    exact hrank' a b hab

end Ranked

end Sengoo
