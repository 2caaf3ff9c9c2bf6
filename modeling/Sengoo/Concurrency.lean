import Mathlib.Data.Fintype.EquivFin
import Mathlib.Logic.Relation
import Mathlib.Order.WellFounded

/-!
Two notions for systems of agents that share things: a thing that is in exactly
one place, in store or with one of its holders, and agents that wait for each
other.
-/

namespace Sengoo.Concurrency

section Custody

variable {ι : Type} [DecidableEq ι] {stored : Nat} {held : ι → Nat} {i : ι}

/-- One thing, in store once or with one holder once. The numbers say how often it
is found in store and with each holder. -/
def Custody (stored : Nat) (held : ι → Nat) : Prop :=
  (stored = 1 ∧ ∀ i, held i = 0) ∨ (stored = 0 ∧ ∃ i, held i = 1 ∧ ∀ j, j ≠ i → held j = 0)

omit [DecidableEq ι] in
/-- Who holds it holds it alone. -/
theorem Custody.alone (h : Custody stored held) (hi : 0 < held i) :
    stored = 0 ∧ held i = 1 ∧ ∀ j, j ≠ i → held j = 0 := by
  rcases h with ⟨-, hnone⟩ | ⟨hstored, k, hk, hothers⟩
  · have := hnone i
    omega
  · obtain rfl : i = k := by
      by_contra hne
      have := hothers i hne
      omega
    exact ⟨hstored, hk, hothers⟩

omit [DecidableEq ι] in
theorem Custody.free (h : Custody stored held) (hstored : 0 < stored) :
    stored = 1 ∧ ∀ i, held i = 0 := by
  rcases h with h | ⟨hzero, -⟩
  · exact h
  · omega

theorem Custody.take (h : Custody (stored + 1) held) (i : ι) :
    Custody stored (Function.update held i (held i + 1)) := by
  obtain ⟨hstored, hnone⟩ := h.free (Nat.succ_pos stored)
  refine .inr ⟨by omega, i, ?_, ?_⟩
  · rw [Function.update_self, hnone]
  · intro j hj
    rw [Function.update_of_ne hj, hnone]

theorem Custody.give (h : Custody stored held) (hi : 0 < held i) :
    Custody (stored + 1) (Function.update held i (held i - 1)) := by
  obtain ⟨hstored, hone, hothers⟩ := h.alone hi
  refine .inl ⟨by omega, ?_⟩
  intro j
  by_cases hj : j = i
  · subst hj
    rw [Function.update_self, hone]
  · rw [Function.update_of_ne hj, hothers j hj]

end Custody

section Waiting

open Relation

variable {α : Type} {waits waits' : α → α → Prop}

/-- Nobody waits, through others, for itself. -/
def NoCycle (waits : α → α → Prop) : Prop := ∀ a, ¬ TransGen waits a a

theorem NoCycle.mono (h : NoCycle waits) (hsub : ∀ a b, waits' a b → waits a b) :
    NoCycle waits' :=
  fun a hcycle => h a (TransGen.mono hsub a a hcycle)

/-- A relation that lowers a rank has no cycle. -/
theorem NoCycle.of_rank (rank : α → Nat) (h : ∀ a b, waits a b → rank b < rank a) :
    NoCycle waits := by
  have hlt : ∀ a b, TransGen waits a b → rank b < rank a := by
    intro a b hab
    induction hab with
    | single hstep => exact h _ _ hstep
    | tail _ hstep ih => exact (h _ _ hstep).trans ih
  exact fun a hcycle => Nat.lt_irrefl _ (hlt a a hcycle)

/-- A path along the old edges and one new one either is old or passes the new one. -/
theorem TransGen.new_edge {a b : α} (hsub : ∀ c d, waits' c d → waits c d ∨ c = a ∧ d = b)
    {c d : α} (h : TransGen waits' c d) :
    TransGen waits c d ∨ ReflTransGen waits c a ∧ ReflTransGen waits b d := by
  induction h with
  | single hstep =>
    rcases hsub _ _ hstep with hold | ⟨rfl, rfl⟩
    · exact .inl (.single hold)
    · exact .inr ⟨.refl, .refl⟩
  | tail _ hstep ih =>
    rcases ih, hsub _ _ hstep with ⟨hpath | ⟨hto, hfrom⟩, hold | ⟨rfl, rfl⟩⟩
    · exact .inl (hpath.tail hold)
    · exact .inr ⟨hpath.to_reflTransGen, .refl⟩
    · exact .inr ⟨hto, hfrom.tail hold⟩
    · exact .inr ⟨hto, .refl⟩

/-- A new edge closes no cycle when its end does not already wait for its start. -/
theorem NoCycle.add_edge (h : NoCycle waits) {a b : α} (hopen : ¬ ReflTransGen waits b a)
    (hsub : ∀ c d, waits' c d → waits c d ∨ c = a ∧ d = b) : NoCycle waits' := by
  intro c hcycle
  rcases TransGen.new_edge hsub hcycle with hold | ⟨hto, hfrom⟩
  · exact h c hold
  · exact hopen (hfrom.trans hto)

/-- Among finitely many agents without a cycle, one waits for nobody. -/
theorem NoCycle.exists_free [Finite α] [Nonempty α] (h : NoCycle waits) :
    ∃ a, ∀ b, ¬ waits a b := by
  have : IsTrans α (flip (TransGen waits)) := ⟨fun _ _ _ hab hbc => hbc.trans hab⟩
  have : Std.Irrefl (flip (TransGen waits)) := ⟨h⟩
  have hwf := Finite.wellFounded_of_trans_of_irrefl (flip (TransGen waits))
  obtain ⟨a, -, hmin⟩ := hwf.has_min Set.univ Set.univ_nonempty
  exact ⟨a, fun b hab => hmin b trivial (.single hab)⟩

end Waiting

end Sengoo.Concurrency
