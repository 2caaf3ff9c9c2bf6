import Mathlib.Data.List.Forall2

/-!
Functions that carry a budget of nested calls. A budgeted function settles on
a value when every large enough budget gives that value, so a statement about
settling is a statement about the unbounded function. The rules below build
the settled value of a call from those of the calls it makes, without naming
a budget.
-/

namespace Sengoo.Fuel

/-- Every budget from some bound on gives the value. -/
def Settles {α : Type} (f : Nat → α) (value : α) : Prop :=
  ∃ bound, ∀ fuel, bound ≤ fuel → f fuel = value

section

variable {α β ε : Type}

theorem Settles.const (value : α) : Settles (fun _ => value) value :=
  ⟨0, fun _ _ => rfl⟩

theorem Settles.at_bound {f : Nat → α} {value : α} (h : Settles f value) :
    ∃ fuel, f fuel = value := by
  obtain ⟨bound, hbound⟩ := h
  exact ⟨bound, hbound bound (Nat.le_refl bound)⟩

theorem Settles.of_rounds {f : Nat → α} {value : α} (bound : Nat)
    (h : ∀ rounds, f (rounds + bound) = value) : Settles f value := by
  refine ⟨bound, fun fuel hle => ?_⟩
  obtain ⟨rounds, rfl⟩ := Nat.exists_eq_add_of_le' hle
  exact h rounds

/-- Two calls that do not depend on each other. -/
theorem Settles.both {f : Nat → α} {g : Nat → β} {first : α} {second : β}
    (hf : Settles f first) (hg : Settles g second) :
    Settles (fun fuel => (f fuel, g fuel)) (first, second) := by
  obtain ⟨n, hn⟩ := hf
  obtain ⟨m, hm⟩ := hg
  refine ⟨max n m, fun fuel hle => ?_⟩
  show (f fuel, g fuel) = _
  rw [hn fuel (Nat.le_trans (Nat.le_max_left n m) hle),
    hm fuel (Nat.le_trans (Nat.le_max_right n m) hle)]

/-- A function settles on at most one value. -/
theorem Settles.unique {f : Nat → α} {first second : α} (hfirst : Settles f first)
    (hsecond : Settles f second) : first = second := by
  obtain ⟨fuel, hfuel⟩ := (hfirst.both hsecond).at_bound
  exact (congrArg Prod.fst hfuel).symm.trans (congrArg Prod.snd hfuel)

/-- One unit of the budget pays for the call itself. -/
theorem Settles.call {f g : Nat → α} {value : α} (step : ∀ fuel, f (fuel + 1) = g fuel)
    (hg : Settles g value) : Settles f value := by
  obtain ⟨bound, hbound⟩ := hg
  refine .of_rounds (bound + 1) fun rounds => ?_
  rw [← Nat.add_assoc, step]
  exact hbound _ (Nat.le_add_left bound rounds)

/-- A call that succeeds, and then whatever is done with its result. -/
theorem Settles.bind {f : Nat → Except ε α} {g : Nat → α → Except ε β} {middle : α}
    {value : Except ε β} (hf : Settles f (.ok middle))
    (hg : Settles (fun fuel => g fuel middle) value) :
    Settles (fun fuel => f fuel >>= g fuel) value := by
  obtain ⟨bound, hbound⟩ := hf.both hg
  refine ⟨bound, fun fuel hle => ?_⟩
  have hboth := hbound fuel hle
  simp only [Prod.mk.injEq] at hboth
  show (f fuel >>= g fuel) = value
  rw [hboth.1]
  exact hboth.2

/-- Calls on the members of a list have a bound in common. -/
theorem Settles.forall₂ {f : Nat → α → β} {items : List α} {values : List β}
    (h : List.Forall₂ (fun item value => Settles (fun fuel => f fuel item) value) items values) :
    ∃ bound, ∀ fuel, bound ≤ fuel →
      List.Forall₂ (fun item value => f fuel item = value) items values := by
  induction h with
  | nil => exact ⟨0, fun _ _ => .nil⟩
  | cons hhead _ ih =>
    obtain ⟨n, hn⟩ := hhead
    obtain ⟨m, hm⟩ := ih
    refine ⟨max n m, fun fuel hle => .cons ?_ ?_⟩
    · exact hn fuel (Nat.le_trans (Nat.le_max_left n m) hle)
    · exact hm fuel (Nat.le_trans (Nat.le_max_right n m) hle)

/-- A round for each member that the loop passes over. -/
theorem over_steps {f : Nat → List α → Option β} {P : α → Prop} (hzero : ∀ rest, f 0 rest = none)
    (hstep : ∀ fuel item rest, P item → f (fuel + 1) (item :: rest) = f fuel rest)
    {front : List α} (rest : List α) (h : ∀ item ∈ front, P item) (fuel : Nat) :
    f fuel (front ++ rest) = f (fuel - front.length) rest := by
  induction front generalizing fuel with
  | nil => rfl
  | cons item front ih =>
    cases fuel with
    | zero => rw [hzero, Nat.zero_sub, hzero]
    | succ fuel =>
      rw [List.cons_append, hstep _ _ _ (h item List.mem_cons_self), List.length_cons,
        Nat.add_sub_add_right]
      exact ih (List.forall_mem_cons.mp h).2 fuel

end

end Sengoo.Fuel
