import Mathlib.Algebra.BigOperators.Group.Finset.Basic
import Mathlib.Algebra.BigOperators.Group.List.Basic
import Mathlib.Data.BitVec
import Mathlib.Algebra.Order.BigOperators.Group.Finset

/-!
Depth-first search with an explicit stack: a popped node that is not marked yet
is marked, and those of its successors that are not marked are pushed. On a
finite graph the stack runs empty, and the marked nodes are then exactly the
nodes reachable from the roots.
-/

namespace Sengoo.Worklist

open List Relation

variable {α : Type} [DecidableEq α] (next : α → List α)

/-- The marked nodes, and the stack with its top first. -/
structure State (α : Type) where
  marked : List α
  stack : List α

def step (s : State α) : State α :=
  match s.stack with
  | [] => s
  | a :: rest =>
    if a ∈ s.marked then { s with stack := rest }
    else
      { marked := a :: s.marked
        stack := ((next a).filter fun b => b ∉ a :: s.marked).reverse ++ rest }

def run : Nat → State α → State α
  | 0, s => s
  | fuel + 1, s => run fuel (step next s)

/-- The search from a stack of roots, with one step for every root and one for
every edge between the nodes. -/
def search (nodes roots : List α) : List α :=
  (run next (roots.length + (nodes.map fun a => (next a).length).sum) ⟨[], roots⟩).marked

abbrev Edge (a b : α) : Prop := b ∈ next a

/-- A pop drops a marked node, or marks the node and pushes its successors. -/
inductive Step : State α → State α → Prop
  | drop {marked rest : List α} {a : α} (h : a ∈ marked) : Step ⟨marked, a :: rest⟩ ⟨marked, rest⟩
  | expand {marked rest fresh : List α} {a : α} (h : a ∉ marked)
      (hfresh : ∀ b, b ∈ fresh ↔ b ∈ next a ∧ b ∉ a :: marked)
      (hlength : fresh.length ≤ (next a).length) :
      Step ⟨marked, a :: rest⟩ ⟨a :: marked, fresh ++ rest⟩

theorem step_of_stack {s : State α} (h : s.stack ≠ []) : Step next s (step next s) := by
  obtain ⟨marked, stack⟩ := s
  cases stack with
  | nil => exact absurd rfl h
  | cons a rest =>
    unfold step
    by_cases ha : a ∈ marked
    · simp only [if_pos ha]
      exact .drop ha
    · simp only [if_neg ha]
      refine .expand ha (fun b => ?_) ?_
      · simp
      · rw [length_reverse]
        exact length_filter_le _ _

theorem run_of_stack_nil (fuel : Nat) (marked : List α) :
    run next fuel ⟨marked, []⟩ = ⟨marked, []⟩ := by
  induction fuel with
  | zero => rfl
  | succ fuel ih => exact ih

/-- What the search keeps: it only meets reachable nodes, no root is lost, and
the successors of a marked node are marked or wait on the stack. -/
structure Invariant (roots : List α) (s : State α) : Prop where
  reachable : ∀ a, a ∈ s.marked ∨ a ∈ s.stack → ∃ r ∈ roots, ReflTransGen (Edge next) r a
  roots_met : ∀ r ∈ roots, r ∈ s.marked ∨ r ∈ s.stack
  successors_met : ∀ a ∈ s.marked, ∀ b ∈ next a, b ∈ s.marked ∨ b ∈ s.stack

omit [DecidableEq α] in
theorem Invariant.initial (roots : List α) : Invariant next roots ⟨[], roots⟩ where
  reachable := fun a h => ⟨a, h.resolve_left not_mem_nil, .refl⟩
  roots_met := fun _ h => Or.inr h
  successors_met := fun _ h => absurd h not_mem_nil

variable {next}

omit [DecidableEq α] in
/-- A node that was met before a pop is met after it. -/
theorem Step.met {s s' : State α} (h : Step next s s') {a : α}
    (ha : a ∈ s.marked ∨ a ∈ s.stack) : a ∈ s'.marked ∨ a ∈ s'.stack := by
  cases h with
  | drop htop =>
    rcases ha with ha | ha
    · exact Or.inl ha
    · rcases mem_cons.mp ha with rfl | ha
      · exact Or.inl htop
      · exact Or.inr ha
  | expand =>
    rcases ha with ha | ha
    · exact Or.inl (mem_cons_of_mem _ ha)
    · rcases mem_cons.mp ha with rfl | ha
      · exact Or.inl mem_cons_self
      · exact Or.inr (mem_append_right _ ha)

omit [DecidableEq α] in
theorem Invariant.step {roots : List α} {s s' : State α} (h : Invariant next roots s)
    (hstep : Step next s s') : Invariant next roots s' := by
  refine ⟨?_, fun r hr => hstep.met (h.roots_met r hr), ?_⟩
  · intro b hb
    cases hstep with
    | drop htop => exact h.reachable b (hb.imp_right (mem_cons_of_mem _))
    | @expand marked rest fresh a htop hfresh =>
      rcases hb with hb | hb
      · rcases mem_cons.mp hb with rfl | hb
        · exact h.reachable b (Or.inr mem_cons_self)
        · exact h.reachable b (Or.inl hb)
      · rcases mem_append.mp hb with hb | hb
        · obtain ⟨r, hr, hreach⟩ := h.reachable a (Or.inr mem_cons_self)
          exact ⟨r, hr, hreach.tail ((hfresh b).mp hb).1⟩
        · exact h.reachable b (Or.inr (mem_cons_of_mem _ hb))
  · intro a ha b hb
    have hmet : a ∈ s.marked → b ∈ s'.marked ∨ b ∈ s'.stack :=
      fun ha => hstep.met (h.successors_met a ha b hb)
    cases hstep with
    | drop => exact hmet ha
    | @expand marked rest fresh top htop hfresh =>
      rcases mem_cons.mp ha with rfl | ha
      · by_cases hmarked : b ∈ a :: marked
        · exact Or.inl hmarked
        · exact Or.inr (mem_append_left _ ((hfresh b).mpr ⟨hb, hmarked⟩))
      · exact hmet ha

section Termination

variable (next) (nodes : Finset α)

/-- The pops still to come: those on the stack, and those that the edges of an
unmarked node can still push. -/
def pending (s : State α) : Nat :=
  s.stack.length + ∑ a ∈ nodes.filter (· ∉ s.marked), (next a).length

variable {next nodes}

theorem Step.pending_lt {s s' : State α} (h : Step next s s') (hnodes : ∀ a ∈ s.stack, a ∈ nodes) :
    pending next nodes s' < pending next nodes s := by
  cases h with
  | drop => exact Nat.add_lt_add_right (Nat.lt_succ_self _) _
  | @expand marked rest fresh a htop hfresh hlength =>
    have ha : a ∈ nodes.filter (· ∉ marked) :=
      Finset.mem_filter.mpr ⟨hnodes a mem_cons_self, htop⟩
    have herase : nodes.filter (· ∉ a :: marked) = (nodes.filter (· ∉ marked)).erase a := by
      ext b
      simp only [Finset.mem_filter, Finset.mem_erase, mem_cons]
      tauto
    have hsum := Finset.add_sum_erase _ (fun b => (next b).length) ha
    simp only [pending, herase, length_append, length_cons]
    omega

theorem pending_initial (order roots : List α) (h : order.Nodup) :
    pending next order.toFinset ⟨[], roots⟩ =
      roots.length + (order.map fun a => (next a).length).sum := by
  unfold pending
  rw [Finset.filter_true_of_mem (fun _ _ => not_mem_nil), sum_toFinset _ h]

/-- With a step for every pop still to come, the stack runs empty. -/
theorem Invariant.run {roots : List α} {s : State α} (h : Invariant next roots s)
    (hclosed : ∀ r ∈ roots, ∀ a, ReflTransGen (Edge next) r a → a ∈ nodes) {fuel : Nat}
    (hfuel : pending next nodes s ≤ fuel) :
    Invariant next roots (run next fuel s) ∧ (run next fuel s).stack = [] := by
  induction fuel generalizing s with
  | zero =>
    have hlength : s.stack.length = 0 := by
      unfold pending at hfuel
      omega
    exact ⟨h, length_eq_zero_iff.mp hlength⟩
  | succ fuel ih =>
    by_cases hstack : s.stack = []
    · obtain ⟨marked, stack⟩ := s
      cases hstack
      rw [run_of_stack_nil]
      exact ⟨h, rfl⟩
    · have hstep := step_of_stack next hstack
      refine ih (h.step hstep) ?_
      have hlt := hstep.pending_lt fun a ha => by
        obtain ⟨r, hr, hreach⟩ := h.reachable a (Or.inr ha)
        exact hclosed r hr a hreach
      exact Nat.le_of_lt_succ (Nat.lt_of_lt_of_le hlt hfuel)

end Termination

/-- The search marks exactly the nodes reachable from its roots. -/
theorem mem_search {nodes roots : List α} (hnodup : nodes.Nodup)
    (hroots : ∀ r ∈ roots, r ∈ nodes) (hnext : ∀ a ∈ nodes, ∀ b ∈ next a, b ∈ nodes) (a : α) :
    a ∈ search next nodes roots ↔ ∃ r ∈ roots, ReflTransGen (Edge next) r a := by
  have hclosed : ∀ r ∈ roots, ∀ a, ReflTransGen (Edge next) r a → a ∈ nodes.toFinset := by
    intro r hr a hreach
    rw [mem_toFinset]
    induction hreach with
    | refl => exact hroots r hr
    | tail _ hedge ih => exact hnext _ ih _ hedge
  obtain ⟨hfinal, hempty⟩ :=
    (Invariant.initial next roots).run hclosed (pending_initial nodes roots hnodup).le
  unfold search
  generalize run next _ _ = final at hempty hfinal
  have hmarked : ∀ b, b ∈ final.marked ∨ b ∈ final.stack → b ∈ final.marked := by
    rw [hempty]
    exact fun b h => h.resolve_right not_mem_nil
  constructor
  · intro ha
    exact hfinal.reachable a (Or.inl ha)
  · rintro ⟨r, hr, hreach⟩
    induction hreach with
    | refl => exact hmarked r (hfinal.roots_met r hr)
    | tail _ hedge ih => exact hmarked _ (hfinal.successors_met _ ih _ hedge)

end Sengoo.Worklist
