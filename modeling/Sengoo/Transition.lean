import Mathlib.Computability.StateTransition

/-!
Deterministic machines given by a step function. The runs are Mathlib's
`StateTransition.Reaches` and the results its `StateTransition.eval`; this file
adds bounded execution, the invariant rule, forward simulation under a
condition on the reachable states, and the rule that relates a monadic
evaluator to the run of a machine.
-/

namespace Sengoo.Transition

open StateTransition

variable {σ τ : Type} {step : σ → Option σ}

theorem reaches_of_step {s t u : σ} (hstep : step s = some t)
    (hreach : Reaches step t u) : Reaches step s u :=
  Relation.ReflTransGen.head hstep hreach

/-- The state after at most `n` steps. -/
def runAtMost (step : σ → Option σ) : Nat → σ → σ
  | 0, s => s
  | n + 1, s =>
    match step s with
    | none => s
    | some t => runAtMost step n t

theorem reaches_runAtMost (step : σ → Option σ) (n : Nat) (s : σ) :
    Reaches step s (runAtMost step n s) := by
  induction n generalizing s with
  | zero => exact .refl
  | succ n ih =>
    unfold runAtMost
    cases hstep : step s with
    | none => exact .refl
    | some t => exact reaches_of_step hstep (ih t)

/-- A bounded run that ends in a halted state is the result of the machine. -/
theorem mem_eval_of_runAtMost {s t : σ} (n : Nat)
    (hrun : runAtMost step n s = t) (hhalt : step t = none) : t ∈ eval step s := by
  rw [mem_eval]
  constructor
  · rw [← hrun]
    exact reaches_runAtMost step n s
  · exact hhalt

theorem mem_eval_of_reaches {s t : σ} (hreach : Reaches step s t)
    (hhalt : step t = none) : t ∈ eval step s :=
  mem_eval.mpr ⟨hreach, hhalt⟩

/-- The states of a run that halts within `n` steps are those of the bounded runs. -/
theorem forall_reaches_of_runAtMost {P : σ → Prop} {s : σ} (n : Nat)
    (hhalt : step (runAtMost step n s) = none) (h : ∀ k ≤ n, P (runAtMost step k s)) :
    ∀ t, Reaches step s t → P t := by
  induction n generalizing s with
  | zero =>
    intro t hreach
    have hend : t = s := by
      rcases Relation.ReflTransGen.cases_head hreach with rfl | ⟨u, hstep, -⟩
      · rfl
      · rw [show step s = none from hhalt] at hstep
        cases hstep
    rw [hend]
    exact h 0 (Nat.le_refl 0)
  | succ n ih =>
    intro t hreach
    rcases Relation.ReflTransGen.cases_head hreach with rfl | ⟨u, hstep, hrest⟩
    · exact h 0 (Nat.zero_le _)
    · have hrun : ∀ k, runAtMost step (k + 1) s = runAtMost step k u := by
        intro k
        simp only [runAtMost, show step s = some u from hstep]
      apply ih _ _ t hrest
      · rw [← hrun]
        exact hhalt
      · intro k hk
        rw [← hrun]
        exact h (k + 1) (Nat.succ_le_succ hk)

/-- What holds at the start and is kept by every step from a state that can be
reached holds in every state that can be reached. -/
theorem reaches_invariant {P : σ → Prop} {s : σ} (hstart : P s)
    (hstep : ∀ t u, Reaches step s t → P t → step t = some u → P u) :
    ∀ t, Reaches step s t → P t := by
  intro t hreach
  induction hreach with
  | refl => exact hstart
  | tail hreach hlast ih => exact hstep _ _ hreach ih hlast

/-- Forward simulation: when every step of the first machine from a related
state that meets `Good` is matched by a run of the second, a whole run whose
states all meet `Good` is matched as well. -/
theorem reaches_simulation {step' : τ → Option τ}
    {R : σ → τ → Prop} {Good : σ → Prop}
    (hsim : ∀ s t s', R s t → Good s → step s = some s' → ∃ t', Reaches step' t t' ∧ R s' t')
    {s : σ} {t : τ} (hrelated : R s t) (hgood : ∀ s', Reaches step s s' → Good s') :
    ∀ s', Reaches step s s' → ∃ t', Reaches step' t t' ∧ R s' t' := by
  intro s' hreach
  induction hreach with
  | refl => exact ⟨t, .refl, hrelated⟩
  | @tail middle last hreach hlast ih =>
    obtain ⟨t', hrun, hmiddle⟩ := ih
    obtain ⟨t'', hnext, hend⟩ := hsim middle t' last hmiddle (hgood middle hreach) hlast
    exact ⟨t'', hrun.trans hnext, hend⟩

section Evaluator

variable {ε α β μ : Type}

/-- Run from `memory`, the evaluator `m` ends in an outcome and a memory that
`post` allows. -/
def Ensures (m : ExceptT ε (StateM μ) α) (memory : μ) (post : Except ε α → μ → Prop) :
    Prop :=
  post (m.run.run memory).1 (m.run.run memory).2

variable {m : ExceptT ε (StateM μ) α}

/-- Sequencing: a value of the first part is carried on by the second, an error
of the first part is the error of the whole. -/
theorem Ensures.bind {f : α → ExceptT ε (StateM μ) β}
    {memory : μ} {middle : Except ε α → μ → Prop} {post : Except ε β → μ → Prop}
    (hm : Ensures m memory middle)
    (hok : ∀ a after, middle (.ok a) after → Ensures (f a) after post)
    (herror : ∀ e after, middle (.error e) after → post (.error e) after) :
    Ensures (m >>= f) memory post := by
  have hbind : (m >>= f).run.run memory =
      match m.run.run memory with
      | (.ok a, after) => (f a).run.run after
      | (.error e, after) => (.error e, after) := by
    rw [ExceptT.run_bind, StateT.run_bind]
    rcases m.run.run memory with ⟨_ | _, _⟩ <;> rfl
  unfold Ensures at hm ⊢
  rw [hbind]
  rcases hrun : m.run.run memory with ⟨outcome, after⟩
  rw [hrun] at hm
  cases outcome with
  | error e => exact herror e after hm
  | ok a => exact hok a after hm

theorem Ensures.mono {memory : μ}
    {post post' : Except ε α → μ → Prop} (hm : Ensures m memory post)
    (h : ∀ outcome after, post outcome after → post' outcome after) :
    Ensures m memory post' :=
  h _ _ hm

/-- Started at `c`, the machine follows the evaluator `m` run from `memory`: it
reaches a state that `post` allows for what `m` ends in. -/
def Follows (step : τ → Option τ) (m : ExceptT ε (StateM μ) α) (memory : μ) (c : τ)
    (post : Except ε α → μ → τ → Prop) : Prop :=
  Ensures m memory (fun outcome after => ∃ t, Reaches step c t ∧ post outcome after t)

variable {step : τ → Option τ} {post : Except ε α → μ → τ → Prop} {memory : μ} {c d : τ}

/-- A computation whose result is known. -/
theorem Follows.of_run {result : Except ε α} {after : μ}
    (hrun : m.run.run memory = (result, after)) (h : post result after c) :
    Follows step m memory c post := by
  unfold Follows Ensures
  rw [hrun]
  exact ⟨c, .refl, h⟩

/-- A computation whose value is known, before one that the machine follows. -/
theorem Follows.bind_run {f : α → ExceptT ε (StateM μ) β} {a : α} {after : μ}
    {post : Except ε β → μ → τ → Prop} (hrun : m.run.run memory = (.ok a, after))
    (h : Follows step (f a) after c post) : Follows step (m >>= f) memory c post := by
  have hbind : (m >>= f).run.run memory = (f a).run.run after := by
    rw [ExceptT.run_bind, StateT.run_bind, hrun]
    rfl
  unfold Follows Ensures
  rw [hbind]
  exact h

/-- Sequencing along the machine: a value of the first part is carried on from
the state that stands for it. -/
theorem Follows.bind {f : α → ExceptT ε (StateM μ) β} {middle : Except ε α → μ → τ → Prop}
    {post : Except ε β → μ → τ → Prop} (hm : Follows step m memory c middle)
    (hok : ∀ a after t, middle (.ok a) after t → Follows step (f a) after t post)
    (herror : ∀ e after t, middle (.error e) after t → post (.error e) after t) :
    Follows step (m >>= f) memory c post := by
  apply Ensures.bind hm
  · rintro a after ⟨t, hreach, hmiddle⟩
    apply (hok a after t hmiddle).mono
    rintro outcome _ ⟨u, hnext, hpost⟩
    exact ⟨u, hreach.trans hnext, hpost⟩
  · rintro e after ⟨t, hreach, hmiddle⟩
    exact ⟨t, hreach, herror e after t hmiddle⟩

theorem Follows.of_reaches (hreach : Reaches step c d)
    (hm : Follows step m memory d post) : Follows step m memory c post := by
  obtain ⟨t, hrun, hpost⟩ := hm
  exact ⟨t, hreach.trans hrun, hpost⟩

theorem Follows.mono {post' : Except ε α → μ → τ → Prop} (hm : Follows step m memory c post)
    (h : ∀ outcome after t, post outcome after t → post' outcome after t) :
    Follows step m memory c post' := by
  obtain ⟨t, hrun, hpost⟩ := hm
  exact ⟨t, hrun, h _ _ t hpost⟩

end Evaluator

end Sengoo.Transition
