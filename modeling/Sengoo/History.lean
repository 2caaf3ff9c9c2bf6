import Mathlib.Data.BitVec

/-!
Runs of a labelled transition relation together with the labels passed so far,
for systems whose properties speak about the past: the rule for invariants that
may mention the history, and how runs are put together and cut.
-/

namespace Sengoo.History

variable {σ ε : Type}

/-- The run from one state to another along a list of labels. -/
inductive Run (step : σ → ε → σ → Prop) : σ → List ε → σ → Prop
  | nil (s : σ) : Run step s [] s
  | snoc {s t u : σ} {es : List ε} {e : ε} : Run step s es t → step t e u → Run step s (es ++ [e]) u

namespace Run

variable {step : σ → ε → σ → Prop} {s t u : σ} {es fs : List ε}

/-- What holds at the start and is kept by every step holds along the run, also
when it speaks about the labels passed. -/
theorem invariant {P : List ε → σ → Prop} (hrun : Run step s es t) (hstart : P [] s)
    (hstep : ∀ es t e u, Run step s es t → P es t → step t e u → P (es ++ [e]) u) : P es t := by
  induction hrun with
  | nil => exact hstart
  | snoc hrun hlast ih => exact hstep _ _ _ _ hrun ih hlast

theorem mono {step' : σ → ε → σ → Prop} (hrun : Run step s es t)
    (h : ∀ s e t, step s e t → step' s e t) : Run step' s es t := by
  induction hrun with
  | nil => exact .nil _
  | snoc _ hlast ih => exact ih.snoc (h _ _ _ hlast)

theorem append (hfirst : Run step s es t) (hsecond : Run step t fs u) :
    Run step s (es ++ fs) u := by
  induction hsecond with
  | nil => simpa using hfirst
  | snoc _ hlast ih =>
    rw [← List.append_assoc]
    exact .snoc ih hlast

theorem snoc_inv {e : ε} (hrun : Run step s (es ++ [e]) u) : ∃ t, Run step s es t ∧ step t e u := by
  generalize hall : es ++ [e] = all at hrun
  cases hrun with
  | nil => simp at hall
  | snoc hinit hlast =>
    obtain ⟨rfl, hlabel⟩ := List.append_inj' hall rfl
    cases hlabel
    exact ⟨_, hinit, hlast⟩

/-- A run along two lists of labels passes a state between them. -/
theorem cut (hrun : Run step s (es ++ fs) u) : ∃ t, Run step s es t ∧ Run step t fs u := by
  induction fs using List.reverseRecOn generalizing u with
  | nil => exact ⟨u, by simpa using hrun, .nil u⟩
  | append_singleton fs e ih =>
    rw [← List.append_assoc] at hrun
    obtain ⟨t, hinit, hlast⟩ := hrun.snoc_inv
    obtain ⟨middle, hfirst, hsecond⟩ := ih hinit
    exact ⟨middle, hfirst, hsecond.snoc hlast⟩

end Run

end Sengoo.History
