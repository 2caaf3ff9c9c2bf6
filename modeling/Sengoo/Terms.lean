import Mathlib.Data.List.Forall2

/-!
First-order terms under bindings of single variables. What a variable is bound
to may mention variables that are bound in turn, and resolving a term follows
the bindings to their end. Nothing here asks that bindings are acyclic: that
every term resolves is a property of its own, kept when a free variable is
bound to a resolved term in which it does not occur.
-/

namespace Sengoo.Terms

open List

inductive Term (F V : Type) where
  | var (v : V)
  | node (f : F) (args : List (Term F V))

variable {F V : Type}

@[elab_as_elim]
theorem Term.induct {motive : Term F V → Prop} (var : ∀ v, motive (.var v))
    (node : ∀ f args, (∀ t ∈ args, motive t) → motive (.node f args)) : ∀ t, motive t
  | .var v => var v
  | .node f args => node f args fun t _ => Term.induct var node t

inductive Occurs (v : V) : Term F V → Prop where
  | here : Occurs v (.var v)
  | inside {f : F} {args : List (Term F V)} {t : Term F V} : t ∈ args → Occurs v t →
      Occurs v (.node f args)

theorem occurs_node_iff {v : V} {f : F} {args : List (Term F V)} :
    Occurs v (.node f args) ↔ ∃ t ∈ args, Occurs v t :=
  ⟨fun | .inside hmem h => ⟨_, hmem, h⟩, fun ⟨_, hmem, h⟩ => .inside hmem h⟩

/-- Some node of the term has a head with the property. -/
inductive HasHead (p : F → Prop) : Term F V → Prop where
  | here {f : F} {args : List (Term F V)} : p f → HasHead p (.node f args)
  | inside {f : F} {args : List (Term F V)} {t : Term F V} : t ∈ args → HasHead p t →
      HasHead p (.node f args)

theorem hasHead_node_iff {p : F → Prop} {f : F} {args : List (Term F V)} :
    HasHead p (.node f args) ↔ p f ∨ ∃ t ∈ args, HasHead p t := by
  constructor
  · intro h
    cases h with
    | here hp => exact .inl hp
    | inside hmem h => exact .inr ⟨_, hmem, h⟩
  · rintro (hp | ⟨t, hmem, h⟩)
    · exact .here hp
    · exact .inside hmem h

theorem not_hasHead_var {p : F → Prop} (v : V) : ¬ HasHead p (.var v : Term F V) :=
  fun h => nomatch h

abbrev Bindings (F V : Type) := V → Option (Term F V)

/-- Following the bindings of the variables of a term to the end. -/
inductive Resolves (σ : Bindings F V) : Term F V → Term F V → Prop where
  | bound {v : V} {t r : Term F V} : σ v = some t → Resolves σ t r → Resolves σ (.var v) r
  | free {v : V} : σ v = none → Resolves σ (.var v) (.var v)
  | node {f : F} {args : List (Term F V)} (value : Term F V → Term F V) :
      (∀ t ∈ args, Resolves σ t (value t)) → Resolves σ (.node f args) (.node f (args.map value))

/-- Every term resolves. -/
def Resolving (σ : Bindings F V) : Prop := ∀ t, ∃ r, Resolves σ t r

/-- The second bindings keep those of the first. -/
def Extends (σ τ : Bindings F V) : Prop := ∀ v t, σ v = some t → τ v = some t

/-- Two terms resolve to the same one. -/
def Agree (σ : Bindings F V) (t u : Term F V) : Prop := ∃ r, Resolves σ t r ∧ Resolves σ u r

theorem Extends.refl (σ : Bindings F V) : Extends σ σ := fun _ _ h => h

theorem Extends.trans {σ τ υ : Bindings F V} (hfirst : Extends σ τ) (hsecond : Extends τ υ) :
    Extends σ υ := fun v t h => hsecond v t (hfirst v t h)

namespace Resolves

variable {σ τ : Bindings F V} {t r r' : Term F V} {v : V}

theorem unique (h : Resolves σ t r) (h' : Resolves σ t r') : r = r' := by
  induction h generalizing r' with
  | bound hv _ ih =>
    cases h' with
    | bound hv' ht' =>
      rw [hv] at hv'
      cases hv'
      exact ih ht'
    | free hv' =>
      rw [hv] at hv'
      cases hv'
  | free hv =>
    cases h' with
    | bound hv' _ =>
      rw [hv] at hv'
      cases hv'
    | free _ => rfl
  | node value _ ih =>
    cases h' with
    | node value' hargs' =>
      exact congrArg _ (map_congr_left fun t ht => ih t ht (hargs' t ht))

/-- A term without bound variables resolves to itself. -/
theorem self_of_free (h : ∀ v, Occurs v t → σ v = none) : Resolves σ t t := by
  induction t using Term.induct with
  | var v => exact .free (h v .here)
  | node f args ih =>
    have hargs : ∀ t ∈ args, Resolves σ t (id t) := fun t ht =>
      ih t ht fun v hv => h v (.inside ht hv)
    have hnode := Resolves.node (f := f) id hargs
    rwa [map_id] at hnode

theorem free_of_occurs (h : Resolves σ t r) (hv : Occurs v r) : σ v = none := by
  induction h with
  | bound _ _ ih => exact ih hv
  | free hfree =>
    cases hv with
    | here => exact hfree
  | node value _ ih =>
    obtain ⟨_, hmem, hv⟩ := occurs_node_iff.mp hv
    obtain ⟨t, ht, rfl⟩ := mem_map.mp hmem
    exact ih t ht hv

theorem self (h : Resolves σ t r) : Resolves σ r r :=
  self_of_free fun _ hv => h.free_of_occurs hv

/-- A head that is in neither the term nor the bindings is not in the result. -/
theorem not_hasHead {p : F → Prop} (hσ : ∀ v t, σ v = some t → ¬ HasHead p t)
    (h : Resolves σ t r) (ht : ¬ HasHead p t) : ¬ HasHead p r := by
  induction h with
  | bound hv _ ih => exact ih (hσ _ _ hv)
  | free _ => exact ht
  | node value _ ih =>
    intro hhead
    cases hhead with
    | here hp => exact ht (.here hp)
    | inside hmem hhead =>
      obtain ⟨t, htmem, rfl⟩ := mem_map.mp hmem
      exact ih t htmem (fun hhead => ht (.inside htmem hhead)) hhead

/-- One function gives the results of all arguments. -/
theorem exists_value {args : List (Term F V)} (h : ∀ t ∈ args, ∃ r, Resolves σ t r) :
    ∃ value : Term F V → Term F V, ∀ t ∈ args, Resolves σ t (value t) := by
  classical
  refine ⟨fun t => if ht : ∃ r, Resolves σ t r then ht.choose else t, fun t ht => ?_⟩
  simp only [dif_pos (h t ht)]
  exact (h t ht).choose_spec

/-- Resolving first with fewer bindings changes nothing. -/
theorem absorb (hle : Extends σ τ) (h : Resolves σ t r) (h' : Resolves τ t r') :
    Resolves τ r r' := by
  induction h generalizing r' with
  | bound hv _ ih =>
    cases h' with
    | bound hv' ht' =>
      rw [hle _ _ hv] at hv'
      cases hv'
      exact ih ht'
    | free hv' =>
      rw [hle _ _ hv] at hv'
      cases hv'
  | free _ => exact h'
  | @node f args value _ ih =>
    cases h' with
    | node value' hargs' =>
      -- the results are read off the resolved arguments
      have hargs : ∀ u ∈ args.map value, ∃ s, Resolves τ u s := by
        intro u hu
        obtain ⟨t, ht, rfl⟩ := mem_map.mp hu
        exact ⟨_, ih t ht (hargs' t ht)⟩
      obtain ⟨again, hagain⟩ := exists_value hargs
      have hnode := Resolves.node (f := f) again hagain
      rw [map_map] at hnode
      have hsame : args.map (again ∘ value) = args.map value' :=
        map_congr_left fun t ht =>
          (hagain (value t) (mem_map_of_mem ht)).unique (ih t ht (hargs' t ht))
      rwa [hsame] at hnode

theorem of_forall₂ {f : F} {args results : List (Term F V)}
    (h : List.Forall₂ (Resolves σ) args results) :
    Resolves σ (.node f args) (.node f results) := by
  have hexists : ∀ t ∈ args, ∃ r, Resolves σ t r := by
    induction h with
    | nil => intro t ht; cases ht
    | cons hhead _ ih => exact forall_mem_cons.mpr ⟨⟨_, hhead⟩, ih⟩
  obtain ⟨value, hvalue⟩ := exists_value hexists
  have hresults : args.map value = results := by
    clear hexists
    induction h with
    | nil => rfl
    | cons hhead _ ih =>
      obtain ⟨hfirst, hrest⟩ := forall_mem_cons.mp hvalue
      rw [map_cons, hfirst.unique hhead, ih hrest]
  rw [← hresults]
  exact .node value hvalue

end Resolves

theorem resolving_empty : Resolving (fun _ => none : Bindings F V) :=
  fun t => ⟨t, .self_of_free fun _ _ => rfl⟩

section

variable {σ τ : Bindings F V} {t u r s : Term F V}

/-- Terms agree when what they resolved to at first does. -/
theorem Agree.of_resolved (htotal : Resolving τ) (hle : Extends σ τ) (ht : Resolves σ t r)
    (hu : Resolves σ u s) (h : Agree τ r s) : Agree τ t u := by
  obtain ⟨x, hr, hs⟩ := h
  obtain ⟨t', ht'⟩ := htotal t
  obtain ⟨u', hu'⟩ := htotal u
  have hleft : t' = x := (ht.absorb hle ht').unique hr
  have hright : u' = x := (hu.absorb hle hu').unique hs
  exact ⟨x, hleft ▸ ht', hright ▸ hu'⟩

theorem Agree.mono (htotal : Resolving τ) (hle : Extends σ τ) (h : Agree σ t u) : Agree τ t u := by
  obtain ⟨r, ht, hu⟩ := h
  obtain ⟨x, hr⟩ := htotal r
  exact .of_resolved htotal hle ht hu ⟨x, hr, hr⟩

theorem Agree.node {f : F} {args args' : List (Term F V)}
    (h : List.Forall₂ (Agree σ) args args') : Agree σ (.node f args) (.node f args') := by
  have hresults : ∃ results, List.Forall₂ (Resolves σ) args results ∧
      List.Forall₂ (Resolves σ) args' results := by
    induction h with
    | nil => exact ⟨[], .nil, .nil⟩
    | cons hhead _ ih =>
      obtain ⟨r, ht, hu⟩ := hhead
      obtain ⟨results, hargs, hargs'⟩ := ih
      exact ⟨r :: results, .cons ht hargs, .cons hu hargs'⟩
  obtain ⟨results, hargs, hargs'⟩ := hresults
  exact ⟨.node f results, .of_forall₂ hargs, .of_forall₂ hargs'⟩

theorem Agree.symm (h : Agree σ t u) : Agree σ u t := by
  obtain ⟨r, ht, hu⟩ := h
  exact ⟨r, hu, ht⟩

end

/-! ### Binding a variable -/

section

variable [DecidableEq V] {σ : Bindings F V} {v : V} {t : Term F V}

def bind (σ : Bindings F V) (v : V) (t : Term F V) : Bindings F V :=
  fun w => if w = v then some t else σ w

variable (hfree : σ v = none)
include hfree

theorem extends_bind : Extends σ (bind σ v t) := by
  intro w u hw
  have hne : w ≠ v := by
    rintro rfl
    rw [hfree] at hw
    cases hw
  rw [bind, if_neg hne]
  exact hw

variable (ht : Resolves σ t t) (hoccurs : ¬ Occurs v t)
include ht hoccurs

omit hfree in
theorem resolves_bind_self : Resolves (bind σ v t) t t := by
  refine .self_of_free fun w hw => ?_
  have hne : w ≠ v := by
    rintro rfl
    exact hoccurs hw
  rw [bind, if_neg hne]
  exact ht.free_of_occurs hw

omit hfree in
theorem agree_bind : Agree (bind σ v t) (.var v) t := by
  have hself := resolves_bind_self ht hoccurs
  exact ⟨t, .bound (if_pos rfl) hself, hself⟩

theorem Resolving.bind (htotal : Resolving σ) : Resolving (bind σ v t) := by
  intro x
  obtain ⟨r, hr⟩ := htotal x
  induction hr with
  | @bound w u _ hw _ ih =>
    obtain ⟨r, hr⟩ := ih
    exact ⟨r, .bound (extends_bind hfree w u hw) hr⟩
  | @free w hw =>
    by_cases hwv : w = v
    · subst hwv
      exact ⟨t, .bound (if_pos rfl) (resolves_bind_self ht hoccurs)⟩
    · exact ⟨.var w, .free ((if_neg hwv).trans hw)⟩
  | @node f args value _ ih =>
    obtain ⟨next, hnext⟩ := Resolves.exists_value ih
    exact ⟨_, .node next hnext⟩

end

end Sengoo.Terms
