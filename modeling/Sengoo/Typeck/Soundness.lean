import Sengoo.Typeck.Unify

/-!
Unification is sound: when it succeeds without an error and no part of the
types was absorbed by `Error` or `Never`, the two types have become the same,
and they stay the same however the substitution is extended afterwards.
-/

namespace Sengoo.Typeck

open Terms Fuel List

/-- The heads that go with every other. -/
def Absorbing (head : Head) : Prop := head = .kind .error ∨ head = .kind .never

/-- Nothing absorbing is left in what the term resolves to. -/
def Clean (τ : Bindings Head TyVarId) (term : TyTerm) : Prop :=
  ∀ result, Resolves τ term result → ¬ HasHead Absorbing result

section

variable {τ : Bindings Head TyVarId}

theorem Clean.child {head : Head} {args : List TyTerm} {term : TyTerm} (htotal : Resolving τ)
    (h : Clean τ (.node head args)) (hterm : term ∈ args) : Clean τ term := by
  intro result hresult habsorbing
  obtain ⟨value, hvalue⟩ := Resolves.exists_value fun term (_ : term ∈ args) => htotal term
  refine h _ (.node value hvalue) (.inside (mem_map_of_mem hterm) ?_)
  rw [(hvalue term hterm).unique hresult]
  exact habsorbing

/-- What a type resolved to earlier is as clean as the type. -/
theorem Clean.found {σ : Bindings Head TyVarId} {term found : TyTerm} (htotal : Resolving τ)
    (hle : Extends σ τ) (hfound : Resolves σ term found) (h : Clean τ term) : Clean τ found := by
  intro result hresult
  obtain ⟨result', hresult'⟩ := htotal term
  rw [hresult.unique (hfound.absorb hle hresult')]
  exact h result' hresult'

theorem not_clean_of_kind {ty : Ty} (h : ty.kind = .error ∨ ty.kind = .never) :
    ¬ Clean τ ty.view := by
  obtain ⟨id, kind⟩ := ty
  intro hclean
  rcases h with h | h <;> cases h
  · exact hclean _ (.node (fun term => term) nofun) (.here (.inl rfl))
  · exact hclean _ (.node (fun term => term) nofun) (.here (.inr rfl))

theorem agree_refl (htotal : Resolving τ) (term : TyTerm) : Agree τ term term := by
  obtain ⟨result, hresult⟩ := htotal term
  exact ⟨result, hresult, hresult⟩

end

namespace TypeInfer

/-- Errors that are gone at the end were never there. -/
theorem errors_between {first second third : TypeInfer} (h : Later first second)
    (h' : Later second third) (hsame : third.errors = first.errors) :
    second.errors = first.errors ∧ third.errors = second.errors := by
  obtain ⟨more, hmore⟩ := h.errors
  obtain ⟨more', hmore'⟩ := h'.errors
  rw [hmore', hmore, append_assoc] at hsame
  have hnil : more ++ more' = [] := append_cancel_left (hsame.trans (append_nil _).symm)
  obtain ⟨rfl, rfl⟩ := append_eq_nil_iff.mp hnil
  exact ⟨by rw [hmore, append_nil], by rw [hmore', append_nil]⟩

/-- A binding made without an error is an insertion. -/
theorem bindVar_of_errors {infer : TypeInfer} {v : TyVarId} {ty : Ty}
    (h : (infer.bindVar v ty).errors = infer.errors) :
    ty.containsVar v = false ∧ infer.bindVar v ty = infer.insert v ty := by
  unfold bindVar at h ⊢
  cases hoccurs : ty.containsVar v with
  | true =>
    rw [hoccurs] at h
    exact absurd h (by simp [insert, newTy, addError])
  | false => exact ⟨rfl, if_neg Bool.false_ne_true⟩

/-- After a binding without an error the variable and the type agree. -/
theorem agree_bindVar {infer : TypeInfer} {v : TyVarId} {ty : Ty} (hvalid : infer.Valid)
    (hty : Resolves infer.bindings ty.view ty.view)
    (herrors : (infer.bindVar v ty).errors = infer.errors) :
    Agree (infer.bindVar v ty).bindings (.var v) ty.view := by
  obtain ⟨hoccurs, hinsert⟩ := bindVar_of_errors herrors
  have hnot : ¬ Occurs v ty.view := by
    rw [Ty.occurs_view_iff, hoccurs]
    exact Bool.false_ne_true
  rw [hinsert, bindings_insert hvalid]
  exact agree_bind hty hnot

/-- A call that succeeds without an error makes the types agree, in every
later state that is clean of what absorbs. -/
def MakesAgree (unify : TypeInfer → Ty → Ty → Option Outcome) : Prop :=
  ∀ infer ty1 ty2 after, infer.Valid → unify infer ty1 ty2 = some (.ok (), after) →
    after.errors = infer.errors → ∀ τ, Resolving τ → Extends after.bindings τ →
      Clean τ ty1.view → Clean τ ty2.view → Agree τ ty1.view ty2.view

theorem agree_of_unifyEach {unify : TypeInfer → Ty → Ty → Option Outcome}
    (hlater : AlwaysLater unify) (hagree : MakesAgree unify)
    {infer after : TypeInfer} {types1 types2 : List Ty} (hlength : types1.length = types2.length)
    (hvalid : infer.Valid)
    (h : unifyEach unify infer (types1.zip types2) = some (.ok (), after))
    (herrors : after.errors = infer.errors) {τ : Bindings Head TyVarId} (htotal : Resolving τ)
    (hle : Extends after.bindings τ) (hclean1 : ∀ ty ∈ types1, Clean τ ty.view)
    (hclean2 : ∀ ty ∈ types2, Clean τ ty.view) :
    List.Forall₂ (Agree τ) (types1.map Ty.view) (types2.map Ty.view) := by
  induction types1 generalizing types2 infer with
  | nil =>
    cases length_eq_zero_iff.mp hlength.symm
    exact .nil
  | cons ty1 types1 ih =>
    obtain ⟨ty2, types2, rfl⟩ := exists_cons_of_length_eq_add_one hlength.symm
    obtain ⟨hhead1, htail1⟩ := forall_mem_cons.mp hclean1
    obtain ⟨hhead2, htail2⟩ := forall_mem_cons.mp hclean2
    rcases unifyEach_cons h with ⟨error, _, -, hfail⟩ | ⟨between, hok, hrest⟩
    · cases hfail
    · have hfirst := hlater _ _ _ _ hvalid hok
      have hsecond := later_unifyEach hlater hfirst.valid hrest
      obtain ⟨hbefore, hbehind⟩ := errors_between hfirst hsecond herrors
      refine .cons ?_ (ih (Nat.succ.inj hlength) hfirst.valid hrest hbehind htail1 htail2)
      exact hagree _ _ _ _ hvalid hok hbefore τ htotal (hsecond.keeps.trans hle) hhead1 hhead2

theorem makesAgree_unifyInPlace (fuel : Nat) : MakesAgree (unifyInPlace fuel) := by
  induction fuel with
  | zero => intro infer ty1 ty2 after _ h; cases h
  | succ fuel ih =>
    intro infer ty1 ty2 after hvalid h herrors τ htotal hle hclean1 hclean2
    have hafter := later_unifyInPlace hvalid h
    obtain ⟨found1, found2, hfound1, hfound2, hcases⟩ := unifyInPlace_succ h
    have hresolves1 := resolves_of_substApply hfound1
    have hresolves2 := resolves_of_substApply hfound2
    have hkeeps := hafter.keeps.trans hle
    have hfoundClean1 := hclean1.found htotal hkeeps hresolves1
    have hfoundClean2 := hclean2.found htotal hkeeps hresolves2
    refine Agree.of_resolved htotal hkeeps hresolves1 hresolves2 ?_
    rcases hcases with ⟨hsame, -⟩ | ⟨-, hplan⟩
    · rw [hsame]
      exact agree_refl htotal _
    · have hplanned := planned found1 found2
      generalize plan found1 found2 = decision at hplanned hplan
      cases hplanned with
      | absorbed habsorbed =>
        rcases habsorbed with hkind | hkind | hkind | hkind
        · exact absurd hfoundClean1 (not_clean_of_kind (.inl hkind))
        · exact absurd hfoundClean2 (not_clean_of_kind (.inl hkind))
        · exact absurd hfoundClean1 (not_clean_of_kind (.inr hkind))
        · exact absurd hfoundClean2 (not_clean_of_kind (.inr hkind))
      | same hview =>
        rw [hview]
        exact agree_refl htotal _
      | rejected error => cases hplan
      | left hview =>
        cases hplan
        rw [hview]
        exact (agree_bindVar hvalid hresolves2.self herrors).mono htotal hle
      | right hview =>
        cases hplan
        rw [hview]
        exact ((agree_bindVar hvalid hresolves1.self herrors).mono htotal hle).symm
      | one _ _ hview1 hview2 =>
        rw [hview1] at hfoundClean1 ⊢
        rw [hview2] at hfoundClean2 ⊢
        refine .node (.cons ?_ .nil)
        exact ih _ _ _ _ hvalid hplan herrors τ htotal hle
          (hfoundClean1.child htotal (mem_singleton_self _))
          (hfoundClean2.child htotal (mem_singleton_self _))
      | many hlength hview1 hview2 =>
        rw [hview1] at hfoundClean1 ⊢
        rw [hview2] at hfoundClean2 ⊢
        refine .node (agree_of_unifyEach (fun _ _ _ _ => later_unifyInPlace) ih hlength hvalid
          hplan herrors htotal hle ?_ ?_)
        · exact fun ty hty => hfoundClean1.child htotal (mem_map_of_mem hty)
        · exact fun ty hty => hfoundClean2.child htotal (mem_map_of_mem hty)

end TypeInfer

/-! ### Types that are the same -/

namespace TyKind

variable {α β : Type}

def isAbsorbing : TyKind α → Bool
  | error | never => true
  | _ => false

@[simp] theorem isAbsorbing_map (f : α → β) (kind : TyKind α) :
    (kind.map f).isAbsorbing = kind.isAbsorbing := by
  cases kind <;> rfl

@[simp] theorem isAbsorbing_plain (kind : TyKind α) : kind.plain.isAbsorbing = kind.isAbsorbing := by
  cases kind <;> rfl

theorem isAbsorbing_of_head {kind : TyKind α} (h : Absorbing (.kind kind.outline.plain)) :
    kind.isAbsorbing = true := by
  have houtline : kind.outline.plain.isAbsorbing = true := by
    rcases h with h | h <;> injection h with h <;> rw [h] <;> rfl
  rwa [isAbsorbing_plain, outline, isAbsorbing_map] at houtline

end TyKind

/-- Some part of the type is `Error` or `Never`. -/
def Ty.containsAbsorbing : Ty → Bool :=
  Ty.fold fun _ kind => kind.isAbsorbing || kind.children.any (·)

theorem Ty.containsAbsorbing_mk (id : TyId) (kind : TyKind Ty) : (Ty.mk id kind).containsAbsorbing =
      (kind.isAbsorbing || kind.children.any Ty.containsAbsorbing) := by
  rw [containsAbsorbing, fold_mk, TyKind.isAbsorbing_map, TyKind.children_map, any_map]
  rfl

theorem containsAbsorbing_of_hasHead {ty : Ty}
    (h : HasHead Absorbing ty.view ∨ HasHead Absorbing ty.frozen) :
    ty.containsAbsorbing = true := by
  induction ty using Ty.induct with
  | mk id kind ih =>
    rw [Ty.containsAbsorbing_mk, Bool.or_eq_true, any_eq_true]
    -- both terms of a kind have its outline as their head
    have hnode {part : Ty → TyTerm} (hpart : ∀ ty ∈ kind.children,
        HasHead Absorbing (part ty) → ty.containsAbsorbing = true)
        (h : HasHead Absorbing (.node (.kind kind.outline.plain) (kind.children.map part))) :
        kind.isAbsorbing = true ∨ ∃ ty ∈ kind.children, ty.containsAbsorbing = true := by
      rcases hasHead_node_iff.mp h with hhead | ⟨term, hterm, h⟩
      · exact .inl (TyKind.isAbsorbing_of_head hhead)
      · obtain ⟨ty, hty, rfl⟩ := mem_map.mp hterm
        exact .inr ⟨ty, hty, hpart ty hty h⟩
    have hview := fun ty hty hhead => ih ty hty (.inl hhead)
    have hfrozen := fun ty hty hhead => ih ty hty (.inr hhead)
    rcases kind.shapes with ⟨v, rfl⟩ | ⟨inner, rfl⟩ | hopen
    · rcases h with h | h
      · exact absurd h (not_hasHead_var v)
      · rcases hasHead_node_iff.mp h with (hhead | hhead) | ⟨_, hmem, _⟩
        · cases hhead
        · cases hhead
        · cases hmem
    · rcases h with h | h <;> exact hnode hfrozen h
    · rcases h with h | h
      · rw [Ty.view_of_open hopen] at h
        exact hnode hview h
      · rw [Ty.frozen_of_open hopen] at h
        exact hnode hfrozen h

namespace TypeInfer

variable {infer after : TypeInfer} {ty ty1 ty2 result result1 result2 : Ty}

theorem AppliesTo.resolves (h : infer.AppliesTo ty result) :
    Resolves infer.bindings ty.view result.view := by
  obtain ⟨fuel, hfuel⟩ := h.at_bound
  exact resolves_of_substApply hfuel

theorem Valid.exists_applies (h : infer.Valid) (ty : Ty) : ∃ result, infer.AppliesTo ty result := by
  obtain ⟨term, hterm⟩ := h.resolving ty.view
  exact applies_of_resolves h.owned hterm rfl

theorem agree_iff_shape_eq (h1 : infer.AppliesTo ty1 result1) (h2 : infer.AppliesTo ty2 result2) :
    Agree infer.bindings ty1.view ty2.view ↔ result1.shape = result2.shape := by
  rw [← Ty.view_eq_iff_shape_eq]
  constructor
  · rintro ⟨term, hterm1, hterm2⟩
    rw [h1.resolves.unique hterm1, h2.resolves.unique hterm2]
  · intro hview
    exact ⟨result1.view, h1.resolves, hview ▸ h2.resolves⟩

theorem clean_of_applies (h : infer.AppliesTo ty result)
    (hresult : result.containsAbsorbing = false) : Clean infer.bindings ty.view := by
  intro term hterm hhead
  rw [← h.resolves.unique hterm] at hhead
  rw [containsAbsorbing_of_hasHead (.inl hhead)] at hresult
  cases hresult

/-- Types that are the same stay the same. -/
theorem shape_eq_of_later {later : TypeInfer} (hlater : infer.Later later)
    (h1 : infer.AppliesTo ty1 result1) (h2 : infer.AppliesTo ty2 result2)
    (hsame : result1.shape = result2.shape) :
    ∃ later1 later2, later.AppliesTo ty1 later1 ∧ later.AppliesTo ty2 later2 ∧
      later1.shape = later2.shape := by
  obtain ⟨later1, hlater1⟩ := hlater.valid.exists_applies ty1
  obtain ⟨later2, hlater2⟩ := hlater.valid.exists_applies ty2
  refine ⟨later1, later2, hlater1, hlater2, (agree_iff_shape_eq hlater1 hlater2).mp ?_⟩
  exact ((agree_iff_shape_eq h1 h2).mpr hsame).mono hlater.valid.resolving hlater.keeps

theorem Unifies.later {outcome : Except InferError Unit} (h : infer.Unifies ty1 ty2 outcome after)
    (hvalid : infer.Valid) : infer.Later after := by
  obtain ⟨fuel, hfuel⟩ := h.at_bound
  exact later_unifyInPlace hvalid hfuel

/-- A unification that succeeds without an error makes its types the same up
to tags and variadic flags, unless something in them absorbs; and types that
were the same at any earlier time are the same after it. -/
theorem unify_sound (hreach : Reachable infer) (h : infer.Unifies ty1 ty2 (.ok ()) after)
    (herrors : after.errors = infer.errors) :
    (∃ result1 result2, after.AppliesTo ty1 result1 ∧ after.AppliesTo ty2 result2 ∧
      (result1.containsAbsorbing = false → result2.containsAbsorbing = false →
        result1.shape = result2.shape)) ∧
    ∀ earlier calls, Reachable earlier → History.Run Step earlier calls infer →
      .resetSubst ∉ calls → ∀ old1 old2 before1 before2, earlier.AppliesTo old1 before1 →
        earlier.AppliesTo old2 before2 → before1.shape = before2.shape →
          ∃ result1 result2, after.AppliesTo old1 result1 ∧ after.AppliesTo old2 result2 ∧
            result1.shape = result2.shape := by
  have hafter := h.later hreach.valid
  constructor
  · obtain ⟨result1, hresult1⟩ := hafter.valid.exists_applies ty1
    obtain ⟨result2, hresult2⟩ := hafter.valid.exists_applies ty2
    refine ⟨result1, result2, hresult1, hresult2, fun hclean1 hclean2 => ?_⟩
    obtain ⟨fuel, hfuel⟩ := h.at_bound
    refine (agree_iff_shape_eq hresult1 hresult2).mp ?_
    exact makesAgree_unifyInPlace fuel infer ty1 ty2 after hreach.valid hfuel herrors
      after.bindings hafter.valid.resolving (.refl _)
      (clean_of_applies hresult1 hclean1) (clean_of_applies hresult2 hclean2)
  · intro earlier calls hearlier hrun hcalls old1 old2 before1 before2 hbefore1 hbefore2 hsame
    have hlater := later_of_run hrun hearlier.valid hcalls
    exact shape_eq_of_later (hlater.trans hafter) hbefore1 hbefore2 hsame

theorem unify_sound_variable :
    ∃ result1 result2,
      (empty.bindVar 0 (.mk 2 .bool)).AppliesTo (.mk 1 (.tuple [.mk 1 (.var 0)])) result1 ∧
      (empty.bindVar 0 (.mk 2 .bool)).AppliesTo (.mk 3 (.tuple [.mk 2 .bool])) result2 ∧
      (result1.containsAbsorbing = false → result2.containsAbsorbing = false →
        result1.shape = result2.shape) := by
  have hunifies : empty.Unifies (.mk 1 (.tuple [.mk 1 (.var 0)])) (.mk 3 (.tuple [.mk 2 .bool]))
      (.ok ()) (empty.bindVar 0 (.mk 2 .bool)) := .of_rounds 4 fun _ => rfl
  exact (unify_sound reachable_empty hunifies rfl).1

end TypeInfer

end Sengoo.Typeck
