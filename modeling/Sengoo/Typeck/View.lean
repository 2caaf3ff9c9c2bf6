import Sengoo.Terms
import Sengoo.Typeck.Infer

/-!
Types as first-order terms. The term of a type leaves out the origin tags and
the flag of variadic functions; below a `Future`, where neither the
substitution nor the occurs check goes, its variables are constants. Applying
the substitution is resolving the term.
-/

namespace Sengoo.Typeck

open Terms Fuel List

inductive Head where
  | kind (outline : TyKind Unit)
  | frozen (v : TyVarId)

abbrev TyTerm := Term Head TyVarId

namespace TyKind

variable {α β : Type}

/-- The kind without the flag of variadic functions. -/
def plain : TyKind α → TyKind α
  | fn params ret _ => .fn params ret false
  | kind => kind

/-- The substitution goes into the components of the kind. -/
def isOpen : TyKind α → Bool
  | var _ | future _ => false
  | _ => true

variable (kind : TyKind α)

@[simp] theorem children_plain : kind.plain.children = kind.children := by
  cases kind <;> rfl

@[simp] theorem outline_plain : kind.plain.outline = kind.outline.plain := by
  cases kind <;> rfl

@[simp] theorem plain_map (f : α → β) (kind : TyKind α) : (kind.map f).plain = kind.plain.map f := by
  cases kind <;> rfl

@[simp] theorem isOpen_plain : kind.plain.isOpen = kind.isOpen := by
  cases kind <;> rfl

@[simp] theorem isOpen_map (f : α → β) (kind : TyKind α) : (kind.map f).isOpen = kind.isOpen := by
  cases kind <;> rfl

@[simp] theorem isOpen_outline : kind.outline.isOpen = kind.isOpen :=
  isOpen_map _ kind

theorem shapes : (∃ v, kind = .var v) ∨ (∃ inner, kind = .future inner) ∨ kind.isOpen = true := by
  cases kind with
  | var v => exact .inl ⟨v, rfl⟩
  | future inner => exact .inr (.inl ⟨inner, rfl⟩)
  | _ => exact .inr (.inr rfl)

end TyKind

namespace Ty

/-- The term of a type, and the one without variables. -/
def viewStep (kind : TyKind (TyTerm × TyTerm)) : TyTerm × TyTerm :=
  let head := Head.kind kind.outline.plain
  match kind with
  | .var v => (.var v, .node (.frozen v) [])
  | .future inner => (.node head [inner.2], .node head [inner.2])
  | kind => (.node head (kind.children.map (·.1)), .node head (kind.children.map (·.2)))

def views : Ty → TyTerm × TyTerm := fold fun _ kind => viewStep kind

def view (ty : Ty) : TyTerm := ty.views.1

def frozen (ty : Ty) : TyTerm := ty.views.2

/-- The type without origin tags and flags of variadic functions. -/
def shape : Ty → Ty := fold fun _ kind => mk 0 kind.plain

variable (id : TyId)

theorem shape_mk (kind : TyKind Ty) : (mk id kind).shape = mk 0 (kind.plain.map shape) := by
  rw [shape, fold_mk, TyKind.plain_map]

@[simp] theorem view_future (inner : Ty) :
    (mk id (.future inner)).view = .node (.kind (.future ())) [inner.frozen] := rfl

variable {id : TyId} {kind : TyKind Ty}

theorem views_of_open (h : kind.isOpen = true) :
    (mk id kind).views = (.node (.kind kind.outline.plain) (kind.children.map view),
      .node (.kind kind.outline.plain) (kind.children.map frozen)) := by
  have hstep {kind : TyKind (TyTerm × TyTerm)} (h : kind.isOpen = true) :
      viewStep kind = (.node (.kind kind.outline.plain) (kind.children.map (·.1)),
        .node (.kind kind.outline.plain) (kind.children.map (·.2))) := by
    cases kind with
    | var v | future inner => cases h
    | _ => rfl
  rw [views, fold_mk, hstep ((TyKind.isOpen_map _ kind).trans h), TyKind.outline_map,
    TyKind.children_map, map_map, map_map]
  rfl

theorem view_of_open (h : kind.isOpen = true) :
    (mk id kind).view = .node (.kind kind.outline.plain) (kind.children.map view) :=
  congrArg Prod.fst (views_of_open h)

theorem frozen_of_open (h : kind.isOpen = true) :
    (mk id kind).frozen = .node (.kind kind.outline.plain) (kind.children.map frozen) :=
  congrArg Prod.snd (views_of_open h)

/-- Variables apart, both terms are a node with the outline as its head. -/
theorem var_or_views (kind : TyKind Ty) (id : TyId) : (∃ v, kind = .var v) ∨
    (mk id kind).view = .node (.kind kind.outline.plain)
        (kind.children.map (if kind.isOpen then view else frozen)) ∧
      (mk id kind).frozen = .node (.kind kind.outline.plain) (kind.children.map frozen) := by
  rcases kind.shapes with hvar | ⟨inner, rfl⟩ | hopen
  · exact .inl hvar
  · exact .inr ⟨rfl, rfl⟩
  · rw [if_pos hopen]
    exact .inr ⟨view_of_open hopen, frozen_of_open hopen⟩

/-! ### The term determines the type up to tags and flags -/

theorem shape_eq_of_children {id id' : TyId} {kind kind' : TyKind Ty}
    (houtline : kind.outline.plain = kind'.outline.plain)
    (hchildren : kind.children.map shape = kind'.children.map shape) :
    (mk id kind).shape = (mk id' kind').shape := by
  rw [shape_mk, shape_mk]
  refine congrArg (mk 0) (TyKind.ext ?_ ?_)
  · simpa using houtline
  · simpa using hchildren

theorem map_eq_of_map_eq {f : Ty → TyTerm} {types types' : List Ty}
    (ih : ∀ ty ∈ types, ∀ ty', f ty = f ty' → ty.shape = ty'.shape)
    (h : types.map f = types'.map f) : types.map shape = types'.map shape := by
  induction types generalizing types' with
  | nil =>
    cases types' with
    | nil => rfl
    | cons ty' types' => cases h
  | cons ty types hi =>
    cases types' with
    | nil => cases h
    | cons ty' types' =>
      obtain ⟨hty, htypes⟩ := forall_mem_cons.mp ih
      injection h with hhead htail
      rw [map_cons, map_cons, hty ty' hhead, hi htypes htail]

/-- Types with the same term, or the same one without variables, are the same but for tags and
flags. -/
theorem shape_of_views {ty ty' : Ty} (h : ty.view = ty'.view ∨ ty.frozen = ty'.frozen) :
    ty.shape = ty'.shape := by
  induction ty using Ty.induct generalizing ty' with
  | mk id kind ih =>
    obtain ⟨id', kind'⟩ := ty'
    rcases var_or_views kind id with ⟨v, rfl⟩ | ⟨hview, hfrozen⟩ <;>
      rcases var_or_views kind' id' with ⟨v', rfl⟩ | ⟨hview', hfrozen'⟩
    · rcases h with h | h <;> cases h <;> rfl
    · rw [hview', hfrozen'] at h
      rcases h with h | h <;> cases h
    · rw [hview, hfrozen] at h
      rcases h with h | h <;> cases h
    · rw [hview, hview', hfrozen, hfrozen'] at h
      rcases h with h | h <;> injection h with hhead hargs <;> injection hhead with houtline
      · have hopen := congrArg TyKind.isOpen houtline
        rw [TyKind.isOpen_plain, TyKind.isOpen_outline, TyKind.isOpen_plain,
          TyKind.isOpen_outline] at hopen
        rw [← hopen] at hargs
        refine shape_eq_of_children houtline (map_eq_of_map_eq (fun ty hty ty' heq => ?_) hargs)
        split at heq
        · exact ih ty hty (.inl heq)
        · exact ih ty hty (.inr heq)
      · exact shape_eq_of_children houtline
          (map_eq_of_map_eq (fun ty hty _ heq => ih ty hty (.inr heq)) hargs)

/-! ### The occurs check -/

variable (v : TyVarId)

theorem containsVar_var (w : TyVarId) :
    (mk id (.var w)).containsVar v = (w == v) := rfl

theorem containsVar_future (inner : Ty) :
    (mk id (.future inner)).containsVar v = false := rfl

theorem containsVar_of_open (h : kind.isOpen = true) :
    (mk id kind).containsVar v = kind.children.any (containsVar v) := by
  rw [containsVar, fold_mk]
  cases kind with
  | var v | future inner => cases h
  | _ => simp [TyKind.map, TyKind.children, Function.comp_def]

theorem not_occurs_frozen (ty : Ty) : ¬ Occurs v ty.frozen := by
  induction ty using Ty.induct with
  | mk id kind ih =>
    rcases var_or_views kind id with ⟨w, rfl⟩ | ⟨-, hfrozen⟩
    · exact fun hoccurs => nomatch occurs_node_iff.mp hoccurs
    · rw [hfrozen, occurs_node_iff]
      simpa using ih

theorem occurs_view_iff (ty : Ty) : Occurs v ty.view ↔ ty.containsVar v = true := by
  induction ty using Ty.induct with
  | mk id kind ih =>
    rcases kind.shapes with ⟨w, rfl⟩ | ⟨inner, rfl⟩ | hopen
    · rw [containsVar_var, beq_iff_eq]
      constructor
      · intro h
        cases h
        rfl
      · rintro rfl
        exact .here
    · simp [view_future, occurs_node_iff, not_occurs_frozen, containsVar_future]
    · rw [view_of_open hopen, containsVar_of_open v hopen, any_eq_true, occurs_node_iff]
      simp only [mem_map, exists_exists_and_eq_and]
      exact exists_congr fun ty => and_congr_right (ih ty)

theorem eq_var_of_view {ty : Ty} {v : TyVarId} (h : ty.view = .var v) :
    ∃ id, ty = mk id (.var v) := by
  obtain ⟨id, kind⟩ := ty
  rcases kind.shapes with ⟨w, rfl⟩ | ⟨inner, rfl⟩ | hopen
  · cases h
    exact ⟨id, rfl⟩
  · cases h
  · rw [view_of_open hopen] at h
    cases h

/-- Tags do not show in the term. -/
theorem views_erase (ty : Ty) : ty.erase.views = ty.views := fold_erase viewStep ty

theorem view_erase (ty : Ty) : ty.erase.view = ty.view := congrArg Prod.fst (views_erase ty)

theorem viewStep_plain (kind : TyKind (TyTerm × TyTerm)) : viewStep kind.plain = viewStep kind := by
  cases kind <;> rfl

/-- Nor do the flags of variadic functions. -/
theorem views_shape (ty : Ty) : ty.shape.views = ty.views := by
  induction ty using Ty.induct with
  | mk id kind ih =>
    rw [shape_mk, views, fold_mk, fold_mk, TyKind.map_map, ← TyKind.plain_map, viewStep_plain]
    exact congrArg viewStep (TyKind.map_congr ih)

theorem view_eq_iff_shape_eq {ty ty' : Ty} : ty.view = ty'.view ↔ ty.shape = ty'.shape := by
  refine ⟨fun h => shape_of_views (.inl h), fun h => ?_⟩
  have hviews := congrArg views h
  rw [views_shape, views_shape] at hviews
  exact congrArg Prod.fst hviews

end Ty

/-! ### Applying the substitution is resolving -/

theorem exists_forall₂ {α β : Type} {r : α → β → Prop} {items : List α}
    (h : ∀ item ∈ items, ∃ value, r item value) : ∃ values, List.Forall₂ r items values := by
  induction items with
  | nil => exact ⟨[], .nil⟩
  | cons item items ih =>
    obtain ⟨⟨value, hvalue⟩, hitems⟩ := forall_mem_cons.mp h
    obtain ⟨values, hvalues⟩ := ih hitems
    exact ⟨value :: values, .cons hvalue hvalues⟩

namespace TypeInfer

variable {infer : TypeInfer}

def bindings (infer : TypeInfer) : Bindings Head TyVarId := fun v => (infer.get v).map Ty.view

theorem substKind_of_open (apply : Ty → Option Ty) {kind : TyKind Ty} (h : kind.isOpen = true) :
    substKind apply kind = kind.mapM apply := by
  cases kind with
  | var v | future inner => cases h
  | _ => rfl

theorem substApply_of_open (infer : TypeInfer) (fuel : Nat) (id : TyId) {kind : TyKind Ty}
    (h : kind.isOpen = true) :
    infer.substApply (fuel + 1) (.mk id kind) =
      (kind.mapM (infer.substApply fuel)).map (.mk id) := by
  rw [← substKind_of_open _ h]
  cases kind with
  | var v => cases h
  | _ => rfl

theorem substApply_future (infer : TypeInfer) (fuel : Nat) (id : TyId) (inner : Ty) :
    infer.substApply (fuel + 1) (.mk id (.future inner)) = some (.mk id (.future inner)) := rfl

variable {v : TyVarId}

theorem substApply_free (h : infer.subst.lookup v = none) (fuel : Nat)
    (id : TyId) : infer.substApply (fuel + 1) (.mk id (.var v)) = some (.mk id (.var v)) := by
  simp only [substApply, h]

theorem substApply_bound {interned : InternedTyId}
    (h : infer.subst.lookup v = some interned) (fuel : Nat) (id : TyId) :
    infer.substApply (fuel + 1) (.mk id (.var v)) =
      (infer.interner.materialize interned).bind (infer.substApply fuel) := by
  simp only [substApply, h]

theorem resolves_of_substApply {fuel : Nat} {ty result : Ty}
    (h : infer.substApply fuel ty = some result) :
    Resolves infer.bindings ty.view result.view := by
  induction fuel generalizing ty result with
  | zero => cases h
  | succ fuel ih =>
    obtain ⟨id, kind⟩ := ty
    rcases kind.shapes with ⟨v, rfl⟩ | ⟨inner, rfl⟩ | hopen
    · cases hlookup : infer.subst.lookup v with
      | none =>
        rw [substApply_free hlookup] at h
        cases h
        refine .free ?_
        rw [bindings, get, hlookup]
        rfl
      | some interned =>
        rw [substApply_bound hlookup] at h
        obtain ⟨bound, hbound, h⟩ := Option.bind_eq_some_iff.mp h
        refine .bound ?_ (ih h)
        rw [bindings, get, hlookup, Option.bind_some, hbound]
        rfl
    · cases h
      refine .self_of_free fun v hv => ?_
      rw [Ty.occurs_view_iff] at hv
      cases hv
    · rw [substApply_of_open infer fuel id hopen] at h
      obtain ⟨kind', hkind', h⟩ := Option.map_eq_some_iff.mp h
      cases h
      obtain ⟨houtline, hchildren⟩ := TyKind.mapM_eq_some.mp hkind'
      have hopen' : kind'.isOpen = true := by
        rw [← TyKind.isOpen_outline, houtline, TyKind.isOpen_outline, hopen]
      rw [Ty.view_of_open hopen, Ty.view_of_open hopen', houtline]
      refine .of_forall₂ ?_
      rw [forall₂_map_left_iff, forall₂_map_right_iff]
      exact hchildren.imp fun _ _ => ih

/-- The handles in the substitution are the interner's, for types without tags. -/
def Owned (infer : TypeInfer) : Prop :=
  ∀ v interned, infer.subst.lookup v = some interned →
    ∃ ty, infer.interner.materialize interned = some ty ∧ ty.erase = ty

theorem applies_of_open {id : TyId} {kind kind' : TyKind Ty} (hopen : kind.isOpen = true)
    (houtline : kind'.outline = kind.outline)
    (hchildren : List.Forall₂ infer.AppliesTo kind.children kind'.children) :
    infer.AppliesTo (.mk id kind) (.mk id kind') := by
  have hsettles : List.Forall₂ (fun child value =>
      Settles (fun fuel => infer.substApply fuel child) value) kind.children
        (kind'.children.map some) := forall₂_map_right_iff.mpr hchildren
  obtain ⟨bound, hbound⟩ := Settles.forall₂ hsettles
  refine Settles.call (fun fuel => substApply_of_open infer fuel id hopen) ⟨bound, fun fuel hle => ?_⟩
  have hmapM : kind.mapM (infer.substApply fuel) = some kind' :=
    TyKind.mapM_eq_some.mpr ⟨houtline, forall₂_map_right_iff.mp (hbound fuel hle)⟩
  show (kind.mapM (infer.substApply fuel)).map (Ty.mk id) = _
  rw [hmapM]
  rfl

theorem applies_future (infer : TypeInfer) (id : TyId) (inner : Ty) :
    infer.AppliesTo (.mk id (.future inner)) (.mk id (.future inner)) :=
  .of_rounds 1 fun fuel => substApply_future infer fuel id inner

theorem applies_free (h : infer.subst.lookup v = none) (id : TyId) :
    infer.AppliesTo (.mk id (.var v)) (.mk id (.var v)) :=
  .of_rounds 1 fun fuel => substApply_free h fuel id

theorem lookup_of_bindings {term : TyTerm} (h : infer.bindings v = some term) :
    ∃ interned ty, infer.subst.lookup v = some interned ∧
      infer.interner.materialize interned = some ty ∧ ty.view = term := by
  obtain ⟨ty, hget, hview⟩ := Option.map_eq_some_iff.mp h
  obtain ⟨interned, hlookup, hty⟩ := Option.bind_eq_some_iff.mp hget
  exact ⟨interned, ty, hlookup, hty, hview⟩

theorem lookup_eq_none_iff (howned : infer.Owned) (v : TyVarId) :
    infer.bindings v = none ↔ infer.subst.lookup v = none := by
  rw [bindings, get]
  cases hlookup : infer.subst.lookup v with
  | none => simp
  | some interned =>
    obtain ⟨ty, hty, -⟩ := howned v interned hlookup
    simp [hty]

/-- Where resolving ends, applying the substitution returns. -/
theorem applies_of_resolves (howned : infer.Owned) {term result : TyTerm}
    (h : Resolves infer.bindings term result) {ty : Ty} (hty : ty.view = term) :
    ∃ ty', infer.AppliesTo ty ty' := by
  induction h generalizing ty with
  | @bound v t r hv _ ih =>
    obtain ⟨id, rfl⟩ := Ty.eq_var_of_view hty
    obtain ⟨interned, bound, hlookup, hbound, hview⟩ := lookup_of_bindings hv
    obtain ⟨ty', hty'⟩ := ih hview
    refine ⟨ty', Settles.call (fun fuel => ?_) hty'⟩
    rw [substApply_bound hlookup, hbound]
    rfl
  | @free v hv =>
    obtain ⟨id, rfl⟩ := Ty.eq_var_of_view hty
    exact ⟨_, applies_free ((lookup_eq_none_iff howned v).mp hv) id⟩
  | @node f args value hargs ih =>
    obtain ⟨id, kind⟩ := ty
    rcases kind.shapes with ⟨v, rfl⟩ | ⟨inner, rfl⟩ | hopen
    · cases hty
    · exact ⟨_, applies_future infer id inner⟩
    · rw [Ty.view_of_open hopen] at hty
      injection hty with _ hchildren
      have hall : ∀ child ∈ kind.children, ∃ child', infer.AppliesTo child child' := by
        intro child hchild
        exact ih child.view (hchildren ▸ mem_map_of_mem hchild) rfl
      obtain ⟨results, hresults⟩ := exists_forall₂ hall
      obtain ⟨kind', -, houtline, hkind'⟩ := TyKind.fill_spec
        (hresults.length_eq.symm.trans (TyKind.length_children_outline kind).symm)
      rw [← hkind'] at hresults
      exact ⟨.mk id kind', applies_of_open hopen houtline hresults⟩

/-- A type without bound variables is left as it is, tags included. -/
theorem applies_self {ty : Ty} (h : ∀ v, ty.containsVar v = true → infer.subst.lookup v = none) :
    infer.AppliesTo ty ty := by
  induction ty using Ty.induct with
  | mk id kind ih =>
    rcases kind.shapes with ⟨v, rfl⟩ | ⟨inner, rfl⟩ | hopen
    · exact applies_free (h v (by rw [Ty.containsVar_var, beq_self_eq_true])) id
    · exact applies_future infer id inner
    · refine applies_of_open hopen rfl (forall₂_same.mpr fun child hchild => ?_)
      refine ih child hchild fun v hv => h v ?_
      rw [Ty.containsVar_of_open v hopen]
      exact any_eq_true.mpr ⟨child, hchild, hv⟩

end TypeInfer

end Sengoo.Typeck
