import Sengoo.Typeck.Resolution

/-!
What origin tags do to unification. Types are compared with their tags before
anything else, and bound types come back with all tags zero. A variable, an
opaque or a placeholder type that differs from an equal one only in its tag is
then no longer the same type: the variable is taken for a cycle and bound to
`Error`, the others for a mismatch. Other tags change nothing.
-/

namespace Sengoo.Typeck

open Terms Fuel List Option

namespace TyKind

variable {α β : Type}

/-- Two types of the kind are accepted only when they are equal with their tags. -/
def isRigid : TyKind α → Bool
  | var _ | dyn _ | implTrait _ | future _ | selfType | inferred => true
  | _ => false

@[simp] theorem isRigid_map (f : α → β) (kind : TyKind α) : (kind.map f).isRigid = kind.isRigid := by
  cases kind <;> rfl

theorem isRigid_of_outline {kind kind' : TyKind α} (h : kind'.outline = kind.outline) :
    kind'.isRigid = kind.isRigid := by
  rw [← isRigid_map (fun _ => ()) kind', ← isRigid_map (fun _ => ()) kind]
  exact congrArg isRigid h

theorem isOpen_of_not_rigid {kind : TyKind α} (h : kind.isRigid = false) : kind.isOpen = true := by
  cases kind with
  | var v | future inner => cases h
  | _ => rfl

end TyKind

/-- Two types are accepted as the same: equal parts have equal tags wherever
they are rigid. -/
inductive Meets : Ty → Ty → Prop where
  | refl (ty : Ty) : Meets ty ty
  | node {id id' : TyId} {kind kind' : TyKind Ty} : kind.isRigid = false →
      kind'.outline = kind.outline →
      (∀ pair ∈ kind.children.zip kind'.children, Meets pair.1 pair.2) →
      Meets (.mk id kind) (.mk id' kind')

theorem length_of_outline {kind kind' : TyKind Ty} (h : kind'.outline = kind.outline) :
    kind.children.length = kind'.children.length := by
  rw [← TyKind.length_children_outline, ← h, TyKind.length_children_outline]

namespace Meets

theorem outline_children {ty ty' : Ty} (h : Meets ty ty') :
    ty'.kind.outline = ty.kind.outline ∧ Forall₂ Meets ty.kind.children ty'.kind.children := by
  cases h with
  | refl => exact ⟨rfl, forall₂_same.mpr fun child _ => .refl child⟩
  | node _ houtline hchildren =>
    exact ⟨houtline, forall₂_iff_zip.mpr ⟨length_of_outline houtline, hchildren _⟩⟩

theorem of_children {id id' : TyId} {kind kind' : TyKind Ty} (hrigid : kind.isRigid = false)
    (houtline : kind'.outline = kind.outline) (h : Forall₂ Meets kind.children kind'.children) :
    Meets (.mk id kind) (.mk id' kind') :=
  .node hrigid houtline fun _ hpair => (forall₂_iff_zip.mp h).2 hpair

theorem symm {ty ty' : Ty} (h : Meets ty ty') : Meets ty' ty := by
  induction h with
  | refl ty => exact .refl ty
  | node hrigid houtline hchildren ih =>
    refine .of_children ((TyKind.isRigid_of_outline houtline).trans hrigid) houtline.symm ?_
    exact (forall₂_iff_zip.mpr ⟨length_of_outline houtline, ih _⟩).flip

theorem trans {ty₁ ty₂ ty₃ : Ty} (h : Meets ty₁ ty₂) (h' : Meets ty₂ ty₃) : Meets ty₁ ty₃ := by
  induction h generalizing ty₃ with
  | refl ty => exact h'
  | @node id id' kind kind' hrigid houtline hchildren ih =>
    obtain ⟨id'', kind''⟩ := ty₃
    obtain ⟨houtline', hrest⟩ := h'.outline_children
    refine .of_children hrigid (houtline'.trans houtline) ?_
    have hstep : Forall₂ (fun child child' => ∀ {last}, Meets child' last → Meets child last)
        kind.children kind'.children :=
      forall₂_iff_zip.mpr ⟨length_of_outline houtline, fun hpair _ => ih _ hpair⟩
    simp only [Ty.kind] at hrest
    generalize kind.children = first, kind'.children = middle at hstep hrest
    generalize kind''.children = last at hrest
    induction hstep generalizing last with
    | nil =>
      cases hrest
      exact .nil
    | cons hhead _ hi =>
      cases hrest with
      | cons hfirst hrest => exact .cons (hhead hfirst) (hi _ hrest)

/-- The components that two calls compare one after the other. -/
theorem zip {types types' others others' : List Ty} (h : Forall₂ Meets types types')
    (h' : Forall₂ Meets others others') :
    Forall₂ (fun pair pair' => Meets pair.1 pair'.1 ∧ Meets pair.2 pair'.2) (types.zip others)
      (types'.zip others') := by
  induction h generalizing others others' with
  | nil => exact .nil
  | cons hhead _ ih =>
    cases h' with
    | nil => exact .nil
    | cons hhead' hrest => exact .cons ⟨hhead, hhead'⟩ (ih hrest)

end Meets

/-! ### Erasing tags -/

section

theorem TyInterner.internTy_erase (ty : Ty) :
    TyInterner.internTy ty.erase = TyInterner.internTy ty := Ty.fold_erase _ ty

theorem Ty.containsVar_erase (v : TyVarId) (ty : Ty) : ty.erase.containsVar v = ty.containsVar v :=
  Ty.fold_erase _ ty

theorem eq_of_mem_zip {types types' : List Ty} (h : types.map Ty.erase = types'.map Ty.erase)
    {pair : Ty × Ty} (hpair : pair ∈ types.zip types') : pair.1.erase = pair.2.erase := by
  induction types generalizing types' with
  | nil => cases hpair
  | cons ty types ih =>
    cases types' with
    | nil => cases hpair
    | cons ty' types' =>
      injection h with hhead htail
      rcases mem_cons.mp hpair with rfl | hpair
      · exact hhead
      · exact ih htail hpair

theorem Meets.erase_eq {ty ty' : Ty} (h : Meets ty ty') : ty.erase = ty'.erase := by
  induction h with
  | refl => rfl
  | @node id id' kind kind' _ houtline _ ih =>
    rw [Ty.erase_mk, Ty.erase_mk]
    refine congrArg (Ty.mk 0) (TyKind.ext ?_ ?_)
    · rw [TyKind.outline_map, TyKind.outline_map, houtline]
    · rw [TyKind.children_map, TyKind.children_map]
      exact forall₂_eq_eq_eq ▸ forall₂_map_left_iff.mpr (forall₂_map_right_iff.mpr
        (forall₂_iff_zip.mpr ⟨length_of_outline houtline, ih _⟩))

theorem outline_of_erase {id id' : TyId} {kind kind' : TyKind Ty}
    (h : (Ty.mk id kind).erase = (Ty.mk id' kind').erase) :
    kind'.outline = kind.outline ∧ kind.children.map Ty.erase = kind'.children.map Ty.erase := by
  rw [Ty.erase_mk, Ty.erase_mk, Ty.mk.injEq] at h
  constructor
  · rw [← TyKind.outline_map Ty.erase kind', ← h.2, TyKind.outline_map]
  · rw [← TyKind.children_map, h.2, TyKind.children_map]

end

namespace TypeInfer

variable {infer : TypeInfer}

theorem mapM_erase {apply : Ty → Option Ty} {kind : TyKind Ty}
    (h : ∀ child ∈ kind.children, apply child.erase = (apply child).map Ty.erase) :
    (kind.map Ty.erase).mapM apply = (kind.mapM apply).map (TyKind.map Ty.erase) := by
  have hlist : (kind.children.map Ty.erase).mapM apply =
      (kind.children.mapM apply).map (List.map Ty.erase) := by
    generalize kind.children = children at h
    induction children with
    | nil => rfl
    | cons child children ih =>
      obtain ⟨hchild, hchildren⟩ := forall_mem_cons.mp h
      rw [map_cons, mapM_cons, mapM_cons, hchild, ih hchildren]
      cases apply child with
      | none => rfl
      | some result => cases children.mapM apply <;> rfl
  rw [TyKind.mapM_eq, TyKind.mapM_eq, TyKind.children_map, TyKind.outline_map, hlist]
  cases kind.children.mapM apply with
  | none => rfl
  | some results =>
    show some ((kind.outline.fill (results.map Ty.erase)).getD .error) =
      some (((kind.outline.fill results).getD .error).map Ty.erase)
    rw [TyKind.fill_map]
    cases kind.outline.fill results <;> rfl

/-- Applying the substitution and erasing tags commute. -/
theorem substApply_erase (howned : infer.Owned) (fuel : Nat) (ty : Ty) :
    infer.substApply fuel ty.erase = (infer.substApply fuel ty).map Ty.erase := by
  induction fuel generalizing ty with
  | zero => rfl
  | succ fuel ih =>
    obtain ⟨id, kind⟩ := ty
    rw [Ty.erase_mk]
    rcases kind.shapes with ⟨v, rfl⟩ | ⟨inner, rfl⟩ | hopen
    · show infer.substApply (fuel + 1) (.mk 0 (.var v)) = _
      cases hlookup : infer.subst.lookup v with
      | none =>
        rw [substApply_free hlookup, substApply_free hlookup]
        rfl
      | some interned =>
        obtain ⟨bound, hbound, herase⟩ := howned v interned hlookup
        rw [substApply_bound hlookup, substApply_bound hlookup, hbound]
        have hih := ih bound
        rwa [herase] at hih
    · rfl
    · have hopen' : (kind.map Ty.erase).isOpen = true := (TyKind.isOpen_map _ kind).trans hopen
      rw [substApply_of_open infer fuel 0 hopen', substApply_of_open infer fuel id hopen]
      have hmapM : (kind.map Ty.erase).mapM (infer.substApply fuel) =
          (kind.mapM (infer.substApply fuel)).map (TyKind.map Ty.erase) :=
        mapM_erase fun child _ => ih child
      rw [hmapM, Option.map_map, Option.map_map]
      exact congrArg (Option.map · _) (funext fun kind => (Ty.erase_mk id kind).symm)

end TypeInfer

/-! ### The decision without tags -/

def InferError.erase : InferError → InferError
  | typeMismatch expected found => .typeMismatch (expected.map Ty.erase) (found.map Ty.erase)
  | error => error

def Plan.erase : Plan → Plan
  | accept => .accept
  | reject error => .reject error.erase
  | bind v ty => .bind v ty.erase
  | descend ty1 ty2 => .descend ty1.erase ty2.erase
  | each pairs => .each (pairs.map fun pair => (pair.1.erase, pair.2.erase))

theorem plan_erase (ty1 ty2 : Ty) : plan ty1.erase ty2.erase = (plan ty1 ty2).erase := by
  obtain ⟨id1, kind1⟩ := ty1
  obtain ⟨id2, kind2⟩ := ty2
  rw [Ty.erase_mk, Ty.erase_mk]
  cases kind1 <;> cases kind2 <;> first
    | rfl
    | exact congrArg (Plan.bind _) (Ty.erase_mk _ _).symm
    | dsimp only [plan, Ty.kind, TyKind.map]
  case int.int | float.float | ref.ref | assocProjection.assocProjection => split <;> rfl
  case array.array elem1 n1 elem2 n2 =>
    split
    · rfl
    · dsimp only [Plan.erase]
      rfl
  case tuple.tuple types1 types2 =>
    rw [length_map, length_map, zip_map]
    split <;> rfl
  case fn.fn params1 ret1 isVariadic1 params2 ret2 isVariadic2 =>
    rw [length_map, length_map, zip_map]
    split
    · dsimp only [Plan.erase]
      rw [map_append]
      rfl
    · rfl
  case adt.adt name1 args1 name2 args2 =>
    rw [length_map, length_map, zip_map]
    split
    · split <;> rfl
    · rfl

/-! ### The decision on kinds with one outline -/

variable {kind kind' : TyKind Ty}

/-- Kinds that are not rigid are compared by their components. -/
theorem plan_of_outline (hrigid : kind.isRigid = false)
    (houtline : kind'.outline = kind.outline) (id id' : TyId) :
    kind.children = [] ∧ plan (.mk id kind) (.mk id' kind') = .accept ∨
      (∃ child child', kind.children = [child] ∧ kind'.children = [child'] ∧
        plan (.mk id kind) (.mk id' kind') = .descend child child') ∨
      plan (.mk id kind) (.mk id' kind') = .each (kind.children.zip kind'.children) := by
  have hfill := TyKind.fill_outline kind'
  have hlength := length_of_outline houtline
  rw [houtline] at hfill
  cases kind with
  | var | dyn | implTrait | future | selfType | inferred => cases hrigid
  | error | unit | never | bool | char | str | byte | bytes =>
    cases hfill
    exact .inl ⟨rfl, rfl⟩
  | int kind | float kind =>
    cases hfill
    exact .inl ⟨rfl, if_pos rfl⟩
  | tuple types =>
    obtain ⟨types', rfl⟩ : ∃ types', kind' = .tuple types' := ⟨_, (Option.some.inj hfill).symm⟩
    exact .inr (.inr (if_pos hlength))
  | adt name args =>
    obtain ⟨args', rfl⟩ : ∃ args', kind' = .adt name args' := ⟨_, (Option.some.inj hfill).symm⟩
    exact .inr (.inr ((if_pos rfl).trans (if_pos hlength)))
  | fn params ret isVariadic =>
    obtain ⟨ret', -, hkind'⟩ := map_eq_some_iff.mp hfill
    obtain ⟨params', rfl⟩ : ∃ params', kind' = .fn params' ret' isVariadic := ⟨_, hkind'.symm⟩
    have hparams : params.length = params'.length := by
      simpa [TyKind.children] using hlength
    have hzip : (params ++ [ret]).zip (params' ++ [ret']) =
        params.zip params' ++ [(ret, ret')] := zip_append hparams
    refine .inr (.inr ((if_pos hparams).trans ?_))
    exact congrArg Plan.each hzip.symm
  | slice elem | ptr inner =>
    obtain ⟨child', -, rfl⟩ := map_eq_some_iff.mp hfill
    exact .inr (.inl ⟨_, child', rfl, rfl, rfl⟩)
  | array elem n | ref isMut inner =>
    obtain ⟨child', -, rfl⟩ := map_eq_some_iff.mp hfill
    exact .inr (.inl ⟨_, child', rfl, rfl, if_pos rfl⟩)
  | assocProjection base traitName name =>
    obtain ⟨child', -, rfl⟩ := map_eq_some_iff.mp hfill
    exact .inr (.inl ⟨_, child', rfl, rfl, if_pos ⟨rfl, rfl⟩⟩)

/-- Rigid kinds are not looked into: a variable meets itself, all else is refused. -/
theorem plan_of_rigid (hrigid : kind.isRigid = true)
    (houtline : kind'.outline = kind.outline) (id id' : TyId) :
    (∃ v, kind' = .var v ∧ plan (.mk id kind) (.mk id' kind') = .bind v (.mk id' kind')) ∨
      ∃ error, plan (.mk id kind) (.mk id' kind') = .reject error := by
  have hfill := TyKind.fill_outline kind'
  rw [houtline] at hfill
  cases kind with
  | var v =>
    cases hfill
    exact .inl ⟨v, rfl, rfl⟩
  | dyn | implTrait | selfType | inferred =>
    cases hfill
    exact .inr ⟨_, rfl⟩
  | future inner =>
    obtain ⟨inner', -, rfl⟩ := map_eq_some_iff.mp hfill
    exact .inr ⟨_, rfl⟩
  | _ => cases hrigid

namespace TypeInfer

variable {infer after : TypeInfer}

/-! ### Calls from the calls they make -/

theorem unifies_of_equal {ty1 ty2 found : Ty} (h1 : infer.AppliesTo ty1 found)
    (h2 : infer.AppliesTo ty2 found) : infer.Unifies ty1 ty2 (.ok ()) infer := by
  obtain ⟨fuel, hfound⟩ := (h1.both h2).at_bound
  simp only [Prod.mk.injEq] at hfound
  exact unifies_of_some ((unifyInPlace_of_found hfound.1 hfound.2).trans (if_pos rfl))

variable {result : Except InferError Unit} {ty found : Ty} {pairs : List (Ty × Ty)}
  {unify : TypeInfer → Ty → Ty → Option Outcome}

theorem unifies_of_plan {ty1 ty2 found1 found2 : Ty}
    (h1 : infer.AppliesTo ty1 found1) (h2 : infer.AppliesTo ty2 found2) (hdiffer : found1 ≠ found2)
    (h : Settles (fun fuel => carryOut (unifyInPlace fuel) infer (plan found1 found2))
      (some (result, after))) : infer.Unifies ty1 ty2 result after := by
  obtain ⟨fuel, hfound⟩ := ((h1.both h2).both h).at_bound
  simp only [Prod.mk.injEq] at hfound
  refine unifies_of_some ((unifyInPlace_of_found hfound.1.1 hfound.1.2).trans ?_)
  exact (if_neg hdiffer).trans hfound.2

/-- What a loop settles on. -/
def EachUnifies (infer : TypeInfer) (pairs : List (Ty × Ty)) (result : Except InferError Unit)
    (after : TypeInfer) : Prop :=
  Settles (fun fuel => unifyEach (unifyInPlace fuel) infer pairs) (some (result, after))

theorem EachUnifies.cons_ok {between : TypeInfer} {ty1 ty2 : Ty} {rest : List (Ty × Ty)}
    (h : infer.Unifies ty1 ty2 (.ok ()) between)
    (hrest : between.EachUnifies rest result after) :
    infer.EachUnifies ((ty1, ty2) :: rest) result after := by
  obtain ⟨bound, hbound⟩ := h.both hrest
  refine ⟨bound, fun fuel hle => ?_⟩
  have hboth := hbound fuel hle
  simp only [Prod.mk.injEq] at hboth
  simp only [unifyEach, hboth.1, hboth.2]

theorem EachUnifies.cons_error {failed : TypeInfer} {ty1 ty2 : Ty} {error : InferError}
    (h : infer.Unifies ty1 ty2 (.error error) failed) (rest : List (Ty × Ty)) :
    infer.EachUnifies ((ty1, ty2) :: rest) (.error error) { failed with subst := infer.subst } := by
  obtain ⟨bound, hbound⟩ := h
  refine ⟨bound, fun fuel hle => ?_⟩
  have hfail := hbound fuel hle
  simp only [unifyEach, hfail]

/-! ### Types that are the same but for tags -/

/-- Types that are the same without their tags have resolved forms that are. -/
theorem substApply_alike (howned : infer.Owned) {fuel : Nat} {ty' : Ty} (hsame : ty.erase = ty'.erase)
    (h : infer.substApply fuel ty = some found) :
    ∃ found', infer.substApply fuel ty' = some found' ∧ found.erase = found'.erase := by
  have hcommute := substApply_erase howned fuel ty'
  rw [← hsame, substApply_erase howned, h] at hcommute
  obtain ⟨found', hfound', herase⟩ := map_eq_some_iff.mp hcommute.symm
  exact ⟨found', hfound', herase.symm⟩

/-- Types that meet have resolved forms that meet. -/
theorem meets_of_substApply {fuel : Nat} {ty' found' : Ty} (hmeets : Meets ty ty')
    (h : infer.substApply fuel ty = some found) (h' : infer.substApply fuel ty' = some found') :
    Meets found found' := by
  induction fuel generalizing ty ty' found found' with
  | zero => cases h
  | succ fuel ih =>
    cases hmeets with
    | refl =>
      cases h.symm.trans h'
      exact .refl found
    | @node id id' kind kind' hrigid houtline hchildren =>
      have hrigid' := (TyKind.isRigid_of_outline houtline).trans hrigid
      rw [substApply_of_open infer fuel id (TyKind.isOpen_of_not_rigid hrigid)] at h
      rw [substApply_of_open infer fuel id' (TyKind.isOpen_of_not_rigid hrigid')] at h'
      obtain ⟨last, hlast, rfl⟩ := map_eq_some_iff.mp h
      obtain ⟨last', hlast', rfl⟩ := map_eq_some_iff.mp h'
      obtain ⟨hsame, hresults⟩ := TyKind.mapM_eq_some.mp hlast
      obtain ⟨hsame', hresults'⟩ := TyKind.mapM_eq_some.mp hlast'
      refine .of_children ((TyKind.isRigid_of_outline hsame).trans hrigid)
        (hsame'.trans (houtline.trans hsame.symm)) ?_
      have hpairs : Forall₂ Meets kind.children kind'.children :=
        forall₂_iff_zip.mpr ⟨length_of_outline houtline, hchildren _⟩
      generalize kind.children = children at hpairs hresults
      generalize kind'.children = children' at hpairs hresults'
      generalize last.children = results at hresults ⊢
      generalize last'.children = results' at hresults' ⊢
      induction hpairs generalizing results results' with
      | nil =>
        cases hresults
        cases hresults'
        exact .nil
      | cons hpair _ hi =>
        cases hresults with
        | cons hfirst hrest =>
          cases hresults' with
          | cons hfirst' hrest' => exact .cons (ih hpair hfirst hfirst') (hi _ hrest _ hrest')

theorem resolved_child (hvalid : infer.Valid) {id : TyId} {kind : TyKind Ty} {child : Ty}
    (hopen : kind.isOpen = true) (h : infer.AppliesTo (.mk id kind) (.mk id kind))
    (hchild : child ∈ kind.children) : infer.AppliesTo child child := by
  refine applies_self fun v hv => ?_
  have hcontains : (Ty.mk id kind).containsVar v = true := by
    rw [Ty.containsVar_of_open v hopen]
    exact any_eq_true.mpr ⟨child, hchild, hv⟩
  rw [← Ty.occurs_view_iff] at hcontains
  exact (lookup_eq_none_iff hvalid.owned v).mp (h.resolves.free_of_occurs hcontains)

/-- The components of resolved types of one kind that is not rigid are resolved. -/
theorem resolved_pair (hvalid : infer.Valid) {id id' : TyId} (hrigid : kind.isRigid = false)
    (houtline : kind'.outline = kind.outline) (h : infer.AppliesTo (.mk id kind) (.mk id kind))
    (h' : infer.AppliesTo (.mk id' kind') (.mk id' kind')) {pair : Ty × Ty}
    (hpair : pair ∈ kind.children.zip kind'.children) :
    infer.AppliesTo pair.1 pair.1 ∧ infer.AppliesTo pair.2 pair.2 := by
  have hopen := TyKind.isOpen_of_not_rigid hrigid
  have hopen' := TyKind.isOpen_of_not_rigid ((TyKind.isRigid_of_outline houtline).trans hrigid)
  have hmem := of_mem_zip hpair
  exact ⟨resolved_child hvalid hopen h hmem.1, resolved_child hvalid hopen' h' hmem.2⟩

theorem eachUnifies_of_forall
    (h : ∀ pair ∈ pairs, infer.Unifies pair.1 pair.2 (.ok ()) infer) :
    infer.EachUnifies pairs (.ok ()) infer := by
  induction pairs with
  | nil => exact .const _
  | cons pair rest ih =>
    obtain ⟨hpair, hrest⟩ := forall_mem_cons.mp h
    exact .cons_ok hpair (ih hrest)

/-- Types of one kind that is not rigid unify exactly when their components do. -/
theorem carryOut_plan_iff (hrigid : kind.isRigid = false) (houtline : kind'.outline = kind.outline)
    (id id' : TyId) :
    carryOut unify infer (plan (.mk id kind) (.mk id' kind')) = some (.ok (), after) ↔
      unifyEach unify infer (kind.children.zip kind'.children) = some (.ok (), after) := by
  rcases plan_of_outline hrigid houtline id id' with
    ⟨hnil, hplan⟩ | ⟨child, child', hchild, hchild', hplan⟩ | hplan
  · rw [hplan, hnil]
    exact Iff.rfl
  · rw [hplan, hchild, hchild']
    show unify infer child child' = _ ↔ unifyEach unify infer [(child, child')] = _
    rw [unifyEach]
    rcases unify infer child child' with _ | ⟨_ | _, between⟩ <;> simp [unifyEach]
  · rw [hplan]
    exact Iff.rfl

/-- Resolved types that meet unify and leave everything as it was. -/
theorem unifies_of_meets (hvalid : infer.Valid) {ty ty' : Ty} (h : Meets ty ty')
    (hty : infer.AppliesTo ty ty) (hty' : infer.AppliesTo ty' ty') :
    infer.Unifies ty ty' (.ok ()) infer := by
  induction h with
  | refl ty => exact unifies_of_equal hty hty
  | @node id id' kind kind' hrigid houtline hchildren ih =>
    by_cases hsame : Ty.mk id kind = .mk id' kind'
    · rw [hsame] at hty ⊢
      exact unifies_of_equal hty hty
    have hpairs : ∀ pair ∈ kind.children.zip kind'.children,
        infer.Unifies pair.1 pair.2 (.ok ()) infer := by
      intro pair hpair
      obtain ⟨hleft, hright⟩ := resolved_pair hvalid hrigid houtline hty hty' hpair
      exact ih pair hpair hleft hright
    obtain ⟨bound, hbound⟩ := eachUnifies_of_forall hpairs
    exact unifies_of_plan hty hty' hsame ⟨bound, fun fuel hle =>
      (carryOut_plan_iff hrigid houtline id id').mpr (hbound fuel hle)⟩

/-- What a call says about types that are the same but for tags: if it
succeeds without an error it changed nothing and their resolved forms meet. -/
def OnlyMeets (unify : TypeInfer → Ty → Ty → Option Outcome) : Prop :=
  ∀ infer ty ty' after, infer.Valid → unify infer ty ty' = some (.ok (), after) →
    after.errors = infer.errors → ty.erase = ty'.erase →
      after = infer ∧ ∃ found found', infer.AppliesTo ty found ∧ infer.AppliesTo ty' found' ∧
        Meets found found'

theorem onlyMeets_each
    (hlater : AlwaysLater unify)
    (hcall : OnlyMeets unify) (hvalid : infer.Valid)
    (h : unifyEach unify infer pairs = some (.ok (), after))
    (herrors : after.errors = infer.errors)
    (hsame : ∀ pair ∈ pairs, pair.1.erase = pair.2.erase)
    (hresolved : ∀ pair ∈ pairs, infer.AppliesTo pair.1 pair.1 ∧ infer.AppliesTo pair.2 pair.2) :
    after = infer ∧ ∀ pair ∈ pairs, Meets pair.1 pair.2 := by
  induction pairs with
  | nil =>
    cases h
    exact ⟨rfl, by simp⟩
  | cons pair rest ih =>
    obtain ⟨hpair, hrest⟩ := forall_mem_cons.mp hsame
    obtain ⟨⟨hleft, hright⟩, hothers⟩ := forall_mem_cons.mp hresolved
    rcases unifyEach_cons h with ⟨error, _, -, hfail⟩ | ⟨between, hok, hloop⟩
    · cases hfail
    · have hfirst := hlater _ _ _ _ hvalid hok
      have hsecond := later_unifyEach hlater hfirst.valid hloop
      obtain ⟨hbefore, hbehind⟩ := errors_between hfirst hsecond herrors
      obtain ⟨rfl, found, found', hfound, hfound', hmeets⟩ :=
        hcall _ _ _ _ hvalid hok hbefore hpair
      cases hfound.unique hleft
      cases hfound'.unique hright
      obtain ⟨hafter, hmeetsRest⟩ := ih hloop hrest hothers
      exact ⟨hafter, forall_mem_cons.mpr ⟨hmeets, hmeetsRest⟩⟩

theorem onlyMeets_unifyInPlace (fuel : Nat) : OnlyMeets (unifyInPlace fuel) := by
  induction fuel with
  | zero => intro infer ty ty' after _ h; cases h
  | succ fuel ih =>
    intro infer ty ty' after hvalid h herrors hsame
    obtain ⟨found, found', hfound, hfound', hcases⟩ := unifyInPlace_succ h
    have happlies := applies_of_some hfound
    have happlies' := applies_of_some hfound'
    rcases hcases with ⟨hequal, houtcome⟩ | ⟨hdiffer, hplan⟩
    · cases houtcome
      exact ⟨rfl, found, found', happlies, happlies', hequal ▸ .refl found⟩
    · obtain ⟨_, hagain, herase⟩ := substApply_alike hvalid.owned hsame hfound
      cases hfound'.symm.trans hagain
      obtain ⟨id, kind⟩ := found
      obtain ⟨id', kind'⟩ := found'
      obtain ⟨houtline, hchildren⟩ := outline_of_erase herase
      cases hrigid : kind.isRigid with
      | true =>
        rcases plan_of_rigid hrigid houtline id id' with ⟨v, rfl, hbind⟩ | ⟨error, hreject⟩
        · rw [hbind] at hplan
          cases hplan
          have hnot := (bindVar_of_errors herrors).1
          rw [Ty.containsVar_var, beq_self_eq_true] at hnot
          cases hnot
        · rw [hreject] at hplan
          cases hplan
      | false =>
        suffices hpairs : after = infer ∧
            ∀ pair ∈ kind.children.zip kind'.children, Meets pair.1 pair.2 from
          ⟨hpairs.1, _, _, happlies, happlies', .node hrigid houtline hpairs.2⟩
        rw [carryOut_plan_iff hrigid houtline] at hplan
        refine onlyMeets_each (fun _ _ _ _ => later_unifyInPlace) ih hvalid hplan herrors
          (fun pair hpair => eq_of_mem_zip hchildren hpair) fun pair hpair => ?_
        exact resolved_pair hvalid hrigid houtline (applies_twice hvalid happlies)
          (applies_twice hvalid happlies') hpair

/-! ### Two runs -/

theorem bindVar_erase (infer : TypeInfer) (v : TyVarId) (ty : Ty) :
    infer.bindVar v ty.erase = infer.bindVar v ty := by
  have hinsert : infer.insert v ty.erase = infer.insert v ty := by
    rw [insert, TyInterner.internTy_erase, insert]
  rw [bindVar, bindVar, Ty.containsVar_erase, hinsert]

/-- The result with the tags in its error erased. -/
def eraseResult : Except InferError Unit → Except InferError Unit
  | .ok () => .ok ()
  | .error error => .error error.erase

/-- Types whose resolved forms meet unify. -/
theorem unifies_of_meets_found (hvalid : infer.Valid) {ty1 ty2 found1 found2 : Ty}
    (h1 : infer.AppliesTo ty1 found1) (h2 : infer.AppliesTo ty2 found2)
    (hmeets : Meets found1 found2) : infer.Unifies ty1 ty2 (.ok ()) infer := by
  have hself1 := applies_twice hvalid h1
  have hself2 := applies_twice hvalid h2
  obtain ⟨bound, hbound⟩ :=
    ((h1.both h2).both (hself1.both hself2)).both (unifies_of_meets hvalid hmeets hself1 hself2)
  have hall := hbound (bound + 1) (Nat.le_succ _)
  have hlow := hbound bound (Nat.le_refl _)
  simp only [Prod.mk.injEq] at hall hlow
  have hcall := hall.2
  rw [unifyInPlace_of_found hlow.1.2.1 hlow.1.2.2] at hcall
  exact unifies_of_some ((unifyInPlace_of_found hlow.1.1.1 hlow.1.1.2).trans hcall)

/-- A call on types that meet ends alike. -/
def EndsAlike (unify : TypeInfer → Ty → Ty → Option Outcome) : Prop :=
  ∀ infer ty1 ty1' ty2 ty2' result after, infer.Valid → Meets ty1 ty1' → Meets ty2 ty2' →
    unify infer ty1 ty2 = some (result, after) →
      ∃ result', infer.Unifies ty1' ty2' result' after ∧ eraseResult result' = eraseResult result

theorem eachUnifies_alike
    (hlater : AlwaysLater unify)
    (hcall : EndsAlike unify) (hvalid : infer.Valid) {pairs' : List (Ty × Ty)}
    (hmeets : Forall₂ (fun pair pair' => Meets pair.1 pair'.1 ∧ Meets pair.2 pair'.2) pairs pairs')
    (h : unifyEach unify infer pairs = some (result, after)) :
    ∃ result', infer.EachUnifies pairs' result' after ∧
      eraseResult result' = eraseResult result := by
  induction hmeets generalizing infer with
  | nil =>
    cases h
    exact ⟨.ok (), .const _, rfl⟩
  | @cons pair pair' rest rest' hpair _ ih =>
    have hpairs := fun result after =>
      hcall infer _ _ _ _ result after hvalid hpair.1 hpair.2
    rcases unifyEach_cons h with ⟨error, failed, hfail, houtcome⟩ | ⟨between, hok, hloop⟩
    · cases houtcome
      obtain ⟨result', hunifies, hresult⟩ := hpairs _ _ hfail
      cases result' with
      | ok value => cases hresult
      | error error' => exact ⟨.error error', .cons_error hunifies rest', hresult⟩
    · obtain ⟨result', hunifies, hresult⟩ := hpairs _ _ hok
      cases result' with
      | ok value =>
        obtain ⟨others, hothers, hend⟩ := ih (hlater _ _ _ _ hvalid hok).valid hloop
        exact ⟨others, .cons_ok hunifies hothers, hend⟩
      | error error' => cases hresult

theorem endsAlike_unifyInPlace (fuel : Nat) : EndsAlike (unifyInPlace fuel) := by
  induction fuel with
  | zero => intro infer ty1 ty1' ty2 ty2' result after _ _ _ h; cases h
  | succ fuel ih =>
    intro infer ty1 ty1' ty2 ty2' result after hvalid h1 h2 h
    obtain ⟨found1, found2, hfound1, hfound2, hcases⟩ := unifyInPlace_succ h
    obtain ⟨found1', hfound1', herase1⟩ := substApply_alike hvalid.owned h1.erase_eq hfound1
    obtain ⟨found2', hfound2', herase2⟩ := substApply_alike hvalid.owned h2.erase_eq hfound2
    have happlies1' := applies_of_some hfound1'
    have happlies2' := applies_of_some hfound2'
    replace h1 := meets_of_substApply h1 hfound1 hfound1'
    replace h2 := meets_of_substApply h2 hfound2 hfound2'
    by_cases hmeets : Meets found1 found2
    · cases (unifies_of_some h).unique (unifies_of_meets_found hvalid (applies_of_some hfound1)
        (applies_of_some hfound2) hmeets)
      exact ⟨.ok (), unifies_of_meets_found hvalid happlies1' happlies2'
        (h1.symm.trans (hmeets.trans h2)), rfl⟩
    · rcases hcases with ⟨rfl, -⟩ | ⟨hdiffer, hplan⟩
      · exact absurd (.refl found1) hmeets
      have hdiffer' : found1' ≠ found2' := by
        rintro rfl
        exact hmeets (h1.trans h2.symm)
      suffices hsettles : ∃ result', Settles
          (fun fuel => carryOut (unifyInPlace fuel) infer (plan found1' found2'))
            (some (result', after)) ∧ eraseResult result' = eraseResult result by
        obtain ⟨result', hsettles, hresult⟩ := hsettles
        exact ⟨result', unifies_of_plan happlies1' happlies2' hdiffer' hsettles, hresult⟩
      have herase : (plan found1 found2).erase = (plan found1' found2').erase := by
        rw [← plan_erase, ← plan_erase, herase1, herase2]
      have hplanned := planned found1 found2
      have hplanned' := planned found1' found2'
      have hparts1 := h1.outline_children.2
      have hparts2 := h2.outline_children.2
      generalize plan found1 found2 = decision at hplanned herase hplan
      generalize plan found1' found2' = decision' at hplanned' herase ⊢
      cases decision <;> cases decision' <;> injection herase
      case accept.accept =>
        cases hplan
        exact ⟨.ok (), .const _, rfl⟩
      case reject.reject error error' herror =>
        cases hplan
        exact ⟨.error error', .const _, congrArg Except.error herror.symm⟩
      case bind.bind v ty v' ty' hvar hty =>
        cases hplan
        subst hvar
        rw [← bindVar_erase, hty, bindVar_erase]
        exact ⟨.ok (), .const _, rfl⟩
      case descend.descend =>
        cases hplanned with
        | one hchild1 hchild2 =>
          cases hplanned' with
          | one hchild1' hchild2' =>
            rw [hchild1, hchild1', forall₂_cons] at hparts1
            rw [hchild2, hchild2', forall₂_cons] at hparts2
            exact ih _ _ _ _ _ _ _ hvalid hparts1.1 hparts2.1 hplan
      case each.each =>
        cases hplanned
        cases hplanned'
        exact eachUnifies_alike (fun _ _ _ _ => later_unifyInPlace) ih hvalid
          (Meets.zip hparts1 hparts2) hplan

/-- Tags outside rigid types do not influence a call: from types that meet it
returns the same result, up to the tags in an error, and leaves the same
inferencer. Two types that are the same without their tags unify without an
error exactly when they meet, and then nothing changes. -/
theorem tags_change_nothing (hreach : Reachable infer) :
    (∀ ty1 ty1' ty2 ty2' result after, Meets ty1 ty1' → Meets ty2 ty2' →
      infer.Unifies ty1 ty2 result after →
        ∃ result', infer.Unifies ty1' ty2' result' after ∧
          eraseResult result' = eraseResult result) ∧
    ∀ ty ty' found found', ty.erase = ty'.erase → infer.AppliesTo ty found →
      infer.AppliesTo ty' found' →
        ((∃ after, infer.Unifies ty ty' (.ok ()) after ∧ after.errors = infer.errors) ↔
          Meets found found') ∧
        (Meets found found' → infer.Unifies ty ty' (.ok ()) infer) := by
  have hvalid := hreach.valid
  constructor
  · intro ty1 ty1' ty2 ty2' result after h1 h2 h
    obtain ⟨fuel, hfuel⟩ := h.at_bound
    exact endsAlike_unifyInPlace fuel _ _ _ _ _ _ _ hvalid h1 h2 hfuel
  · intro ty ty' found found' hsame hfound hfound'
    have hback : Meets found found' → infer.Unifies ty ty' (.ok ()) infer :=
      unifies_of_meets_found hvalid hfound hfound'
    refine ⟨⟨?_, fun hmeets => ⟨infer, hback hmeets, rfl⟩⟩, hback⟩
    rintro ⟨after, h, herrors⟩
    obtain ⟨fuel, hfuel⟩ := h.at_bound
    obtain ⟨-, low, low', hlow, hlow', hmeets⟩ :=
      onlyMeets_unifyInPlace fuel _ _ _ _ hvalid hfuel herrors hsame
    cases hlow.unique hfound
    cases hlow'.unique hfound'
    exact hmeets

/-- One tag apart, a variable is bound to `Error` as a cycle of itself, and
`Self` is no longer `Self`; with one tag both are accepted and nothing changes. -/
theorem tags_break_equality :
    empty.Unifies (.mk 1 (.var 0)) (.mk 1 (.var 0)) (.ok ()) empty ∧
      (∃ after, empty.Unifies (.mk 1 (.var 0)) (.mk 2 (.var 0)) (.ok ()) after ∧
        after.errors = [.cyclicType] ∧ after.get 0 = some (.mk 0 .error)) ∧
      empty.Unifies (.mk 1 .selfType) (.mk 1 .selfType) (.ok ()) empty ∧
      empty.Unifies (.mk 1 .selfType) (.mk 2 .selfType)
        (.error (.typeMismatch .selfType .selfType)) empty := by
  exact ⟨.of_rounds 2 fun _ => rfl, ⟨empty.bindVar 0 (.mk 2 (.var 0)), .of_rounds 2 fun _ => rfl,
    rfl, rfl⟩, .of_rounds 2 fun _ => rfl, .of_rounds 2 fun _ => rfl⟩

theorem tags_change_nothing_adt :
    ∃ result', empty.Unifies (.mk 5 (.adt "Box" [.mk 4 (.var 0)]))
        (.mk 6 (.adt "Box" [.mk 7 .bool])) result' (empty.bindVar 0 (.mk 2 .bool)) ∧
      eraseResult result' = eraseResult (.ok ()) := by
  have hbox {id id' : TyId} {ty ty' : Ty} (h : Meets ty ty') :
      Meets (.mk id (.adt "Box" [ty])) (.mk id' (.adt "Box" [ty'])) :=
    .of_children rfl rfl (.cons h .nil)
  have hunifies : empty.Unifies (.mk 1 (.adt "Box" [.mk 4 (.var 0)]))
      (.mk 3 (.adt "Box" [.mk 2 .bool])) (.ok ()) (empty.bindVar 0 (.mk 2 .bool)) :=
    .of_rounds 4 fun _ => rfl
  exact (tags_change_nothing reachable_empty).1 _ _ _ _ _ _ (hbox (.refl _))
    (hbox (.of_children rfl rfl .nil)) hunifies

end TypeInfer

end Sengoo.Typeck
