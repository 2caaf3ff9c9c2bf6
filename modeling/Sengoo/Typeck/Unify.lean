import Sengoo.Typeck.View

/-!
What a unification does to the inferencer, whatever its result: bindings are
only added, each to a variable that was free and a type that is resolved, so
every type still resolves; errors are only appended; and a failing component
takes its own bindings back.
-/

namespace Sengoo.Typeck

open Terms Fuel List

namespace TypeInfer

/-- The substitution is made of the interner's handles and every type resolves. -/
structure Valid (infer : TypeInfer) : Prop where
  wellFormed : infer.interner.WellFormed
  owned : infer.Owned
  resolving : Resolving infer.bindings

/-- How an inferencer may have changed. -/
structure Later (infer after : TypeInfer) : Prop where
  valid : after.Valid
  grows : infer.interner.Grows after.interner
  keeps : Extends infer.bindings after.bindings
  errors : ∃ more, after.errors = infer.errors ++ more

theorem Later.refl {infer : TypeInfer} (h : infer.Valid) : Later infer infer :=
  ⟨h, .refl _, .refl _, [], (append_nil _).symm⟩

theorem Later.trans {first second third : TypeInfer} (h : Later first second)
    (h' : Later second third) : Later first third := by
  obtain ⟨more, hmore⟩ := h.errors
  obtain ⟨more', hmore'⟩ := h'.errors
  exact ⟨h'.valid, h.grows.trans h'.grows, h.keeps.trans h'.keeps, more ++ more', by
    rw [hmore', hmore, append_assoc]⟩

section

variable {infer after : TypeInfer}

/-! ### Single changes -/

/-- Bindings do not depend on how far the interner has grown. -/
theorem get_of_grows {interner : TyInterner} (h : infer.Owned)
    (hgrows : infer.interner.Grows interner) (v : TyVarId) :
    (infer.subst.lookup v).bind interner.materialize = infer.get v := by
  rw [get]
  cases hlookup : infer.subst.lookup v with
  | none => rfl
  | some interned =>
    obtain ⟨ty, hty, -⟩ := h v interned hlookup
    rw [Option.bind_some, Option.bind_some, hty, hgrows.materialize hty]

theorem bindings_of_grows (h : infer.Owned) (hgrows : infer.interner.Grows after.interner)
    (hsubst : after.subst = infer.subst) : after.bindings = infer.bindings := by
  funext v
  rw [bindings, bindings, ← get_of_grows h hgrows, get, hsubst]

section

variable (h : infer.Valid)
include h

/-- The substitution of an earlier time is good at a later one. -/
theorem Valid.later (hwellFormed : after.interner.WellFormed)
    (hgrows : infer.interner.Grows after.interner) (hsubst : after.subst = infer.subst)
    (more : List InferError) (hmore : after.errors = infer.errors ++ more) :
    Later infer after := by
  have hsame := bindings_of_grows h.owned hgrows hsubst
  refine ⟨⟨hwellFormed, fun v interned hlookup => ?_, ?_⟩, hgrows, ?_, more, hmore⟩
  · rw [hsubst] at hlookup
    obtain ⟨ty, hty, herase⟩ := h.owned v interned hlookup
    exact ⟨ty, hgrows.materialize hty, herase⟩
  · rw [hsame]
    exact h.resolving
  · rw [hsame]
    exact .refl _

/-- A failed component leaves the substitution it found. -/
theorem Later.restore (hlater : Later infer after) :
    Later infer { after with subst := infer.subst } := by
  obtain ⟨more, hmore⟩ := hlater.errors
  exact h.later hlater.valid.wellFormed hlater.grows rfl more hmore

theorem later_newTy (kind : TyKind Ty) : Later infer (infer.newTy kind).2 := by
  have hinterned := TyInterner.internTy_spec h.wellFormed (.mk infer.nextTyId kind)
  exact h.later hinterned.wellFormed hinterned.grows rfl [] (append_nil _).symm

theorem later_addError (error : InferError) : Later infer (infer.addError error) :=
  h.later h.wellFormed (.refl _) rfl [error] rfl

theorem get_insert (v : TyVarId) (ty : Ty) (w : TyVarId) :
    (infer.insert v ty).get w = if w = v then some ty.erase else infer.get w := by
  have hinterned := TyInterner.internTy_spec h.wellFormed ty
  rw [get, insert]
  by_cases hwv : w = v
  · rw [if_pos hwv, hwv, AList.lookup_insert]
    exact hinterned.materialize
  · rw [if_neg hwv, AList.lookup_insert_ne hwv]
    exact get_of_grows h.owned hinterned.grows w

theorem bindings_insert (v : TyVarId) (ty : Ty) :
    (infer.insert v ty).bindings = Terms.bind infer.bindings v ty.view := by
  funext w
  rw [bindings, get_insert h, Terms.bind]
  split
  · rw [Option.map_some, Ty.view_erase]
  · rfl

/-- Binding a free variable to a resolved type in which it does not occur. -/
theorem later_insert {v : TyVarId} {ty : Ty} (hfree : infer.bindings v = none)
    (hty : Resolves infer.bindings ty.view ty.view) (hoccurs : ty.containsVar v = false) :
    Later infer (infer.insert v ty) := by
  have hinterned := TyInterner.internTy_spec h.wellFormed ty
  have hnot : ¬ Occurs v ty.view := by
    rw [Ty.occurs_view_iff, hoccurs]
    exact Bool.false_ne_true
  have howned : (infer.insert v ty).Owned := by
    intro w interned hlookup
    rcases Table.lookup_insert_some hlookup with ⟨-, rfl⟩ | ⟨-, hold⟩
    · exact ⟨ty.erase, hinterned.materialize, ty.erase_erase⟩
    · obtain ⟨bound, hbound, herase⟩ := h.owned w interned hold
      exact ⟨bound, hinterned.grows.materialize hbound, herase⟩
  have hbindings := bindings_insert h v ty
  refine ⟨⟨hinterned.wellFormed, howned, ?_⟩, hinterned.grows, ?_, [], (append_nil _).symm⟩
  · rw [hbindings]
    exact h.resolving.bind hfree hty hnot
  · rw [hbindings]
    exact extends_bind hfree

end

theorem resolves_error (infer : TypeInfer) (id : TyId) :
    Resolves infer.bindings (Ty.mk id .error).view (Ty.mk id .error).view :=
  .self_of_free fun v hv => by
    rw [Ty.occurs_view_iff] at hv
    cases hv

/-- What a cycle is bound to is inserted at a later time with the same bindings. -/
theorem later_cyclic (h : infer.Valid) :
    Later infer ((infer.addError .cyclicType).newTy .error).2 ∧
      ((infer.addError .cyclicType).newTy .error).2.bindings = infer.bindings := by
  have hadded := later_addError h .cyclicType
  have hfresh := hadded.trans (later_newTy hadded.valid .error)
  exact ⟨hfresh, bindings_of_grows h.owned hfresh.grows rfl⟩

theorem later_bindVar (h : infer.Valid) {v : TyVarId} {ty : Ty} (hfree : infer.bindings v = none)
    (hty : Resolves infer.bindings ty.view ty.view) : Later infer (infer.bindVar v ty) := by
  unfold bindVar
  split
  · obtain ⟨hfresh, hsame⟩ := later_cyclic h
    exact hfresh.trans (later_insert hfresh.valid (hsame ▸ hfree)
      (resolves_error _ infer.nextTyId) rfl)
  · next hoccurs => exact later_insert h hfree hty (Bool.eq_false_iff.mpr hoccurs)

end

end TypeInfer

/-! ### The decision -/

/-- What the decision on two types says about their terms. -/
inductive Planned (ty1 ty2 : Ty) : Plan → Prop where
  | absorbed (h : ty1.kind = .error ∨ ty2.kind = .error ∨ ty1.kind = .never ∨ ty2.kind = .never) :
      Planned ty1 ty2 .accept
  | same (h : ty1.view = ty2.view) : Planned ty1 ty2 .accept
  | left {v : TyVarId} (h : ty1.view = .var v) : Planned ty1 ty2 (.bind v ty2)
  | right {v : TyVarId} (h : ty2.view = .var v) : Planned ty1 ty2 (.bind v ty1)
  | one {head : Head} {child1 child2 : Ty} (hchild1 : ty1.kind.children = [child1])
      (hchild2 : ty2.kind.children = [child2]) (h : ty1.view = .node head [child1.view])
      (h' : ty2.view = .node head [child2.view]) : Planned ty1 ty2 (.descend child1 child2)
  | many {head : Head} (hlength : ty1.kind.children.length = ty2.kind.children.length)
      (h : ty1.view = .node head (ty1.kind.children.map Ty.view))
      (h' : ty2.view = .node head (ty2.kind.children.map Ty.view)) :
      Planned ty1 ty2 (.each (ty1.kind.children.zip ty2.kind.children))
  | rejected (error : InferError) : Planned ty1 ty2 (.reject error)

theorem outline_eq_of_length {types1 types2 : List Ty} (h : types1.length = types2.length) :
    types1.map (fun _ => ()) = types2.map (fun _ => ()) :=
  TyKind.eq_of_length (by rw [length_map, h])

theorem planned_many {id1 id2 : TyId} {kind1 kind2 : TyKind Ty} (hopen1 : kind1.isOpen = true)
    (hopen2 : kind2.isOpen = true) (houtline : kind1.outline.plain = kind2.outline.plain) :
    Planned (.mk id1 kind1) (.mk id2 kind2) (.each (kind1.children.zip kind2.children)) := by
  have hlength : kind1.children.length = kind2.children.length := by
    rw [← TyKind.length_children_outline, ← TyKind.children_plain, houtline,
      TyKind.children_plain, TyKind.length_children_outline]
  refine .many hlength (Ty.view_of_open hopen1) ?_
  rw [houtline]
  exact Ty.view_of_open hopen2

theorem planned (ty1 ty2 : Ty) : Planned ty1 ty2 (plan ty1 ty2) := by
  obtain ⟨id1, kind1⟩ := ty1
  obtain ⟨id2, kind2⟩ := ty2
  unfold plan
  dsimp only [Ty.kind]
  split
  case h_1 => exact .absorbed (.inl rfl)
  case h_2 => exact .absorbed (.inr (.inl rfl))
  case h_3 => exact .absorbed (.inr (.inr (.inl rfl)))
  case h_4 => exact .absorbed (.inr (.inr (.inr rfl)))
  case h_5 => exact .left rfl
  case h_6 => exact .right rfl
  case h_7 | h_8 | h_9 | h_10 | h_11 | h_12 => exact .same rfl
  case h_13 | h_14 =>
    split
    · next hkind => exact .same (by rw [hkind]; rfl)
    · exact .rejected _
  case h_15 =>
    split
    · next hmut => exact .one rfl rfl rfl (by rw [hmut]; rfl)
    · exact .rejected _
  case h_16 => exact .one rfl rfl rfl rfl
  case h_17 types1 types2 =>
    split
    · next hlength =>
        exact planned_many rfl rfl (congrArg TyKind.tuple (outline_eq_of_length hlength))
    · exact .rejected _
  case h_18 =>
    split
    · next hn => exact .one rfl rfl rfl (by rw [hn]; rfl)
    · exact .rejected _
  case h_19 => exact .one rfl rfl rfl rfl
  case h_20 params1 ret1 isVariadic1 params2 ret2 isVariadic2 =>
    split
    · next hlength =>
        have hzip : (params1 ++ [ret1]).zip (params2 ++ [ret2]) =
            params1.zip params2 ++ [(ret1, ret2)] := zip_append hlength
        rw [← hzip]
        exact planned_many rfl rfl (congrArg (TyKind.fn · () false) (outline_eq_of_length hlength))
    · exact .rejected _
  case h_21 name1 args1 name2 args2 =>
    split
    · next hname =>
        split
        · next hlength =>
            rw [hname]
            exact planned_many rfl rfl (congrArg (TyKind.adt name2) (outline_eq_of_length hlength))
        · exact .rejected _
    · exact .rejected _
  case h_22 =>
    split
    · next hnames => exact .one rfl rfl rfl (by rw [hnames.1, hnames.2]; rfl)
    · exact .rejected _
  case h_23 => exact .rejected _

/-! ### Whole calls -/

namespace TypeInfer

variable {fuel : Nat} {infer : TypeInfer} {ty1 ty2 : Ty} {outcome : Outcome}

theorem unifyInPlace_of_found {ty1 ty2 found1 found2 : Ty}
    (h1 : infer.substApply fuel ty1 = some found1) (h2 : infer.substApply fuel ty2 = some found2) :
    unifyInPlace (fuel + 1) infer ty1 ty2 = if found1 = found2 then some (.ok (), infer)
      else carryOut (unifyInPlace fuel) infer (plan found1 found2) := by
  rw [unifyInPlace, h1, h2]

theorem unifyInPlace_succ
    (h : unifyInPlace (fuel + 1) infer ty1 ty2 = some outcome) :
    ∃ found1 found2, infer.substApply fuel ty1 = some found1 ∧
      infer.substApply fuel ty2 = some found2 ∧
      (found1 = found2 ∧ outcome = (.ok (), infer) ∨ found1 ≠ found2 ∧
          carryOut (unifyInPlace fuel) infer (plan found1 found2) = some outcome) := by
  rw [unifyInPlace] at h
  split at h
  · next found1 found2 hfound1 hfound2 =>
      refine ⟨found1, found2, hfound1, hfound2, ?_⟩
      split at h
      · next hsame => exact .inl ⟨hsame, (Option.some.inj h).symm⟩
      · next hdiffer => exact .inr ⟨hdiffer, h⟩
  · cases h

/-- The cases of a component and of the rest of its loop. -/
theorem unifyEach_cons {unify : TypeInfer → Ty → Ty → Option Outcome} {rest : List (Ty × Ty)}
    (h : unifyEach unify infer ((ty1, ty2) :: rest) = some outcome) :
    (∃ error after, unify infer ty1 ty2 = some (.error error, after) ∧
        outcome = (.error error, { after with subst := infer.subst })) ∨
      ∃ after, unify infer ty1 ty2 = some (.ok (), after) ∧
        unifyEach unify after rest = some outcome := by
  rw [unifyEach] at h
  split at h
  · cases h
  · next error after hunify => exact .inl ⟨error, after, hunify, (Option.some.inj h).symm⟩
  · next after hunify => exact .inr ⟨after, hunify, h⟩

/-- Every call leaves a later inferencer. -/
abbrev AlwaysLater (unify : TypeInfer → Ty → Ty → Option Outcome) : Prop :=
  ∀ infer ty1 ty2 outcome, infer.Valid → unify infer ty1 ty2 = some outcome →
    Later infer outcome.2

theorem later_unifyEach {unify : TypeInfer → Ty → Ty → Option Outcome}
    (hunify : AlwaysLater unify) {pairs : List (Ty × Ty)} (hvalid : infer.Valid)
    (h : unifyEach unify infer pairs = some outcome) : Later infer outcome.2 := by
  induction pairs generalizing infer with
  | nil =>
    cases h
    exact .refl hvalid
  | cons pair rest ih =>
    rcases unifyEach_cons h with ⟨error, after, hfail, rfl⟩ | ⟨after, hok, hrest⟩
    · exact Later.restore hvalid (hunify _ _ _ _ hvalid hfail)
    · have hfirst := hunify _ _ _ _ hvalid hok
      exact hfirst.trans (ih hfirst.valid hrest)

/-- A resolved type that is a variable is a free one. -/
theorem free_of_found {ty found : Ty} {v : TyVarId}
    (hfound : infer.substApply fuel ty = some found) (hview : found.view = .var v) :
    infer.bindings v = none := by
  have hresolves := resolves_of_substApply hfound
  rw [hview] at hresolves
  exact hresolves.free_of_occurs .here

/-- Whatever the result, a call leaves a later inferencer behind. -/
theorem later_unifyInPlace
    (hvalid : infer.Valid) (h : unifyInPlace fuel infer ty1 ty2 = some outcome) :
    Later infer outcome.2 := by
  induction fuel generalizing infer ty1 ty2 outcome with
  | zero => cases h
  | succ fuel ih =>
    obtain ⟨found1, found2, hfound1, hfound2, hcases⟩ := unifyInPlace_succ h
    rcases hcases with ⟨-, rfl⟩ | ⟨-, hplan⟩
    · exact .refl hvalid
    · have hplanned := planned found1 found2
      generalize plan found1 found2 = decision at hplanned hplan
      cases hplanned with
      | absorbed _ | same _ | rejected _ =>
        cases hplan
        exact .refl hvalid
      | left hview =>
        cases hplan
        exact later_bindVar hvalid (free_of_found hfound1 hview)
          (resolves_of_substApply hfound2).self
      | right hview =>
        cases hplan
        exact later_bindVar hvalid (free_of_found hfound2 hview)
          (resolves_of_substApply hfound1).self
      | one _ _ _ _ => exact ih hvalid hplan
      | many _ _ _ =>
        exact later_unifyEach (fun _ _ _ _ hvalid h => ih hvalid h) hvalid hplan

/-! ### Budgets -/

theorem substApply_mono {n m : Nat} (hle : n ≤ m) {ty result : Ty}
    (h : infer.substApply n ty = some result) : infer.substApply m ty = some result := by
  induction n generalizing m ty result with
  | zero => cases h
  | succ n ih =>
    obtain _ | m := m
    · cases hle
    have hle := Nat.le_of_succ_le_succ hle
    obtain ⟨id, kind⟩ := ty
    rcases kind.shapes with ⟨v, rfl⟩ | ⟨inner, rfl⟩ | hopen
    · cases hlookup : infer.subst.lookup v with
      | none =>
        rw [substApply_free hlookup] at h ⊢
        exact h
      | some interned =>
        rw [substApply_bound hlookup] at h ⊢
        obtain ⟨bound, hbound, h⟩ := Option.bind_eq_some_iff.mp h
        rw [hbound]
        exact ih hle h
    · exact h
    · rw [substApply_of_open infer _ id hopen] at h ⊢
      obtain ⟨kind', hkind', h⟩ := Option.map_eq_some_iff.mp h
      obtain ⟨houtline, hchildren⟩ := TyKind.mapM_eq_some.mp hkind'
      have hmore : kind.mapM (infer.substApply m) = some kind' :=
        TyKind.mapM_eq_some.mpr ⟨houtline, hchildren.imp fun _ _ => ih hle⟩
      rw [hmore, ← h]
      rfl

theorem unifyEach_mono {unify unify' : TypeInfer → Ty → Ty → Option Outcome}
    (hmono : ∀ infer ty1 ty2 outcome, unify infer ty1 ty2 = some outcome →
      unify' infer ty1 ty2 = some outcome) {pairs : List (Ty × Ty)}
    (h : unifyEach unify infer pairs = some outcome) :
    unifyEach unify' infer pairs = some outcome := by
  induction pairs generalizing infer with
  | nil => exact h
  | cons pair rest ih =>
    rw [unifyEach]
    rcases unifyEach_cons h with ⟨error, after, hfail, rfl⟩ | ⟨after, hok, hrest⟩
    · rw [hmono _ _ _ _ hfail]
    · rw [hmono _ _ _ _ hok]
      exact ih hrest

theorem unifyInPlace_mono {n m : Nat} (hle : n ≤ m)
    (h : unifyInPlace n infer ty1 ty2 = some outcome) :
    unifyInPlace m infer ty1 ty2 = some outcome := by
  induction n generalizing m infer ty1 ty2 outcome with
  | zero => cases h
  | succ n ih =>
    obtain _ | m := m
    · cases hle
    have hle := Nat.le_of_succ_le_succ hle
    obtain ⟨found1, found2, hfound1, hfound2, hcases⟩ := unifyInPlace_succ h
    rw [unifyInPlace_of_found (substApply_mono hle hfound1) (substApply_mono hle hfound2)]
    rcases hcases with ⟨hsame, rfl⟩ | ⟨hdiffer, hplan⟩
    · exact if_pos hsame
    · refine (if_neg hdiffer).trans ?_
      generalize plan found1 found2 = decision at hplan ⊢
      cases decision with
      | accept | reject | bind => exact hplan
      | descend child1 child2 => exact ih hle hplan
      | each pairs => exact unifyEach_mono (fun _ _ _ _ => ih hle) hplan

theorem applies_of_some {ty result : Ty}
    (h : infer.substApply fuel ty = some result) : infer.AppliesTo ty result :=
  ⟨fuel, fun _ hle => substApply_mono hle h⟩

theorem unifies_of_some {infer after : TypeInfer}
    {result : Except InferError Unit}
    (h : unifyInPlace fuel infer ty1 ty2 = some (result, after)) :
    infer.Unifies ty1 ty2 result after :=
  ⟨fuel, fun _ hle => unifyInPlace_mono hle h⟩

end TypeInfer

/-! ### Runs -/

section

variable {infer after : TypeInfer}

theorem Started.valid (h : Started infer) : infer.Valid := by
  have hempty (v : TyVarId) : infer.subst.lookup v = none := by
    rw [h.subst]
    rfl
  refine ⟨h.wellFormed, fun v interned hlookup => ?_, ?_⟩
  · rw [hempty] at hlookup
    cases hlookup
  · have hbindings : infer.bindings = fun _ => none := by
      funext v
      rw [TypeInfer.bindings, TypeInfer.get, hempty]
      rfl
    rw [hbindings]
    exact resolving_empty

/-- An inferencer over an environment without types. -/
def TypeInfer.empty : TypeInfer := ⟨.new, 0, 0, ∅, []⟩

theorem reachable_empty : Reachable .empty :=
  ⟨.empty, [], ⟨TyInterner.wellFormed_new, rfl, rfl⟩, .nil _⟩

/-- Every call but a reset leaves a later inferencer. -/
theorem Step.later {call : Call} (h : Step infer call after) (hvalid : infer.Valid)
    (hcall : call ≠ .resetSubst) : infer.Later after := by
  cases h with
  | unify hunifies =>
    obtain ⟨fuel, hfuel⟩ := hunifies.at_bound
    exact TypeInfer.later_unifyInPlace hvalid hfuel
  | newTy kind => exact TypeInfer.later_newTy hvalid kind
  | freshTyVar =>
    have hcounted : infer.Later { infer with nextTyVarId := infer.nextTyVarId + 1 } :=
      hvalid.later hvalid.wellFormed (.refl _) rfl [] (append_nil _).symm
    exact hcounted.trans (TypeInfer.later_newTy hcounted.valid _)
  | addError error => exact TypeInfer.later_addError hvalid error
  | resetSubst => exact absurd rfl hcall

theorem Step.valid {call : Call} (h : Step infer call after) (hvalid : infer.Valid) :
    after.Valid := by
  by_cases hcall : call = .resetSubst
  · subst hcall
    cases h
    refine ⟨hvalid.wellFormed, fun v interned hlookup => (nomatch hlookup), ?_⟩
    exact resolving_empty
  · exact (h.later hvalid hcall).valid

/-- Every reachable inferencer is valid. -/
theorem Reachable.valid (h : Reachable infer) : infer.Valid := by
  obtain ⟨start, calls, hstart, hrun⟩ := h
  exact hrun.invariant (P := fun _ state => state.Valid) hstart.valid
    fun _ _ _ _ _ hvalid hstep => hstep.valid hvalid

theorem later_of_run {calls : List Call} (hrun : History.Run Step infer calls after)
    (hvalid : infer.Valid) (hcalls : .resetSubst ∉ calls) : infer.Later after := by
  induction hrun with
  | nil => exact .refl hvalid
  | snoc hrun hstep ih =>
    rw [mem_append, mem_singleton, not_or] at hcalls
    have hbefore := ih hcalls.1
    exact hbefore.trans (hstep.later hbefore.valid (Ne.symm hcalls.2))

end

end Sengoo.Typeck
