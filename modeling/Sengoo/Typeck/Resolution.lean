import Sengoo.Typeck.Soundness

/-!
How far applying the substitution resolves a type. It always returns, and a
second time changes nothing. Below a `Future` neither it nor the occurs check
looks, so bound variables stay there and a variable can be bound to a type
around itself. While no type with a variable below a `Future` is unified,
every type without one is resolved at every depth.
-/

namespace Sengoo.Typeck

open Terms Fuel List

/-- The variable is somewhere in the type. -/
def Ty.mentions (v : TyVarId) : Ty → Bool :=
  Ty.fold fun _ kind =>
    match kind with
    | .var w => w == v
    | kind => kind.children.any (·)

/-- A variable is somewhere below a `Future`. -/
inductive VarBelowFuture : Ty → Prop where
  | here {id : TyId} {inner : Ty} {v : TyVarId} : inner.mentions v = true →
      VarBelowFuture (.mk id (.future inner))
  | inside {id : TyId} {kind : TyKind Ty} {ty : Ty} : ty ∈ kind.children → VarBelowFuture ty →
      VarBelowFuture (.mk id kind)

namespace Ty

theorem mentions_mk (v : TyVarId) (id : TyId) {kind : TyKind Ty} (h : ∀ w, kind ≠ .var w) :
    (mk id kind).mentions v = kind.children.any (mentions v) := by
  rw [mentions, fold_mk]
  cases kind with
  | var w => exact absurd rfl (h w)
  | _ => simp [TyKind.map, TyKind.children, Function.comp_def]

theorem exists_mentions_of_varBelowFuture {ty : Ty} (h : VarBelowFuture ty) :
    ∃ v, ty.mentions v = true := by
  induction h with
  | @here id inner v hv =>
    refine ⟨v, ?_⟩
    rw [mentions_mk v id (by simp), any_eq_true]
    exact ⟨inner, mem_singleton_self _, hv⟩
  | @inside id kind ty hty _ ih =>
    obtain ⟨v, hv⟩ := ih
    refine ⟨v, ?_⟩
    have hkind : ∀ w, kind ≠ .var w := by
      rintro w rfl
      cases hty
    rw [mentions_mk v id hkind, any_eq_true]
    exact ⟨ty, hty, hv⟩

/-- Without variables below a `Future` the occurs check sees them all. -/
theorem containsVar_eq_mentions {ty : Ty} (h : ¬ VarBelowFuture ty) (v : TyVarId) :
    ty.containsVar v = ty.mentions v := by
  induction ty using Ty.induct with
  | mk id kind ih =>
    rcases kind.shapes with ⟨w, rfl⟩ | ⟨inner, rfl⟩ | hopen
    · rfl
    · rw [containsVar_future, mentions_mk v id (by simp)]
      have hinner : inner.mentions v = false :=
        Bool.eq_false_iff.mpr fun hv => h (.here hv)
      simp [TyKind.children, hinner]
    · have hkind : ∀ w, kind ≠ .var w := by
        rintro w rfl
        cases hopen
      rw [containsVar_of_open v hopen, mentions_mk v id hkind]
      have hchildren : ∀ ty ∈ kind.children, ty.containsVar v = ty.mentions v :=
        fun ty hty => ih ty hty fun hbelow => h (.inside hty hbelow)
      rw [Bool.eq_iff_iff, any_eq_true, any_eq_true]
      exact exists_congr fun ty => and_congr_right fun hty => by rw [hchildren ty hty]

end Ty

/-! ### In terms -/

def IsFrozen (head : Head) : Prop := ∃ v, head = .frozen v

theorem hasHead_map_iff {outline : TyKind Unit} {f : Ty → TyTerm} {types : List Ty} :
    HasHead IsFrozen (.node (.kind outline) (types.map f)) ↔
      ∃ ty ∈ types, HasHead IsFrozen (f ty) := by
  simp [hasHead_node_iff, IsFrozen]

theorem hasHead_frozen_iff (ty : Ty) : HasHead IsFrozen ty.frozen ↔ ∃ v, ty.mentions v = true := by
  induction ty using Ty.induct with
  | mk id kind ih =>
    rcases Ty.var_or_views kind id with ⟨w, rfl⟩ | ⟨-, hfrozen⟩
    · constructor
      · intro _
        exact ⟨w, beq_self_eq_true w⟩
      · intro _
        exact .here ⟨w, rfl⟩
    · by_cases hkind : ∃ w, kind = .var w
      · obtain ⟨w, rfl⟩ := hkind
        cases hfrozen
      have hmentions (v : TyVarId) := Ty.mentions_mk v id fun w hw => hkind ⟨w, hw⟩
      rw [hfrozen, hasHead_map_iff]
      simp only [hmentions, any_eq_true]
      constructor
      · rintro ⟨ty, hty, h⟩
        obtain ⟨v, hv⟩ := (ih ty hty).mp h
        exact ⟨v, ty, hty, hv⟩
      · rintro ⟨v, ty, hty, hv⟩
        exact ⟨ty, hty, (ih ty hty).mpr ⟨v, hv⟩⟩

/-- The term of a type has a frozen variable when the type has one below a `Future`. -/
theorem hasHead_view_iff (ty : Ty) : HasHead IsFrozen ty.view ↔ VarBelowFuture ty := by
  induction ty using Ty.induct with
  | mk id kind ih =>
    rcases kind.shapes with ⟨w, rfl⟩ | ⟨inner, rfl⟩ | hopen
    · constructor
      · intro h
        exact absurd h (not_hasHead_var w)
      · intro h
        cases h with
        | inside hty _ => cases hty
    · rw [Ty.view_future, ← map_singleton, hasHead_map_iff]
      simp only [mem_singleton, exists_eq_left, hasHead_frozen_iff]
      constructor
      · rintro ⟨v, hv⟩
        exact .here hv
      · intro h
        cases h with
        | here hv => exact ⟨_, hv⟩
        | inside hty h =>
          cases mem_singleton.mp hty
          exact Ty.exists_mentions_of_varBelowFuture h
    · rw [Ty.view_of_open hopen, hasHead_map_iff]
      constructor
      · rintro ⟨ty, hty, h⟩
        exact .inside hty ((ih ty hty).mp h)
      · intro h
        cases h with
        | here _ => cases hopen
        | inside hty h => exact ⟨_, hty, (ih _ hty).mpr h⟩

namespace TypeInfer

/-- No binding has a variable below a `Future`. -/
def Clear (infer : TypeInfer) : Prop :=
  ∀ v term, infer.bindings v = some term → ¬ HasHead IsFrozen term

section

variable {infer after : TypeInfer}

theorem Clear.found (h : infer.Clear) {fuel : Nat} {ty found : Ty}
    (hty : ¬ HasHead IsFrozen ty.view) (hfound : infer.substApply fuel ty = some found) :
    ¬ HasHead IsFrozen found.view :=
  (resolves_of_substApply hfound).not_hasHead h hty

theorem Clear.insert (h : infer.Clear) (hvalid : infer.Valid) (v : TyVarId) {ty : Ty}
    (hty : ¬ HasHead IsFrozen ty.view) : (infer.insert v ty).Clear := by
  intro w term hw
  rw [bindings_insert hvalid, Terms.bind] at hw
  split at hw
  · cases hw
    exact hty
  · exact h w term hw

theorem Clear.of_bindings (h : infer.Clear) (hsame : after.bindings = infer.bindings) :
    after.Clear := by
  rw [Clear, hsame]
  exact h

theorem Clear.bindVar (h : infer.Clear) (hvalid : infer.Valid) (v : TyVarId) {ty : Ty}
    (hty : ¬ HasHead IsFrozen ty.view) : (infer.bindVar v ty).Clear := by
  unfold TypeInfer.bindVar
  split
  · obtain ⟨hfresh, hsame⟩ := later_cyclic hvalid
    refine (h.of_bindings hsame).insert hfresh.valid v ?_
    rw [hasHead_view_iff]
    intro hbelow
    cases hbelow with
    | inside hmem _ => cases hmem
  · exact h.insert hvalid v hty

/-- The step of a loop keeps the bindings clear when the call does. -/
theorem clear_unifyEach {unify : TypeInfer → Ty → Ty → Option Outcome}
    (hlater : AlwaysLater unify)
    (hclear : ∀ infer ty1 ty2 outcome, infer.Valid → infer.Clear →
      ¬ HasHead IsFrozen ty1.view → ¬ HasHead IsFrozen ty2.view →
      unify infer ty1 ty2 = some outcome → outcome.2.Clear)
    {types1 types2 : List Ty} (h1 : ∀ ty ∈ types1, ¬ HasHead IsFrozen ty.view)
    (h2 : ∀ ty ∈ types2, ¬ HasHead IsFrozen ty.view) {outcome : Outcome} (hvalid : infer.Valid)
    (hinfer : infer.Clear) (h : unifyEach unify infer (types1.zip types2) = some outcome) :
    outcome.2.Clear := by
  induction types1 generalizing types2 infer with
  | nil =>
    cases h
    exact hinfer
  | cons ty1 types1 ih =>
    cases types2 with
    | nil =>
      cases h
      exact hinfer
    | cons ty2 types2 =>
      obtain ⟨hty1, htypes1⟩ := forall_mem_cons.mp h1
      obtain ⟨hty2, htypes2⟩ := forall_mem_cons.mp h2
      rcases unifyEach_cons h with ⟨error, between, hfail, rfl⟩ | ⟨between, hok, hrest⟩
      · have hgrown := hlater _ _ _ _ hvalid hfail
        have hsame : bindings { between with subst := infer.subst } = infer.bindings :=
          bindings_of_grows hvalid.owned hgrown.grows rfl
        exact hinfer.of_bindings hsame
      · have hfirst := hlater _ _ _ _ hvalid hok
        exact ih htypes1 htypes2 hfirst.valid (hclear _ _ _ _ hvalid hinfer hty1 hty2 hok) hrest

theorem clear_unifyInPlace {fuel : Nat} {ty1 ty2 : Ty} {outcome : Outcome}
    (hvalid : infer.Valid) (hinfer : infer.Clear) (h1 : ¬ HasHead IsFrozen ty1.view)
    (h2 : ¬ HasHead IsFrozen ty2.view)
    (h : unifyInPlace fuel infer ty1 ty2 = some outcome) : outcome.2.Clear := by
  induction fuel generalizing infer ty1 ty2 outcome with
  | zero => cases h
  | succ fuel ih =>
    obtain ⟨found1, found2, hfound1, hfound2, hcases⟩ := unifyInPlace_succ h
    have hclear1 := hinfer.found h1 hfound1
    have hclear2 := hinfer.found h2 hfound2
    have hchild {head : Head} {args : List TyTerm} (hnode : ¬ HasHead IsFrozen (.node head args))
        (term : TyTerm) (hterm : term ∈ args) : ¬ HasHead IsFrozen term :=
      fun hhead => hnode (.inside hterm hhead)
    rcases hcases with ⟨-, rfl⟩ | ⟨-, hplan⟩
    · exact hinfer
    · have hplanned := planned found1 found2
      generalize plan found1 found2 = decision at hplanned hplan
      cases hplanned with
      | absorbed _ | same _ | rejected _ =>
        cases hplan
        exact hinfer
      | left _ =>
        cases hplan
        exact hinfer.bindVar hvalid _ hclear2
      | right _ =>
        cases hplan
        exact hinfer.bindVar hvalid _ hclear1
      | one _ _ hview1 hview2 =>
        rw [hview1] at hclear1
        rw [hview2] at hclear2
        exact ih hvalid hinfer (hchild hclear1 _ (mem_singleton_self _))
          (hchild hclear2 _ (mem_singleton_self _)) hplan
      | many _ hview1 hview2 =>
        rw [hview1] at hclear1
        rw [hview2] at hclear2
        refine clear_unifyEach (fun _ _ _ _ => later_unifyInPlace)
          (fun _ _ _ _ hvalid hinfer h1 h2 h => ih hvalid hinfer h1 h2 h) ?_ ?_ hvalid hinfer hplan
        · exact fun ty hty => hchild hclear1 _ (mem_map_of_mem hty)
        · exact fun ty hty => hchild hclear2 _ (mem_map_of_mem hty)

end

end TypeInfer

/-! ### Runs -/

/-- No type with a variable below a `Future` is unified. -/
def Call.Clear : Call → Prop
  | .unify ty1 ty2 => ¬ VarBelowFuture ty1 ∧ ¬ VarBelowFuture ty2
  | _ => True

theorem Step.clear {infer after : TypeInfer} {call : Call} (h : Step infer call after)
    (hcall : call.Clear) (hvalid : infer.Valid) (hinfer : infer.Clear) : after.Clear := by
  cases h with
  | unify hunifies =>
    obtain ⟨fuel, hfuel⟩ := hunifies.at_bound
    refine TypeInfer.clear_unifyInPlace hvalid hinfer ?_ ?_ hfuel
    · rw [hasHead_view_iff]
      exact hcall.1
    · rw [hasHead_view_iff]
      exact hcall.2
  | newTy kind =>
    exact hinfer.of_bindings
      (TypeInfer.bindings_of_grows hvalid.owned (TypeInfer.later_newTy hvalid kind).grows rfl)
  | freshTyVar =>
    have hgrows := (TyInterner.internTy_spec hvalid.wellFormed
      (.mk infer.nextTyId (.var infer.nextTyVarId))).grows
    exact hinfer.of_bindings (TypeInfer.bindings_of_grows hvalid.owned hgrows rfl)
  | addError error => exact hinfer
  | resetSubst => exact fun v term hv => nomatch hv

theorem clear_of_run {start infer : TypeInfer} {calls : List Call} (hstart : Started start)
    (hrun : History.Run Step start calls infer) (hcalls : ∀ call ∈ calls, call.Clear) :
    infer.Valid ∧ infer.Clear := by
  induction hrun with
  | nil =>
    refine ⟨hstart.valid, fun v term hv => ?_⟩
    rw [TypeInfer.bindings, TypeInfer.get, hstart.subst] at hv
    cases hv
  | snoc hrun hstep ih =>
    obtain ⟨hbefore, hlast⟩ := forall_mem_append.mp hcalls
    obtain ⟨hvalid, hclear⟩ := ih hbefore
    exact ⟨hstep.valid hvalid, hstep.clear (hlast _ (mem_singleton_self _)) hvalid hclear⟩

namespace TypeInfer

variable {infer : TypeInfer}

theorem applies_twice (hvalid : infer.Valid) {ty result : Ty} (h : infer.AppliesTo ty result) :
    infer.AppliesTo result result := by
  refine applies_self fun v hv => ?_
  rw [← Ty.occurs_view_iff] at hv
  exact (lookup_eq_none_iff hvalid.owned v).mp (h.resolves.free_of_occurs hv)

theorem bindVar_errors_iff (v : TyVarId) (ty : Ty) :
    (infer.bindVar v ty).errors = infer.errors ++ [.cyclicType] ↔ ty.containsVar v = true := by
  unfold bindVar
  cases hoccurs : ty.containsVar v with
  | true => exact ⟨fun _ => rfl, fun _ => rfl⟩
  | false =>
    have hnot : (infer.insert v ty).errors ≠ infer.errors ++ [.cyclicType] := by
      simp [TypeInfer.insert]
    exact ⟨fun h => absurd h hnot, fun h => absurd h Bool.false_ne_true⟩

/-- Applying the substitution always returns, and a second time changes
nothing. As long as no type with a variable below a `Future` was unified, a
type without one is resolved at every depth, and the occurs check refuses
exactly the bindings of a variable to a type that mentions it. -/
theorem apply_resolves_every_depth (infer : TypeInfer) (ty : Ty) :
    (Reachable infer → ∃ result, infer.AppliesTo ty result ∧ infer.AppliesTo result result) ∧
    ∀ start calls, Started start → History.Run Step start calls infer →
      (∀ call ∈ calls, call.Clear) → ¬ VarBelowFuture ty →
        (∀ result, infer.AppliesTo ty result → ∀ v, result.mentions v = true →
          infer.get v = none) ∧
        ∀ v, (infer.bindVar v ty).errors = infer.errors ++ [.cyclicType] ↔
          ty.mentions v = true := by
  constructor
  · intro hreach
    obtain ⟨result, hresult⟩ := hreach.valid.exists_applies ty
    exact ⟨result, hresult, applies_twice hreach.valid hresult⟩
  · intro start calls hstart hrun hcalls hty
    obtain ⟨hvalid, hclear⟩ := clear_of_run hstart hrun hcalls
    constructor
    · intro result hresult v hv
      have hfrozen : ¬ HasHead IsFrozen ty.view := by
        rw [hasHead_view_iff]
        exact hty
      have hbelow : ¬ VarBelowFuture result := by
        rw [← hasHead_view_iff]
        exact hresult.resolves.not_hasHead hclear hfrozen
      rw [← Ty.containsVar_eq_mentions hbelow, ← Ty.occurs_view_iff] at hv
      have hfree := hresult.resolves.free_of_occurs hv
      exact Option.map_eq_none_iff.mp hfree
    · intro v
      rw [bindVar_errors_iff, Ty.containsVar_eq_mentions hty]

/-- After `T0` was unified with `i64`, the pair of `T0` and `T1` is resolved at every
depth, and only a binding of `T0` or `T1` to it is refused. -/
theorem apply_resolves_pair :
    let pair : Ty := .mk 2 (.tuple [.mk 0 (.var 0), .mk 1 (.var 1)])
    let infer := empty.bindVar 0 (.mk 1 (.int .i64))
    infer.get 0 = some (.mk 0 (.int .i64)) ∧
      (∃ result, infer.AppliesTo pair result ∧ infer.AppliesTo result result) ∧
      (∀ result, infer.AppliesTo pair result → ∀ v, result.mentions v = true →
        infer.get v = none) ∧
      ∀ v, (infer.bindVar v pair).errors = infer.errors ++ [.cyclicType] ↔
        pair.mentions v = true := by
  intro pair infer
  have hstarted : Started empty := ⟨TyInterner.wellFormed_new, rfl, rfl⟩
  have hunify : empty.Unifies (.mk 0 (.var 0)) (.mk 1 (.int .i64)) (.ok ()) infer :=
    .of_rounds 2 fun _ => rfl
  have hrun : History.Run Step empty [.unify (.mk 0 (.var 0)) (.mk 1 (.int .i64))] infer :=
    .snoc (.nil _) (.unify hunify)
  have hleaf : ∀ {id} {kind : TyKind Ty}, kind.children = [] →
      (∀ inner, kind ≠ .future inner) → ¬ VarBelowFuture (.mk id kind) := by
    rintro id kind hchildren hfuture (_ | ⟨hty, -⟩)
    · exact hfuture _ rfl
    · rw [hchildren] at hty
      cases hty
  have hpair : ¬ VarBelowFuture (.mk 2 (.tuple [.mk 0 (.var 0), .mk 1 (.var 1)])) := by
    rintro (_ | ⟨hty, hbelow⟩)
    simp only [TyKind.children, mem_cons, not_mem_nil, or_false] at hty
    rcases hty with rfl | rfl <;> exact hleaf rfl (by simp) hbelow
  obtain ⟨hreturns, hresolved⟩ := apply_resolves_every_depth infer pair
  exact ⟨rfl, hreturns ⟨_, _, hstarted, hrun⟩, hresolved _ _ hstarted hrun
    (by simpa using ⟨hleaf rfl (by simp), hleaf rfl (by simp)⟩) hpair⟩

/-- A variable is bound to a `Future` of itself without an error, and stays in
the resolved type although it is bound. -/
theorem future_of_itself_accepted :
    ∃ after, empty.Unifies (.mk 0 (.var 0)) (.mk 1 (.future (.mk 2 (.var 0)))) (.ok ()) after ∧
      after.errors = [] ∧
      after.get 0 = some (.mk 0 (.future (.mk 0 (.var 0)))) ∧
      after.AppliesTo (.mk 0 (.var 0)) (.mk 0 (.future (.mk 0 (.var 0)))) ∧
      (Ty.mk 0 (.future (.mk 0 (.var 0)))).mentions 0 = true := by
  exact ⟨empty.bindVar 0 (.mk 1 (.future (.mk 2 (.var 0)))), .of_rounds 2 fun _ => rfl, rfl, rfl,
    .of_rounds 2 fun _ => rfl, rfl⟩

end TypeInfer

end Sengoo.Typeck
