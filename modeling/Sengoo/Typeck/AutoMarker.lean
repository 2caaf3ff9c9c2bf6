import Mathlib.Order.FixedPoints
import Mathlib.Order.CompletePartialOrder
import Sengoo.Table
import Sengoo.Typeck.Ty

/-!
Auto markers. `Send` and `Sync` hold of a type unless something in it refuses
them. The check cuts its recursion at a struct or enum whose name it is
already inside, whatever the arguments. The names it may cut at are the
greatest fixed point of the names whose declared components are covered.
-/

namespace Sengoo.Typeck

open List Relation

/-- `substitute_ty_vars`: the environment's goes into futures, the checker's
leaves them alone, which is the empty substitution there. -/
def Ty.substituteTyVars (intoFuture : Bool) : Ty → (TyVarId → Option Ty) → Ty :=
  fold fun id kind subst => match kind with
    | .var var => (subst var).getD (mk id (.var var))
    | .future inner => mk id (.future (inner (if intoFuture then subst else fun _ => none)))
    | kind => mk id (kind.map (· subst))

/-- The bindings after a match; `none` where the source answers false. -/
def matchGenericImplTarget (pattern : Ty) : Ty → Table TyVarId Ty → Option (Table TyVarId Ty) :=
  (pattern.fold fun id kind => (Ty.mk id (kind.map Prod.fst), fun concrete subst =>
    match kind with
    | .var var => match subst.lookup var with
      | some bound => if bound.beq concrete then some subst else none
      | none => some (subst.insert var concrete)
    -- the kinds without an arm of their own are compared as they are
    | .future _ | .assocProjection .. =>
      if (Ty.mk concrete.id (kind.map Prod.fst)).beq concrete then some subst else none
    | kind =>
      if kind.outline = concrete.kind.outline then
        (kind.children.zip concrete.kind.children).foldlM (fun subst pair => pair.1.2 pair.2 subst)
          subst
      else none)).2

structure StructLayout where
  typeParams : List TyVarId
  fields : List (String × Ty)

/-- What the check of one marker reads of the program. -/
structure Declarations where
  structFieldTypes : Table String StructLayout
  enumVariantFieldTys : Table String (Table String (List Ty))
  genericTypeMetas : Table String (List TyVarId)
  negativeTraitImpls : List Ty

def isNonSendRuntimeAdt (name : String) : Bool := name == "AsyncContext"

/-- The map of the parameters to the arguments; of equal parameters the last one counts. -/
def substitution (params : List TyVarId) (args : List Ty) (var : TyVarId) : Option Ty :=
  (params.zip args).reverse.lookup var

namespace Declarations

variable (d : Declarations)

def hasNegativeAutoMarkerImpl (ty : Ty) : Bool :=
  d.negativeTraitImpls.any fun pattern => (matchGenericImplTarget pattern ty ∅).isSome

def structFieldTypesFor (name : String) (args : List Ty) : Option (List (String × Ty)) :=
  (d.structFieldTypes.lookup name).map fun layout => layout.fields.map fun field =>
    (field.1, field.2.substituteTyVars true (substitution layout.typeParams args))

def enumPayloads (name : String) (args : List Ty) : Option (List Ty) :=
  (d.enumVariantFieldTys.lookup name).map fun variants =>
    (variants.entries.flatMap (·.2)).map
      (·.substituteTyVars false (substitution ((d.genericTypeMetas.lookup name).getD []) args))

/-- The fields of a struct and the payloads of an enum at the given arguments. -/
def declared (name : String) (args : List Ty) : List Ty :=
  ((d.structFieldTypesFor name args).getD []).map Prod.snd ++ (d.enumPayloads name args).getD []

def names : Finset String := (d.structFieldTypes.keys ++ d.enumVariantFieldTys.keys).toFinset

variable {d} {name : String} {args : List Ty} {visiting : Finset String} {ty u : Ty}

theorem unvisited_lt (hnew : name ∉ visiting) (hu : u ∈ d.declared name args) :
    (d.names \ insert name visiting).card < (d.names \ visiting).card := by
  have hname : name ∈ d.names := by
    rw [names, mem_toFinset, mem_append]
    by_contra! hnone
    simp only [declared, structFieldTypesFor, enumPayloads, AList.lookup_eq_none.mpr hnone.1,
      AList.lookup_eq_none.mpr hnone.2] at hu
    cases hu
  rw [Finset.sdiff_insert]
  exact Finset.card_erase_lt_of_mem (Finset.mem_sdiff.mpr ⟨hname, hnew⟩)

variable (d) in
/-- The recursion ends: a type is entered only under a declared name that was
not being visited. -/
def tySatisfiesAutoMarker (visitingAdts : Finset String) : Ty → Bool
  | .mk _ (.int _) | .mk _ .bool | .mk _ (.float _) | .mk _ .unit | .mk _ .str => true
  | .mk _ (.tuple types) => types.attach.all fun inner => tySatisfiesAutoMarker visitingAdts inner
  | .mk _ (.array elem _) | .mk _ (.slice elem) => tySatisfiesAutoMarker visitingAdts elem
  | .mk id (.adt name args) =>
    if d.hasNegativeAutoMarkerImpl (.mk id (.adt name args)) then false
    else if isNonSendRuntimeAdt name then false
    else if !args.attach.all fun inner => tySatisfiesAutoMarker visitingAdts inner then false
    else if _ : name ∈ visitingAdts then true
    else (d.declared name args).attach.all fun field =>
      tySatisfiesAutoMarker (insert name visitingAdts) field
  | .mk _ (.future _) | .mk _ (.ref ..) | .mk _ (.ptr _) => false
  | .mk _ (.fn ..) => true
  | _ => false
termination_by ty => ((d.names \ visitingAdts).card, sizeOf ty)
decreasing_by
  · exact .right _ (Ty.sizeOf_children inner.2)
  · exact .right _ (Ty.sizeOf_children (mem_singleton_self _))
  · exact .right _ (Ty.sizeOf_children (mem_singleton_self _))
  · exact .right _ (Ty.sizeOf_children inner.2)
  · exact .left _ _ (unvisited_lt ‹_› field.2)

end Declarations

/-! ### What refuses a marker -/

/-- The kinds that no declaration makes sendable: references, pointers, futures
and the built-in kinds and types the check does not list. -/
def TyKind.refuses {τ : Type} : TyKind τ → Bool
  | .int _ | .bool | .float _ | .unit | .str | .tuple _ | .array .. | .slice _ | .fn .. => false
  | .var _ => false
  | .adt name _ => isNonSendRuntimeAdt name
  | _ => true

/-- The elements of tuples, arrays and slices and the arguments of a struct or enum. -/
def TyKind.shown {τ : Type} : TyKind τ → List τ
  | .tuple types => types
  | .array elem _ | .slice elem => [elem]
  | .adt _ args => args
  | _ => []

theorem TyKind.shown_subset {τ : Type} {kind : TyKind τ} : kind.shown ⊆ kind.children := by
  cases kind <;> intro u hu <;> first | exact hu | cases hu

/-! ### Coverings -/

variable {allowed allowed' : Set String} {id : TyId} {kind : TyKind Ty} {ty : Ty}

def TyKind.Passes {τ : Type} (allowed : Set String) (kind : TyKind τ) : Prop :=
  kind.refuses = false ∧ ∀ name args, kind = .adt name args → name ∈ allowed

/-- Nothing the type shows refuses the marker, and its names are allowed. -/
inductive Covered (allowed : Set String) : Ty → Prop
  | mk {ty : Ty} (head : ty.kind.Passes allowed) (shown : ∀ u ∈ ty.kind.shown, Covered allowed u) :
      Covered allowed ty

theorem Covered.mono (hsubset : allowed ⊆ allowed') (h : Covered allowed ty) :
    Covered allowed' ty := by
  induction h with
  | mk head shown ih => exact .mk ⟨head.1, fun name args h => hsubset (head.2 name args h)⟩ ih

theorem substituteTyVars_mk (id : TyId) (kind : TyKind Ty) (intoFuture : Bool)
    (subst : TyVarId → Option Ty) :
    (∃ var, kind = .var var) ∨ (∃ inner, kind = .future inner) ∨
    (Ty.mk id kind).substituteTyVars intoFuture subst =
      .mk id (kind.map (·.substituteTyVars intoFuture subst)) := by
  rw [Ty.substituteTyVars, Ty.fold_mk]
  cases kind with
  | var var => exact .inl ⟨var, rfl⟩
  | future inner => exact .inr (.inl ⟨inner, rfl⟩)
  | _ => simp [TyKind.map]

theorem covered_map_iff {f : Ty → Ty} : Covered allowed (.mk id (kind.map f)) ↔
    kind.Passes allowed ∧ ∀ u ∈ kind.shown, Covered allowed (f u) := by
  have hpasses : (kind.map f).Passes allowed ↔ kind.Passes allowed := by
    cases kind <;> simp [TyKind.Passes, TyKind.map, TyKind.refuses]
  have hshown : (kind.map f).shown = kind.shown.map f := by cases kind <;> rfl
  constructor
  · rintro ⟨head, shown⟩
    exact ⟨hpasses.mp head, fun u hu => shown _ (hshown ▸ mem_map_of_mem hu)⟩
  · rintro ⟨head, shown⟩
    exact .mk (hpasses.mpr head) (hshown ▸ forall_mem_map.mpr shown)

section

variable {intoFuture : Bool} {subst : TyVarId → Option Ty}

theorem Covered.of_substitute (h : Covered allowed (ty.substituteTyVars intoFuture subst)) :
    Covered allowed ty := by
  induction ty using Ty.induct with
  | mk id kind ih =>
    rcases substituteTyVars_mk id kind intoFuture subst with ⟨var, rfl⟩ | ⟨inner, rfl⟩ | heq
    · exact .mk ⟨rfl, nofun⟩ nofun
    · rw [Ty.substituteTyVars] at h
      cases h with
      | mk head shown => cases head.1
    · rw [heq, covered_map_iff] at h
      exact .mk h.1 fun u hu => ih u (TyKind.shown_subset hu) (h.2 u hu)

theorem Covered.substitute (h : Covered allowed ty)
    (hsubst : ∀ var u, subst var = some u → Covered allowed u) :
    Covered allowed (ty.substituteTyVars intoFuture subst) := by
  induction h with
  | @mk ty head shown ih =>
    obtain ⟨id, kind⟩ := ty
    rcases substituteTyVars_mk id kind intoFuture subst with ⟨var, rfl⟩ | ⟨inner, rfl⟩ | heq
    · rw [Ty.substituteTyVars]
      show Covered allowed ((subst var).getD _)
      cases hvar : subst var with
      | none => exact .mk ⟨rfl, nofun⟩ nofun
      | some u => exact hsubst var u hvar
    · cases head.1
    · rw [heq, covered_map_iff]
      exact ⟨head, ih⟩

end

namespace Declarations

variable (d : Declarations)

def parts (ty : Ty) : List Ty :=
  ty.kind.shown ++ match ty.kind with
    | .adt name args => d.declared name args
    | _ => []

def Reachable : Ty → Ty → Prop := ReflTransGen fun ty u => u ∈ d.parts ty

def Refused (ty : Ty) : Prop := ty.kind.refuses = true ∨ d.hasNegativeAutoMarkerImpl ty = true

/-- A struct or enum under whose name another one is reached, at other arguments. -/
def Reenters (ty : Ty) : Prop :=
  ∃ name args args' w, ty.kind = .adt name args ∧ d.Reachable ty w ∧ w.kind = .adt name args' ∧
    args' ≠ args

/-- What a type reaches has a negative impl by the name of a struct or enum,
whatever the arguments. -/
def RefusedByName (ty : Ty) : Prop :=
  ∃ negative : Set String, ∀ w, d.Reachable ty w → (d.hasNegativeAutoMarkerImpl w = true ↔
    ∃ name ∈ negative, ∃ args, w.kind = .adt name args)

/-- Reached without going on from one of the kinds. -/
def Avoiding (entered : Set (TyKind Ty)) : Ty → Ty → Prop :=
  ReflTransGen fun ty u => ty.kind ∉ entered ∧ u ∈ d.parts ty

/-- The names without a negative impl whose declared components are covered by
the names `covered` and those being visited. -/
def coverable (negative visiting : Set String) : Set String →o Set String where
  toFun covered := {name | name ∉ negative ∧ ∀ intoFuture params template,
    (∀ args, template.substituteTyVars intoFuture (substitution params args) ∈
      d.declared name args) → Covered (covered ∪ visiting) template}
  monotone' _ _ hsubset _ := And.imp_right fun h intoFuture params template htemplate =>
    (h intoFuture params template htemplate).mono (Set.union_subset_union_left _ hsubset)

variable {d} {name : String} {args : List Ty} {visiting : Finset String} {u root : Ty}
  {negative : Set String}

theorem mem_parts_of_shown (h : u ∈ ty.kind.shown) : u ∈ d.parts ty := mem_append_left _ h

theorem mem_parts_of_declared (hkind : ty.kind = .adt name args) (h : u ∈ d.declared name args) :
    u ∈ d.parts ty := by
  rw [parts, hkind]
  exact mem_append_right _ h

theorem satisfies_iff : d.tySatisfiesAutoMarker visiting ty = true ↔
    (∀ var, ty.kind ≠ .var var) ∧ ty.kind.refuses = false ∧
    (∀ u ∈ ty.kind.shown, d.tySatisfiesAutoMarker visiting u = true) ∧
    ∀ name args, ty.kind = .adt name args → d.hasNegativeAutoMarkerImpl ty = false ∧
      (name ∉ visiting →
        ∀ u ∈ d.declared name args, d.tySatisfiesAutoMarker (insert name visiting) u = true) := by
  obtain ⟨id, kind⟩ := ty
  cases kind with
  | adt name args =>
    rw [tySatisfiesAutoMarker]
    by_cases hmem : name ∈ visiting <;>
      simp [Ty.kind] <;> tauto
  | _ => simp [tySatisfiesAutoMarker, Ty.kind, TyKind.refuses, TyKind.shown]

/-- The induction of the check: into the components shown, and under a new name
into the declared ones. -/
theorem marker_induct {motive : Finset String → Ty → Prop}
    (h : ∀ visiting ty, (∀ u ∈ ty.kind.shown, motive visiting u) →
      (∀ name args, ty.kind = .adt name args → name ∉ visiting →
        ∀ u ∈ d.declared name args, motive (insert name visiting) u) → motive visiting ty)
    (visiting : Finset String) (ty : Ty) : motive visiting ty :=
  h visiting ty (fun u _ => marker_induct h visiting u)
    fun name _ _ _ u _ => marker_induct h (insert name visiting) u
termination_by ((d.names \ visiting).card, sizeOf ty)
decreasing_by
  · obtain ⟨id, kind⟩ := ty
    exact .right _ (Ty.sizeOf_children (TyKind.shown_subset ‹_›))
  · exact .left _ _ (unvisited_lt ‹_› ‹_›)

theorem satisfies_of_none (h : ∀ w, d.Reachable ty w → ¬ d.Refused w ∧ ∀ var, w.kind ≠ .var var) :
    d.tySatisfiesAutoMarker visiting ty = true := by
  induction visiting, ty using d.marker_induct with
  | h visiting ty ihshown ihdeclared =>
    obtain ⟨hrefused, hvar⟩ := h ty .refl
    obtain ⟨hkind, hnegative⟩ := not_or.mp hrefused
    apply satisfies_iff.mpr
    refine ⟨hvar, Bool.eq_false_iff.mpr hkind, ?_, ?_⟩
    · intro u hu
      exact ihshown u hu fun w hw => h w (.head (mem_parts_of_shown hu) hw)
    · intro name args hadt
      refine ⟨Bool.eq_false_iff.mpr hnegative, fun hnew u hu => ?_⟩
      exact ihdeclared name args hadt hnew u hu
        fun w hw => h w (.head (mem_parts_of_declared hadt hu) hw)

theorem exists_template (h : u ∈ d.declared name args) :
    ∃ (intoFuture : Bool) (params : List TyVarId) (template : Ty),
    (∀ args, template.substituteTyVars intoFuture (substitution params args) ∈
      d.declared name args) ∧
    u = template.substituteTyVars intoFuture (substitution params args) := by
  rcases mem_append.mp h with h | h
  · cases hlayout : d.structFieldTypes.lookup name <;> rw [structFieldTypesFor, hlayout] at h
    · cases h
    obtain ⟨_, hmem, rfl⟩ := mem_map.mp h
    obtain ⟨field, hfield, rfl⟩ := mem_map.mp hmem
    refine ⟨true, _, field.2, fun args => mem_append_left _ ?_, rfl⟩
    rw [structFieldTypesFor, hlayout]
    exact mem_map_of_mem (mem_map_of_mem hfield)
  · cases hvariants : d.enumVariantFieldTys.lookup name <;> rw [enumPayloads, hvariants] at h
    · cases h
    obtain ⟨template, htemplate, rfl⟩ := mem_map.mp h
    refine ⟨false, _, template, fun args => mem_append_right _ ?_, rfl⟩
    rw [enumPayloads, hvariants]
    exact mem_map_of_mem htemplate

theorem substitution_mem {params : List TyVarId} {var : TyVarId}
    (h : substitution params args var = some u) : u ∈ args := by
  obtain ⟨front, back, hsplit, -⟩ := lookup_eq_some_iff.mp h
  have hmem : (var, u) ∈ (params.zip args).reverse := by simp [hsplit]
  exact (of_mem_zip (mem_reverse.mp hmem)).2

theorem covered_of_satisfies
    (hnegative : ∀ w, d.Reachable root w → (d.hasNegativeAutoMarkerImpl w = true ↔
      ∃ name ∈ negative, ∃ args, w.kind = .adt name args))
    (hreachable : d.Reachable root ty) (h : d.tySatisfiesAutoMarker visiting ty = true) :
    Covered ((d.coverable negative visiting).gfp ∪ visiting) ty := by
  induction visiting, ty using d.marker_induct with
  | h visiting ty ihshown ihdeclared =>
    obtain ⟨hvar, hrefuses, hshown, hadt⟩ := satisfies_iff.mp h
    refine .mk ⟨hrefuses, fun name args hkind => ?_⟩ fun u hu =>
      ihshown u hu (hreachable.tail (mem_parts_of_shown hu)) (hshown u hu)
    obtain ⟨hnot, hdeclared⟩ := hadt name args hkind
    by_cases hmem : name ∈ visiting
    · exact .inr hmem
    left
    -- with the new name added, what the check below covers is a post-fixed point
    let below := (d.coverable negative ↑(insert name visiting)).gfp
    have hunion : below ∪ ↑(insert name visiting) = insert name below ∪ visiting := by
      rw [Finset.coe_insert, Set.union_insert, Set.insert_union]
    refine OrderHom.le_gfp _ (a := insert name below) ?_ (Set.mem_insert ..)
    rintro other (rfl | hother)
    · refine ⟨fun hin => ?_, fun intoFuture params template htemplate => ?_⟩
      · rw [(hnegative ty hreachable).mpr ⟨_, hin, args, hkind⟩] at hnot
        cases hnot
      · rw [← hunion]
        have hpart := mem_parts_of_declared hkind (htemplate args)
        exact (ihdeclared _ args hkind hmem _ (htemplate args) (hreachable.tail hpart)
          (hdeclared hmem _ (htemplate args))).of_substitute
    · have hfixed : other ∈ d.coverable negative ↑(insert name visiting) below := by
        rw [OrderHom.map_gfp]
        exact hother
      refine ⟨hfixed.1, fun intoFuture params template htemplate => ?_⟩
      rw [← hunion]
      exact hfixed.2 intoFuture params template htemplate

theorem covered_part {covered : Set String}
    (hcovered : covered ⊆ d.coverable negative visiting covered) (h : Covered (covered ∪ visiting) ty)
    (hnew : ∀ name args, ty.kind = .adt name args → name ∉ visiting) (hu : u ∈ d.parts ty) :
    Covered (covered ∪ visiting) u := by
  cases h with
  | mk head shown =>
    rcases mem_append.mp hu with hu | hu
    · exact shown u hu
    · cases hkind : ty.kind with
      | adt name args =>
        rw [hkind] at hu shown
        obtain ⟨intoFuture, params, template, htemplate, rfl⟩ := exists_template hu
        have hname := (head.2 name args hkind).resolve_right (hnew name args hkind)
        exact ((hcovered hname).2 intoFuture params template htemplate).substitute
          fun var u hvar => shown u (substitution_mem hvar)
      | _ =>
        rw [hkind] at hu
        cases hu

theorem hasNegative_congr (h : ty.kind = u.kind) :
    d.hasNegativeAutoMarkerImpl ty = d.hasNegativeAutoMarkerImpl u := by
  obtain ⟨id, kind⟩ := ty
  obtain ⟨id', kind'⟩ := u
  obtain rfl : kind = kind' := h
  unfold hasNegativeAutoMarkerImpl
  congr 1
  funext pattern
  obtain ⟨_, patternKind⟩ := pattern
  rw [matchGenericImplTarget, Ty.fold_mk]
  cases patternKind with
  | var => rfl
  | future | assocProjection =>
    simp only [TyKind.map, Ty.id, Ty.beq_iff, Ty.mk.injEq, true_and]
  | _ => rfl

section Exact

variable {entered : Set (TyKind Ty)}

theorem Avoiding.reachable (h : d.Avoiding entered ty u) : d.Reachable ty u :=
  ReflTransGen.mono (fun _ _ hstep => hstep.2) _ _ h

/-- A type is reached without coming back to the kind of `ty`, from where one stands
or from a part of `ty`. -/
theorem Avoiding.last {w : Ty} (h : d.Avoiding entered u w) (ty : Ty) :
    d.Avoiding (insert ty.kind entered) u w ∨
      ∃ v ∈ d.parts ty, d.Avoiding (insert ty.kind entered) v w := by
  induction h using ReflTransGen.head_induction_on with
  | refl => exact .inl .refl
  | @head u v hstep _ ih =>
    rcases ih with ih | ih
    · by_cases hkind : u.kind = ty.kind
      · refine .inr ⟨v, ?_, ih⟩
        rw [parts, ← hkind]
        exact hstep.2
      · exact .inl (.head ⟨fun hmem => hmem.elim hkind hstep.1, hstep.2⟩ ih)
    · exact .inr ih

theorem Avoiding.eq_of_mem (h : d.Avoiding entered ty u) (hmem : ty.kind ∈ entered) : u = ty := by
  rcases h.cases_head with rfl | ⟨v, hstep, -⟩
  · rfl
  · exact absurd hmem hstep.1

/-- Below a type whose negative impls go by the name, the names that the check has
covered are covered at all arguments. -/
theorem not_refused_of_byName (hbyName : d.RefusedByName ty)
    (h : d.tySatisfiesAutoMarker visiting ty = true)
    (hvisiting : ∀ w, d.Reachable ty w → ∀ name args, w.kind = .adt name args →
      name ∈ visiting → w.kind ∈ entered)
    (hentered : ∀ w : Ty, w.kind ∈ entered → ¬ d.Refused w) (hu : d.Avoiding entered ty u) :
    ¬ d.Refused u := by
  obtain ⟨negative, hnegative⟩ := hbyName
  have hgfp := (d.coverable negative visiting).map_gfp
  have hcovered : Covered ((d.coverable negative visiting).gfp ∪ visiting) u := by
    induction hu with
    | refl => exact covered_of_satisfies hnegative .refl h
    | @tail v u hv hpart ih =>
      refine covered_part hgfp.ge ih (fun name args hkind hmem => ?_) hpart.2
      exact hpart.1 (hvisiting v (Avoiding.reachable hv) name args hkind hmem)
  have hreachable := Avoiding.reachable hu
  obtain ⟨head, -⟩ := hcovered
  intro hrefused
  rcases hrefused with hkind | hmatched
  · exact absurd hkind (Bool.eq_false_iff.mp head.1)
  · obtain ⟨name, hname, args, hadt⟩ := (hnegative u hreachable).mp hmatched
    rcases head.2 name args hadt with hgood | hmem
    · exact (hgfp.ge hgood).1 hname
    · exact hentered u (hvisiting u hreachable name args hadt hmem) (.inr hmatched)

/-- What the check has passed is not refused, as far as it is reached without going
on from what the check is inside of: a cut at a type that was entered before comes
back to it, and below a type that is met at other arguments the impls go by the name. -/
theorem not_refused_of_satisfies
    (hadts : ∀ w, d.Reachable root w → d.hasNegativeAutoMarkerImpl w = true →
      ∃ name args, w.kind = .adt name args)
    (hbyName : ∀ w, d.Reachable root w → d.Reenters w → d.RefusedByName w)
    (hreachable : d.Reachable root ty) (h : d.tySatisfiesAutoMarker visiting ty = true)
    (hvisiting : ∀ w, d.Reachable ty w → ∀ name args, w.kind = .adt name args →
      name ∈ visiting → w.kind ∈ entered)
    (hentered : ∀ w : Ty, w.kind ∈ entered → ¬ d.Refused w) (hu : d.Avoiding entered ty u) :
    ¬ d.Refused u := by
  induction visiting, ty using d.marker_induct generalizing entered with
  | h visiting ty ihshown ihdeclared =>
    by_cases hreenters : d.Reenters ty
    · exact not_refused_of_byName (hbyName ty hreachable hreenters) h hvisiting hentered hu
    obtain ⟨-, hrefuses, hshown, hadt⟩ := satisfies_iff.mp h
    have hself : ¬ d.Refused ty := by
      rintro (hkind | hmatched)
      · exact absurd hkind (Bool.eq_false_iff.mp hrefuses)
      · obtain ⟨name, args, hkind⟩ := hadts ty hreachable hmatched
        rw [(hadt name args hkind).1] at hmatched
        cases hmatched
    rcases hu.last ty with hstay | ⟨v, hv, hrest⟩
    · rw [hstay.eq_of_mem (Set.mem_insert _ _)]
      exact hself
    have hbelow : ∀ w, d.Reachable v w → d.Reachable ty w := fun w => .head hv
    rcases mem_append.mp hv with hmem | hmem
    · exact ihshown v hmem (hreachable.tail hv) (hshown v hmem)
        (fun w hw => hvisiting w (hbelow w hw)) hentered
        (ReflTransGen.mono (fun _ _ hstep => ⟨fun hin => hstep.1 (.inr hin), hstep.2⟩) _ _ hrest)
    · cases hkind : ty.kind with
      | adt name args =>
        rw [hkind] at hmem
        by_cases hin : name ∈ visiting
        · rw [hu.eq_of_mem (hvisiting ty .refl name args hkind hin)]
          exact hself
        refine ihdeclared name args hkind hin v hmem (hreachable.tail hv)
          ((hadt name args hkind).2 hin v hmem) (fun w hw other args' hother hname => ?_)
          (fun w hw => ?_) hrest
        · rcases Finset.mem_insert.mp hname with rfl | hname
          · have hsame : args' = args := by
              by_contra hne
              exact hreenters ⟨other, args, args', w, hkind, hbelow w hw, hother, hne⟩
            rw [hother, hsame, hkind]
            exact Set.mem_insert _ _
          · exact .inr (hvisiting w (hbelow w hw) other args' hother hname)
        · rcases hw with hw | hw
          · unfold Refused at hself ⊢
            rwa [hw, hasNegative_congr hw]
          · exact hentered w hw
      | _ =>
        rw [hkind] at hmem
        cases hmem

end Exact

def nestedAt (kind : IntKind) : Ty := .mk 0 (.adt "N" [.mk 0 (.int kind)])

def badAt (kind : IntKind) : Ty := .mk 0 (.adt "Bad" [.mk 0 (.int kind)])

/-- `struct N<T> { bad: Bad<T>, next: N<i32> }` with `impl !Send for Bad<i32>`. -/
def nested : Declarations where
  structFieldTypes := (∅ : Table String StructLayout).insert "N"
    ⟨[0], [("bad", .mk 0 (.adt "Bad" [.mk 0 (.var 0)])), ("next", nestedAt .i32)]⟩
  enumVariantFieldTys := ∅
  genericTypeMetas := ∅
  negativeTraitImpls := [badAt .i32]

end Declarations

end Sengoo.Typeck
