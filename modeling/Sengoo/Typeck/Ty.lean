import Mathlib.Data.List.Forall2

/-!
Types of the checker. A kind is written over an arbitrary type of components,
so that the kinds of owned types and those of the interner, whose components
are handles, are one definition; a type is an origin tag and a kind over types.
Functions on types are folds.
-/

namespace Sengoo.Typeck

open List

abbrev TyId := Nat

abbrev TyVarId := Nat

inductive IntKind where
  | i8 | i16 | i32 | i64 | i128 | isize | u8 | u16 | u32 | u64 | u128 | usize
deriving DecidableEq

inductive FloatKind where
  | f32 | f64
deriving DecidableEq

/-- `TyKind` over its own types, and `InternedTyKind` over handles. -/
inductive TyKind (τ : Type) where
  | error
  | unit
  | never
  | bool
  | int (kind : IntKind)
  | float (kind : FloatKind)
  | char
  | str
  | byte
  | bytes
  | tuple (types : List τ)
  | array (elem : τ) (n : Nat)
  | slice (elem : τ)
  | ref (isMut : Bool) (inner : τ)
  | ptr (inner : τ)
  | fn (params : List τ) (ret : τ) (isVariadic : Bool)
  | var (id : TyVarId)
  | adt (name : String) (args : List τ)
  | dyn (traits : List String)
  | assocProjection (base : τ) (traitName name : String)
  | implTrait (traits : List String)
  | future (inner : τ)
  | selfType
  | inferred
deriving DecidableEq

inductive Ty where
  | mk (id : TyId) (kind : TyKind Ty)

namespace TyKind

variable {α β γ : Type}

def map (f : α → β) : TyKind α → TyKind β
  | error => .error
  | unit => .unit
  | never => .never
  | bool => .bool
  | int kind => .int kind
  | float kind => .float kind
  | char => .char
  | str => .str
  | byte => .byte
  | bytes => .bytes
  | tuple types => .tuple (types.map f)
  | array elem n => .array (f elem) n
  | slice elem => .slice (f elem)
  | ref isMut inner => .ref isMut (f inner)
  | ptr inner => .ptr (f inner)
  | fn params ret isVariadic => .fn (params.map f) (f ret) isVariadic
  | var id => .var id
  | adt name args => .adt name (args.map f)
  | dyn traits => .dyn traits
  | assocProjection base traitName name => .assocProjection (f base) traitName name
  | implTrait traits => .implTrait traits
  | future inner => .future (f inner)
  | selfType => .selfType
  | inferred => .inferred

/-- The components in the order of the source. -/
def children : TyKind α → List α
  | tuple types => types
  | array elem _ => [elem]
  | slice elem => [elem]
  | ref _ inner => [inner]
  | ptr inner => [inner]
  | fn params ret _ => params ++ [ret]
  | adt _ args => args
  | assocProjection base _ _ => [base]
  | future inner => [inner]
  | _ => []

/-- A kind from its outline and its components. -/
def fill (components : List α) : TyKind Unit → Option (TyKind α)
  | error => some .error
  | unit => some .unit
  | never => some .never
  | bool => some .bool
  | int kind => some (.int kind)
  | float kind => some (.float kind)
  | char => some .char
  | str => some .str
  | byte => some .byte
  | bytes => some .bytes
  | tuple _ => some (.tuple components)
  | array _ n => components.head?.map (.array · n)
  | slice _ => components.head?.map .slice
  | ref isMut _ => components.head?.map (.ref isMut)
  | ptr _ => components.head?.map .ptr
  | fn _ _ isVariadic => components.getLast?.map (.fn components.dropLast · isVariadic)
  | var id => some (.var id)
  | adt name _ => some (.adt name components)
  | dyn traits => some (.dyn traits)
  | assocProjection _ traitName name => components.head?.map (.assocProjection · traitName name)
  | implTrait traits => some (.implTrait traits)
  | future _ => components.head?.map .future
  | selfType => some .selfType
  | inferred => some .inferred

/-- The kind without its components. -/
def outline (kind : TyKind α) : TyKind Unit := kind.map fun _ => ()

theorem fill_outline (kind : TyKind α) : kind.outline.fill kind.children = some kind := by
  cases kind with
  | fn params ret isVariadic =>
    show (params ++ [ret]).getLast?.map (TyKind.fn (params ++ [ret]).dropLast · isVariadic) = _
    rw [getLast?_concat, dropLast_concat]
    rfl
  | _ => rfl

theorem ext {kind kind' : TyKind α} (houtline : kind.outline = kind'.outline)
    (hchildren : kind.children = kind'.children) : kind = kind' := by
  have hfill := fill_outline kind
  rw [houtline, hchildren, fill_outline] at hfill
  exact (Option.some.inj hfill).symm

@[simp] theorem children_map (f : α → β) (kind : TyKind α) :
    (kind.map f).children = kind.children.map f := by
  cases kind with
  | fn params ret isVariadic =>
    show params.map f ++ [f ret] = (params ++ [ret]).map f
    rw [map_append]
    rfl
  | _ => rfl

@[simp] theorem map_map (f : α → β) (g : β → γ) (kind : TyKind α) :
    (kind.map f).map g = kind.map (g ∘ f) := by
  cases kind <;> simp [map]

@[simp] theorem outline_map (f : α → β) (kind : TyKind α) : (kind.map f).outline = kind.outline :=
  map_map f _ kind

variable {kind : TyKind α} {components : List α}

theorem map_congr {f g : α → β} (h : ∀ a ∈ kind.children, f a = g a) : kind.map f = kind.map g := by
  refine ext ?_ ?_
  · rw [outline_map, outline_map]
  · rw [children_map, children_map]
    exact map_congr_left h

/-- Visiting the components from left to right. -/
def mapM {m : Type → Type} [Monad m] (f : α → m β) : TyKind α → m (TyKind β)
  | error => pure .error
  | unit => pure .unit
  | never => pure .never
  | bool => pure .bool
  | int kind => pure (.int kind)
  | float kind => pure (.float kind)
  | char => pure .char
  | str => pure .str
  | byte => pure .byte
  | bytes => pure .bytes
  | tuple types => do return .tuple (← types.mapM f)
  | array elem n => do return .array (← f elem) n
  | slice elem => do return .slice (← f elem)
  | ref isMut inner => do return .ref isMut (← f inner)
  | ptr inner => do return .ptr (← f inner)
  | fn params ret isVariadic => do
      let params ← params.mapM f
      let ret ← f ret
      return .fn params ret isVariadic
  | var id => pure (.var id)
  | adt name args => do return .adt name (← args.mapM f)
  | dyn traits => pure (.dyn traits)
  | assocProjection base traitName name => do return .assocProjection (← f base) traitName name
  | implTrait traits => pure (.implTrait traits)
  | future inner => do return .future (← f inner)
  | selfType => pure .selfType
  | inferred => pure .inferred

theorem eq_of_length {units : List Unit}
    (h : components.length = units.length) : components.map (fun _ => ()) = units :=
  ext_getElem (by rw [length_map, h]) fun _ _ _ => rfl

/-- As many components as the outline has make a kind. -/
theorem fill_spec {outline : TyKind Unit}
    (h : components.length = outline.children.length) :
    ∃ kind, outline.fill components = some kind ∧ kind.outline = outline ∧
      kind.children = components := by
  cases outline with
  | tuple units => exact ⟨.tuple components, rfl, congrArg tuple (eq_of_length h), rfl⟩
  | adt name units => exact ⟨.adt name components, rfl, congrArg (adt name) (eq_of_length h), rfl⟩
  | fn units u isVariadic =>
    obtain rfl | ⟨params, ret, rfl⟩ := components.eq_nil_or_concat
    · simp [children] at h
    · refine ⟨.fn params ret isVariadic, ?_, ?_, concat_eq_append.symm⟩
      · simp [fill]
      · have hlength : params.length = units.length := by simpa [children] using h
        exact congrArg (fn · () isVariadic) (eq_of_length hlength)
  | array | slice | ref | ptr | assocProjection | future =>
    obtain ⟨component, rfl⟩ := length_eq_one_iff.mp h
    exact ⟨_, rfl, rfl, rfl⟩
  | _ =>
    cases length_eq_zero_iff.mp h
    exact ⟨_, rfl, rfl, rfl⟩

theorem fill_map (f : α → β) (components : List α) (outline : TyKind Unit) :
    outline.fill (components.map f) = (outline.fill components).map (map f) := by
  cases outline with
  | array | slice | ref | ptr | assocProjection | future => cases components <;> rfl
  | fn =>
    simp only [fill, getLast?_map, dropLast_eq_take, length_map, ← map_take,
      Option.map_map]
    rfl
  | _ => rfl

theorem length_children_outline (kind : TyKind α) :
    kind.outline.children.length = kind.children.length := by
  rw [outline, children_map, length_map]

/-- Visiting the components is visiting their list. -/
theorem mapM_eq {m : Type → Type} [Monad m] [LawfulMonad m] (f : α → m β) (kind : TyKind α) :
    kind.mapM f = do
      let components ← kind.children.mapM f
      return (kind.outline.fill components).getD .error := by
  cases kind with
  | _ => simp [mapM, children, outline, map, fill]

theorem forall₂_of_mapM {f : α → Option β} {results : List β} : components.mapM f = some results ↔
      List.Forall₂ (fun component result => f component = some result) components results := by
  induction components generalizing results with
  | nil => cases results <;> simp
  | cons component components ih =>
    rw [mapM_cons]
    constructor
    · intro h
      obtain ⟨result, hresult, h⟩ := Option.bind_eq_some_iff.mp h
      obtain ⟨rest, hrest, h⟩ := Option.bind_eq_some_iff.mp h
      cases h
      exact .cons hresult (ih.mp hrest)
    · intro h
      cases h with
      | cons hresult hrest =>
        rw [hresult, ih.mpr hrest]
        rfl

/-- A visit succeeds with the kind whose components are the results. -/
theorem mapM_eq_some {f : α → Option β} {kind' : TyKind β} :
    kind.mapM f = some kind' ↔ kind'.outline = kind.outline ∧
      List.Forall₂ (fun component result => f component = some result) kind.children
        kind'.children := by
  rw [mapM_eq]
  constructor
  · intro h
    obtain ⟨results, hresults, h⟩ := Option.bind_eq_some_iff.mp h
    have hforall := forall₂_of_mapM.mp hresults
    obtain ⟨filled, hfilled, houtline, hchildren⟩ :=
      fill_spec (hforall.length_eq.symm.trans (length_children_outline kind).symm)
    rw [hfilled] at h
    cases h
    rw [Option.getD_some, hchildren]
    exact ⟨houtline, hforall⟩
  · rintro ⟨houtline, hchildren⟩
    rw [forall₂_of_mapM.mpr hchildren, ← houtline]
    show some ((kind'.outline.fill kind'.children).getD .error) = _
    rw [fill_outline]
    rfl

end TyKind

/-! ### Folds -/

namespace Ty

def id : Ty → TyId
  | mk id _ => id

def kind : Ty → TyKind Ty
  | mk _ kind => kind

variable {α : Type}

mutual

/-- A value computed from the tag, the kind and the values of the components. -/
def fold (f : TyId → TyKind α → α) : Ty → α
  | mk id kind => f id (foldKind f kind)

def foldKind (f : TyId → TyKind α → α) : TyKind Ty → TyKind α
  | .error => .error
  | .unit => .unit
  | .never => .never
  | .bool => .bool
  | .int kind => .int kind
  | .float kind => .float kind
  | .char => .char
  | .str => .str
  | .byte => .byte
  | .bytes => .bytes
  | .tuple types => .tuple (foldAll f types)
  | .array elem n => .array (fold f elem) n
  | .slice elem => .slice (fold f elem)
  | .ref isMut inner => .ref isMut (fold f inner)
  | .ptr inner => .ptr (fold f inner)
  | .fn params ret isVariadic => .fn (foldAll f params) (fold f ret) isVariadic
  | .var id => .var id
  | .adt name args => .adt name (foldAll f args)
  | .dyn traits => .dyn traits
  | .assocProjection base traitName name => .assocProjection (fold f base) traitName name
  | .implTrait traits => .implTrait traits
  | .future inner => .future (fold f inner)
  | .selfType => .selfType
  | .inferred => .inferred

def foldAll (f : TyId → TyKind α → α) : List Ty → List α
  | [] => []
  | ty :: types => fold f ty :: foldAll f types

end

theorem foldAll_eq (f : TyId → TyKind α → α) (types : List Ty) :
    foldAll f types = types.map (fold f) := by
  induction types with
  | nil => rfl
  | cons ty types ih => exact congrArg (fold f ty :: ·) ih

theorem fold_mk (f : TyId → TyKind α → α) (id : TyId) (kind : TyKind Ty) :
    fold f (mk id kind) = f id (kind.map (fold f)) := by
  have hkind : foldKind f kind = kind.map (fold f) := by
    cases kind <;> simp only [foldKind, TyKind.map, foldAll_eq]
  exact congrArg (f id) hkind

theorem sizeOf_children {id : TyId} {kind : TyKind Ty} {ty : Ty} (h : ty ∈ kind.children) :
    sizeOf ty < sizeOf (mk id kind) := by
  have hkind : sizeOf ty < sizeOf kind := by
    cases kind <;> simp only [TyKind.children, mem_append, mem_singleton,
      not_mem_nil] at h
    case fn params ret isVariadic =>
      rcases h with h | rfl
      · have hlt := sizeOf_lt_of_mem h
        simp only [TyKind.fn.sizeOf_spec]
        omega
      · simp only [TyKind.fn.sizeOf_spec]
        omega
    case tuple types | adt name args =>
      have hlt := sizeOf_lt_of_mem h
      simp only [TyKind.tuple.sizeOf_spec, TyKind.adt.sizeOf_spec]
      omega
    all_goals
      subst h
      simp
      try omega
  simp only [mk.sizeOf_spec]
  omega

/-- Induction over the components of a type. -/
@[elab_as_elim]
theorem induct {motive : Ty → Prop}
    (mk : ∀ id kind, (∀ ty ∈ kind.children, motive ty) → motive (.mk id kind)) (ty : Ty) :
    motive ty := by
  obtain ⟨id, kind⟩ := ty
  exact mk id kind fun child hchild => induct mk child
termination_by sizeOf ty
decreasing_by exact sizeOf_children hchild

/-! ### Equality -/

/-- The derived equality of the source, tags included. -/
def beq : Ty → Ty → Bool :=
  fold fun id kind ty => id == ty.id && decide (kind.outline = ty.kind.outline) &&
    (List.zipWith (fun same child => same child) kind.children ty.kind.children).all (·)

theorem all_zipWith_beq {types types' : List Ty} (hlength : types.length = types'.length)
    (h : ∀ ty ∈ types, ∀ ty', ty.beq ty' = true ↔ ty = ty') :
    (List.zipWith (fun same child => same child) (types.map beq) types').all (·) = true ↔
      types = types' := by
  induction types generalizing types' with
  | nil =>
    cases length_eq_zero_iff.mp hlength.symm
    simp
  | cons ty types ih =>
    obtain ⟨ty', types', rfl⟩ := exists_cons_of_length_eq_add_one hlength.symm
    obtain ⟨hty, htypes⟩ := forall_mem_cons.mp h
    have htail := ih (Nat.succ.inj hlength) htypes
    simp only [map_cons, zipWith_cons_cons, all_cons, Bool.and_eq_true, hty ty',
      htail, List.cons.injEq]

theorem beq_iff (ty ty' : Ty) : ty.beq ty' = true ↔ ty = ty' := by
  induction ty using Ty.induct generalizing ty' with
  | mk id kind ih =>
    obtain ⟨id', kind'⟩ := ty'
    rw [beq, fold_mk]
    simp only [Bool.and_eq_true, beq_iff_eq, decide_eq_true_eq, TyKind.outline_map, TyKind.children_map,
      Ty.id, show (mk id' kind').kind = kind' from rfl, mk.injEq]
    constructor
    · rintro ⟨⟨hid, houtline⟩, hchildren⟩
      have hlength : kind.children.length = kind'.children.length := by
        rw [← TyKind.length_children_outline, houtline, TyKind.length_children_outline]
      exact ⟨hid, TyKind.ext houtline ((all_zipWith_beq hlength ih).mp hchildren)⟩
    · rintro ⟨rfl, rfl⟩
      exact ⟨⟨rfl, rfl⟩, (all_zipWith_beq rfl ih).mpr rfl⟩

instance : DecidableEq Ty := fun ty ty' => decidable_of_iff _ (beq_iff ty ty')

/-- The type with every origin tag erased. -/
def erase : Ty → Ty := fold fun _ kind => mk 0 kind

theorem erase_mk (id : TyId) (kind : TyKind Ty) : (mk id kind).erase = mk 0 (kind.map erase) :=
  fold_mk _ id kind

theorem erase_erase (ty : Ty) : ty.erase.erase = ty.erase := by
  induction ty using Ty.induct with
  | mk id kind ih =>
    rw [erase_mk, erase_mk, TyKind.map_map]
    exact congrArg (mk 0) (TyKind.map_congr ih)

/-- A fold that does not look at tags. -/
theorem fold_erase {α : Type} (f : TyKind α → α) (ty : Ty) :
    fold (fun _ => f) ty.erase = fold (fun _ => f) ty := by
  induction ty using Ty.induct with
  | mk id kind ih =>
    rw [erase_mk, fold_mk, fold_mk, TyKind.map_map]
    exact congrArg f (TyKind.map_congr ih)

end Ty

end Sengoo.Typeck
