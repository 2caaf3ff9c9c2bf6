import Sengoo.Fuel
import Sengoo.History
import Sengoo.Table
import Sengoo.Typeck.Interner

/-!
The type inferencer: a substitution of interned types that `unify` extends in
place. The decision `unify_in_place` takes on two resolved types is a value of
its own, and carrying it out is where the recursion and the checkpoints are.
Recursion has a budget, so a call that returns is one that settles.
-/

namespace Sengoo.Typeck

open Sengoo.Fuel Sengoo.History

/-- The members of `TypeckError` inference raises; the others are only passed
through by `add_error`. -/
inductive InferError where
  | typeMismatch (expected found : TyKind Ty)
  | argumentCountMismatch (expected found : Nat)
  | cyclicType
  | other (message : String)

/-- The inferencer with the parts of its environment it uses. The interner is
shared by the environment and the substitution. -/
structure TypeInfer where
  interner : TyInterner
  nextTyId : TyId
  nextTyVarId : TyVarId
  subst : Table TyVarId InternedTyId
  errors : List InferError

/-! ### Applying the substitution -/

/-- The components `subst_apply` goes into. -/
def substKind (apply : Ty → Option Ty) : TyKind Ty → Option (TyKind Ty)
  | .ref isMut inner => do return .ref isMut (← apply inner)
  | .ptr inner => do return .ptr (← apply inner)
  | .array elem n => do return .array (← apply elem) n
  | .slice elem => do return .slice (← apply elem)
  | .tuple types => do return .tuple (← types.mapM apply)
  | .fn params ret isVariadic => do
      let params ← params.mapM apply
      let ret ← apply ret
      return .fn params ret isVariadic
  | .adt name args => do return .adt name (← args.mapM apply)
  | .assocProjection base traitName name => do
      return .assocProjection (← apply base) traitName name
  | kind => some kind

namespace TypeInfer

def substApply (infer : TypeInfer) : Nat → Ty → Option Ty
  | 0, _ => none
  | fuel + 1, .mk id kind =>
    match kind with
    | .var v =>
      match infer.subst.lookup v with
      | some interned => (infer.interner.materialize interned).bind (infer.substApply fuel)
      | none => some (.mk id (.var v))
    | kind => (substKind (infer.substApply fuel) kind).map (.mk id)

end TypeInfer

/-- `contains_var`, the occurs check. -/
def Ty.containsVar (v : TyVarId) : Ty → Bool :=
  Ty.fold fun _ kind =>
    match kind with
    | .var id => id == v
    | .ref _ inner => inner
    | .ptr inner => inner
    | .array elem _ => elem
    | .slice elem => elem
    | .tuple types => types.any (·)
    | .fn params ret _ => params.any (·) || ret
    | .adt _ args => args.any (·)
    | .assocProjection base _ _ => base
    | _ => false

/-! ### Unification -/

/-- What is to be done about two resolved types that are not equal. -/
inductive Plan where
  | accept
  | reject (error : InferError)
  | bind (v : TyVarId) (ty : Ty)
  | descend (ty1 ty2 : Ty)
  | each (pairs : List (Ty × Ty))

/-- The match of `unify_in_place`. -/
def plan (ty1 ty2 : Ty) : Plan :=
  let mismatch := Plan.reject (.typeMismatch ty2.kind ty1.kind)
  match ty1.kind, ty2.kind with
  | .error, _ | _, .error => .accept
  | .never, _ | _, .never => .accept
  | .var id, _ => .bind id ty2
  | _, .var id => .bind id ty1
  | .unit, .unit | .bool, .bool | .char, .char | .str, .str | .byte, .byte | .bytes, .bytes =>
    .accept
  | .int kind1, .int kind2 => if kind1 = kind2 then .accept else mismatch
  | .float kind1, .float kind2 => if kind1 = kind2 then .accept else mismatch
  | .ref isMut1 inner1, .ref isMut2 inner2 =>
    if isMut1 = isMut2 then .descend inner1 inner2 else mismatch
  | .ptr inner1, .ptr inner2 => .descend inner1 inner2
  | .tuple types1, .tuple types2 =>
    if types1.length = types2.length then .each (types1.zip types2)
    else .reject (.typeMismatch (.tuple types2) (.tuple types1))
  | .array elem1 n1, .array elem2 n2 =>
    if n1 = n2 then .descend elem1 elem2
    -- the whole types stand in the place of the elements here
    else .reject (.typeMismatch (.array ty2 n2) (.array ty1 n1))
  | .slice elem1, .slice elem2 => .descend elem1 elem2
  | .fn params1 ret1 _, .fn params2 ret2 _ =>
    if params1.length = params2.length then
      -- the return types take the same turn as one more parameter
      .each (params1.zip params2 ++ [(ret1, ret2)])
    else .reject (.argumentCountMismatch params1.length params2.length)
  | .adt name1 args1, .adt name2 args2 =>
    if name1 = name2 then
      if args1.length = args2.length then .each (args1.zip args2) else mismatch
    else mismatch
  | .assocProjection base1 traitName1 name1, .assocProjection base2 traitName2 name2 =>
    if traitName1 = traitName2 ∧ name1 = name2 then .descend base1 base2 else mismatch
  | _, _ => mismatch

abbrev Outcome := Except InferError Unit × TypeInfer

/-- The loops over components: before each one the substitution is kept, and
put back when the component fails. -/
def unifyEach (unify : TypeInfer → Ty → Ty → Option Outcome) :
    TypeInfer → List (Ty × Ty) → Option Outcome
  | infer, [] => some (.ok (), infer)
  | infer, (ty1, ty2) :: rest =>
    match unify infer ty1 ty2 with
    | none => none
    | some (.error error, after) => some (.error error, { after with subst := infer.subst })
    | some (.ok (), after) => unifyEach unify after rest

namespace TypeInfer

variable (infer : TypeInfer)

/-- `new_ty` of the environment. -/
def newTy (kind : TyKind Ty) : Ty × TypeInfer :=
  let ty := Ty.mk infer.nextTyId kind
  (ty, { infer with
    nextTyId := infer.nextTyId + 1
    interner := (TyInterner.internTy ty infer.interner).2 })

/-- `Subst::insert`. -/
def insert (v : TyVarId) (ty : Ty) : TypeInfer :=
  let interned := TyInterner.internTy ty infer.interner
  { infer with interner := interned.2, subst := infer.subst.insert v interned.1 }

def addError (error : InferError) : TypeInfer :=
  { infer with errors := infer.errors ++ [error] }

def bindVar (v : TyVarId) (ty : Ty) : TypeInfer :=
  if ty.containsVar v then
    let fresh := (infer.addError .cyclicType).newTy .error
    fresh.2.insert v fresh.1
  else infer.insert v ty

def carryOut (unify : TypeInfer → Ty → Ty → Option Outcome) (infer : TypeInfer) :
    Plan → Option Outcome
  | .accept => some (.ok (), infer)
  | .reject error => some (.error error, infer)
  | .bind v ty => some (.ok (), infer.bindVar v ty)
  | .descend ty1 ty2 => unify infer ty1 ty2
  | .each pairs => unifyEach unify infer pairs

def unifyInPlace : Nat → TypeInfer → Ty → Ty → Option Outcome
  | 0, _, _, _ => none
  | fuel + 1, infer, ty1, ty2 =>
    match infer.substApply fuel ty1, infer.substApply fuel ty2 with
    | some ty1, some ty2 =>
      if ty1 = ty2 then some (.ok (), infer)
      else carryOut (unifyInPlace fuel) infer (plan ty1 ty2)
    | _, _ => none

/-- `apply_subst` returns the type. -/
def AppliesTo (ty result : Ty) : Prop :=
  Settles (fun fuel => infer.substApply fuel ty) (some result)

/-- `unify` returns with the result and leaves the inferencer behind. -/
def Unifies (ty1 ty2 : Ty) (result : Except InferError Unit)
    (after : TypeInfer) : Prop :=
  Settles (fun fuel => unifyInPlace fuel infer ty1 ty2) (some (result, after))

/-- The type a variable is bound to. -/
def get (v : TyVarId) : Option Ty :=
  (infer.subst.lookup v).bind infer.interner.materialize

end TypeInfer

/-! ### Runs -/

/-- The calls on an inferencer. -/
inductive Call where
  | unify (ty1 ty2 : Ty)
  | newTy (kind : TyKind Ty)
  | freshTyVar
  | addError (error : InferError)
  | resetSubst

inductive Step : TypeInfer → Call → TypeInfer → Prop where
  | unify {infer after : TypeInfer} {ty1 ty2 : Ty} {result : Except InferError Unit} :
      infer.Unifies ty1 ty2 result after → Step infer (.unify ty1 ty2) after
  | newTy {infer : TypeInfer} (kind : TyKind Ty) : Step infer (.newTy kind) (infer.newTy kind).2
  | freshTyVar {infer : TypeInfer} : Step infer .freshTyVar
        (({ infer with nextTyVarId := infer.nextTyVarId + 1 }).newTy (.var infer.nextTyVarId)).2
  | addError {infer : TypeInfer} (error : InferError) :
      Step infer (.addError error) (infer.addError error)
  | resetSubst {infer : TypeInfer} : Step infer .resetSubst { infer with subst := ∅ }

/-- An inferencer just made over an environment. -/
structure Started (infer : TypeInfer) : Prop where
  wellFormed : infer.interner.WellFormed
  subst : infer.subst = ∅
  errors : infer.errors = []

def Reachable (infer : TypeInfer) : Prop :=
  ∃ start calls, Started start ∧ Run Step start calls infer

end Sengoo.Typeck
