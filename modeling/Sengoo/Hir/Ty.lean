import Sengoo.Typeck.Ty

/-!
The types of the high-level intermediate representation, after type variables
are resolved.
-/

namespace Sengoo.Hir

open Typeck (IntKind FloatKind)

inductive HIRType where
  | unit
  | never
  | bool
  | char
  | str
  | byte
  | bytes
  | int (kind : IntKind)
  | float (kind : FloatKind)
  | tuple (items : List HIRType)
  | array (elem : HIRType) (len : Nat)
  | slice (elem : HIRType)
  | ref (isMut : Bool) (inner : HIRType)
  | ptr (inner : HIRType)
  | fn (params : List HIRType) (ret : HIRType)
  | named (name : String) (args : List HIRType)
  | traitObject (traits : List String)
  | assocProjection (base : HIRType) (traitName name : String)
  | error

namespace HIRType

mutual

def beq : HIRType → HIRType → Bool
  | unit, unit | never, never | bool, bool | char, char | str, str | byte, byte | bytes, bytes
  | error, error => true
  | int kind, int kind' => kind = kind'
  | float kind, float kind' => kind = kind'
  | tuple items, tuple items' => beqAll items items'
  | array elem len, array elem' len' => beq elem elem' && len = len'
  | slice elem, slice elem' => beq elem elem'
  | ref isMut inner, ref isMut' inner' => isMut = isMut' && beq inner inner'
  | ptr inner, ptr inner' => beq inner inner'
  | fn params ret, fn params' ret' => beqAll params params' && beq ret ret'
  | named name args, named name' args' => name = name' && beqAll args args'
  | traitObject traits, traitObject traits' => traits = traits'
  | assocProjection base traitName name, assocProjection base' traitName' name' =>
    beq base base' && traitName = traitName' && name = name'
  | _, _ => false

def beqAll : List HIRType → List HIRType → Bool
  | [], [] => true
  | ty :: types, ty' :: types' => beq ty ty' && beqAll types types'
  | _, _ => false

end

theorem beq_iff (ty : HIRType) : ∀ ty', ty.beq ty' = true ↔ ty = ty' := by
  apply @HIRType.rec (fun ty => ∀ ty', ty.beq ty' = true ↔ ty = ty')
    (fun types => ∀ types', beqAll types types' = true ↔ types = types')
  case nil => intro types'; cases types' <;> simp [beqAll]
  case cons => intro ty types hty htypes types'; cases types' <;> simp [beqAll, hty, htypes]
  all_goals intros; rename_i ty'; cases ty' <;> simp_all [beq, and_assoc]

instance : DecidableEq HIRType := fun ty ty' => decidable_of_iff _ (beq_iff ty ty')

/-- `HIRType::tuple`: without items it is the unit type. -/
def ofItems : List HIRType → HIRType
  | [] => unit
  | items => tuple items

end HIRType

end Sengoo.Hir
