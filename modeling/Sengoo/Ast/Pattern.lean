import Mathlib.Data.List.Basic
import Mathlib.Data.BitVec

/-!
Patterns of the surface language, the values they are matched against, and
matching itself. Or-patterns and the sub-patterns of constructors nest without
bound, so the functions over patterns come with their list versions.
-/

namespace Sengoo.Ast

/-- Literals; a float is given by its bit pattern. -/
inductive Literal where
  | int (value : BitVec 64)
  | uint (value : BitVec 64)
  | float (bits : BitVec 64)
  | string (value : String)
  | char (value : Char)
  | bytes (value : List UInt8)
  | bool (value : Bool)
  | null
  | unit
  deriving DecidableEq

/-- The segments of a path. -/
abbrev Path := List String

inductive RangeEnd where
  | inclusive
  | exclusive
  deriving DecidableEq

inductive Pattern where
  | wildcard
  | literal (value : Literal)
  | ident (name : String)
  | path (path : Path)
  | struct (path : Path) (fields : List (String × Pattern)) (rest : Bool)
  | tupleStruct (path : Path) (patterns : List Pattern)
  | tuple (patterns : List Pattern)
  | slice (patterns : List Pattern) (rest : Option Pattern)
  | range (low high : Pattern) (bound : RangeEnd)
  | or (alternatives : List Pattern)

/-- Values: an enum value is its variant with the fields of the variant. -/
inductive Value where
  | literal (value : Literal)
  | variant (enumName variantName : String) (fields : List (String × Value))
  | record (name : String) (fields : List (String × Value))
  | tuple (items : List Value)
  | sequence (items : List Value)

/-- The declared variants of each enum. -/
abbrev EnumVariants := String → Option (List String)

section Matching

variable (enums : EnumVariants)

/-- The path names this variant: by enum and variant when it is qualified by an
enum that declares the variant, and by its last segment otherwise. -/
def namesVariant (path : Path) (enumName variantName : String) : Bool :=
  match path with
  | [] => false
  | [last] => last == variantName
  | first :: rest =>
    let last := rest.getLastD ""
    match enums first with
    | some variants =>
      if last ∈ variants then first == enumName && last == variantName
      else last == variantName
    | none => last == variantName

def literalOrder : Literal → Option Int
  | .int value => some value.toInt
  | .uint value => some value.toNat
  | .char value => some value.toNat
  | _ => none

/-- A bound of a range: a literal, or nothing for an open side. -/
def boundHolds (bound : Pattern) (holds : Int → Bool) : Bool :=
  match bound with
  | .literal value =>
    match literalOrder value with
    | some z => holds z
    | none => false
  | .wildcard => true
  | _ => false

def inPatternRange (low high : Pattern) (bound : RangeEnd) : Value → Bool
  | .literal value =>
    match literalOrder value with
    | some z =>
      boundHolds low (fun lo => lo ≤ z) &&
        boundHolds high (fun hi => match bound with
          | .inclusive => z ≤ hi
          | .exclusive => z < hi)
    | none => false
  | _ => false

mutual

def Pattern.matches : Pattern → Value → Bool
  | .wildcard, _ => true
  | .literal expected, .literal value => expected = value
  | .literal _, _ => false
  | .ident _, _ => true
  | .path segments, .variant enumName variantName _ => namesVariant enums segments enumName variantName
  | .path segments, .record name _ => segments.getLast? == some name
  | .path _, _ => false
  | .struct segments fields _, .variant enumName variantName values =>
    namesVariant enums segments enumName variantName && Pattern.matchesFields fields values
  | .struct segments fields _, .record name values =>
    segments.getLast? == some name && Pattern.matchesFields fields values
  | .struct _ _ _, _ => false
  | .tupleStruct segments patterns, .variant enumName variantName values =>
    namesVariant enums segments enumName variantName &&
      Pattern.matchesAll patterns (values.map (·.2))
  | .tupleStruct segments patterns, .record name values =>
    segments.getLast? == some name && Pattern.matchesAll patterns (values.map (·.2))
  | .tupleStruct _ _, _ => false
  | .tuple patterns, .tuple items => Pattern.matchesAll patterns items
  | .tuple _, _ => false
  | .slice patterns none, .sequence items => Pattern.matchesAll patterns items
  | .slice patterns (some rest), .sequence items =>
    Pattern.matchesAll patterns (items.take patterns.length) &&
      Pattern.matches rest (.sequence (items.drop patterns.length))
  | .slice _ _, _ => false
  | .range low high bound, value => inPatternRange low high bound value
  | .or alternatives, value => Pattern.matchesAny alternatives value

def Pattern.matchesAll : List Pattern → List Value → Bool
  | [], [] => true
  | pattern :: patterns, value :: values =>
    Pattern.matches pattern value && Pattern.matchesAll patterns values
  | _, _ => false

def Pattern.matchesFields : List (String × Pattern) → List (String × Value) → Bool
  | [], _ => true
  | (name, pattern) :: fields, values =>
    (match values.find? (fun field => field.1 = name) with
      | some field => Pattern.matches pattern field.2
      | none => false) && Pattern.matchesFields fields values

def Pattern.matchesAny : List Pattern → Value → Bool
  | [], _ => false
  | pattern :: patterns, value =>
    Pattern.matches pattern value || Pattern.matchesAny patterns value

end

end Matching

end Sengoo.Ast
