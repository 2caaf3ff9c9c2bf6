import Sengoo.Ast.Pattern
import Sengoo.Fallible

/-!
Type checking of `match`. The checker records which variants the patterns name
and rejects a match that names too few of them. The rest of the type checker
enters as a record of its operations, so that the results hold whatever it does
with guards, bodies and unification.
-/

namespace Sengoo.Typeck

open List Sengoo.Ast Sengoo.Fallible

inductive TypeckError where
  | unreachableMatchArm
  | guardNotBool
  | orPatternBindingMismatch
  | nonExhaustiveMatch (missing : List String)
  | other (message : String)
  deriving DecidableEq

structure MatchArm (Expr : Type) where
  patterns : List Pattern
  guard : Option Expr
  body : Expr

/-- The operations of the type checker that a match uses. -/
structure Checker (Ty Expr : Type) where
  adtName : Ty → Option String
  unitTy : Ty
  boolTy : Ty
  checkExpr : List (String × Ty) → Expr → Except TypeckError Ty
  unify : Ty → Ty → Except TypeckError Unit
  applySubst : Ty → Ty
  enumVariants : EnumVariants
  enumVariantFieldTys : String → String → Option (List Ty)

section Check

variable {Ty Expr : Type} [DecidableEq Ty] (checker : Checker Ty Expr)

def patternIsCatchAll (pattern : Pattern) (unguarded : Bool) : Bool :=
  if ¬ unguarded then false
  else match pattern with
    | .wildcard => true
    | _ => false

def enumVariantFieldTysForPath (path : Path) (scrutineeEnum : Option String) :
    Option (List Ty) := do
  let variantName ← path.getLast?
  let enumName ← if path.length ≥ 2 then path.head? else scrutineeEnum
  checker.enumVariantFieldTys enumName variantName

mutual

def collectPatternBindings : Pattern → Ty → Except TypeckError (List (String × Ty))
  | .ident name, ty => .ok [(name, ty)]
  | .tupleStruct path patterns, ty =>
    match enumVariantFieldTysForPath checker path (checker.adtName ty) with
    | some fieldTys => collectZipped patterns fieldTys
    | none => collectEach patterns ty
  | .struct path fields _, ty =>
    match enumVariantFieldTysForPath checker path (checker.adtName ty) with
    | some fieldTys => collectFieldsZipped fields fieldTys
    | none => collectFieldsEach fields ty
  | .tuple patterns, ty => collectEach patterns ty
  | .or [], _ => .error (.other "empty or-pattern")
  | .or (first :: _), ty => collectPatternBindings first ty
  | _, _ => .ok []

def collectZipped : List Pattern → List Ty → Except TypeckError (List (String × Ty))
  | pattern :: patterns, ty :: tys => do
      let names ← collectPatternBindings pattern ty
      let rest ← collectZipped patterns tys
      pure (names ++ rest)
  | _, _ => .ok []

def collectEach : List Pattern → Ty → Except TypeckError (List (String × Ty))
  | [], _ => .ok []
  | pattern :: patterns, ty => do
      let names ← collectPatternBindings pattern ty
      let rest ← collectEach patterns ty
      pure (names ++ rest)

def collectFieldsZipped :
    List (String × Pattern) → List Ty → Except TypeckError (List (String × Ty))
  | (_, pattern) :: fields, ty :: tys => do
      let names ← collectPatternBindings pattern ty
      let rest ← collectFieldsZipped fields tys
      pure (names ++ rest)
  | _, _ => .ok []

def collectFieldsEach : List (String × Pattern) → Ty → Except TypeckError (List (String × Ty))
  | [], _ => .ok []
  | (_, pattern) :: fields, ty => do
      let names ← collectPatternBindings pattern ty
      let rest ← collectFieldsEach fields ty
      pure (names ++ rest)

end

def bindingsCompatible (left right : List (String × Ty)) : Bool :=
  left.length = right.length &&
    left.all (fun entry =>
      match right.find? (fun other => other.1 = entry.1) with
      | some other => entry.2 = other.2
      | none => false)

/-- Every alternative binds what the first one binds. -/
def checkBindingsAgree (ty : Ty) :
    Option (List (String × Ty)) → List Pattern → Except TypeckError Unit
  | _, [] => .ok ()
  | none, pattern :: patterns => do
      let bindings ← collectPatternBindings checker pattern ty
      checkBindingsAgree ty (some bindings) patterns
  | some expected, pattern :: patterns => do
      let bindings ← collectPatternBindings checker pattern ty
      if ¬ bindingsCompatible expected bindings then throw .orPatternBindingMismatch
      else checkBindingsAgree ty (some expected) patterns

def checkAlternativePatternBindings (patterns : List Pattern) (scrutineeTy : Ty) :
    Except TypeckError Unit :=
  checkBindingsAgree checker scrutineeTy none patterns

def checkPatternOrBindings (pattern : Pattern) (scrutineeTy : Ty) :
    Except TypeckError Unit :=
  match pattern with
  | .or alternatives => checkBindingsAgree checker scrutineeTy none alternatives
  | _ => .ok ()

def checkArmPatterns (patterns : List Pattern) (scrutineeTy : Ty) : Except TypeckError Unit :=
  if patterns.length > 1 then checkAlternativePatternBindings checker patterns scrutineeTy
  else match patterns with
    | pattern :: _ => checkPatternOrBindings checker pattern scrutineeTy
    | [] => .ok ()

def checkGuard (scope : List (String × Ty)) : Option Expr → Except TypeckError Unit
  | none => .ok ()
  | some guard => do
      let guardTy ← checker.checkExpr scope guard
      checker.unify guardTy checker.boolTy
      if checker.applySubst guardTy ≠ checker.boolTy then throw .guardNotBool else pure ()

/-- The loop over the arms: the types of the bodies, and whether an arm catches
everything. -/
def checkArms (scrutineeTy : Ty) : Bool → List (MatchArm Expr) → Except TypeckError (Bool × List Ty)
  | hasCatchAll, [] => .ok (hasCatchAll, [])
  | hasCatchAll, arm :: arms => do
      if hasCatchAll then throw .unreachableMatchArm else
      checkArmPatterns checker arm.patterns scrutineeTy
      let hasCatchAll := arm.patterns.any (fun pattern =>
        patternIsCatchAll pattern arm.guard.isNone)
      let scope ← collectEach checker arm.patterns scrutineeTy
      checkGuard checker scope arm.guard
      let armTy ← checker.checkExpr scope arm.body
      let (final, armTys) ← checkArms scrutineeTy hasCatchAll arms
      pure (final, armTy :: armTys)

mutual

def collectCoveredVariants : Pattern → List String
  | .path path | .tupleStruct path _ =>
    match path.getLast? with
    | some name => [name]
    | none => []
  | .or alternatives => collectCoveredList alternatives
  | _ => []

def collectCoveredList : List Pattern → List String
  | [] => []
  | pattern :: patterns => collectCoveredVariants pattern ++ collectCoveredList patterns

end

/-- The names that the patterns of the arms record as covered. -/
def coveredVariants (arms : List (MatchArm Expr)) : List String :=
  arms.flatMap (fun arm => collectCoveredList arm.patterns)

def missingEnumVariants (scrutineeTy : Ty) (arms : List (MatchArm Expr)) :
    Option (List String) := do
  let name ← checker.adtName scrutineeTy
  let variants ← checker.enumVariants name
  let covered := coveredVariants arms
  let missing := variants.filter (fun variant => variant ∉ covered)
  if missing = [] then none else some missing

def checkMatchExpr (scrutineeTy : Ty) (arms : List (MatchArm Expr)) :
    Except TypeckError Ty := do
  let (hasCatchAll, armTys) ← checkArms checker scrutineeTy false arms
  match (if hasCatchAll then none else missingEnumVariants checker scrutineeTy arms) with
  | some missing => throw (.nonExhaustiveMatch missing)
  | none => do
      let resultTy := armTys.headD checker.unitTy
      armTys.forM (checker.unify resultTy)
      pure resultTy

end Check

section Exhaustive

variable {Ty Expr : Type} (checker : Checker Ty Expr)

def MatchArm.matches (arm : MatchArm Expr) (value : Value) : Bool :=
  Pattern.matchesAny checker.enumVariants arm.patterns value

/-- The values of the types, and the names of the fields of each variant. -/
structure Values (Ty : Type) where
  inhabits : Ty → Value → Prop
  fieldNames : String → String → List String

variable (values : Values Ty)

/-- The fields of a value of the variant. -/
def FieldsOf (enumName variantName : String) (fields : List (String × Value)) : Prop :=
  fields.map (·.1) = values.fieldNames enumName variantName ∧
    ∃ fieldTys, checker.enumVariantFieldTys enumName variantName = some fieldTys ∧
      List.Forall₂ values.inhabits fieldTys (fields.map (·.2))

/-- Whatever the guards evaluate to, every value of the enum is matched by an arm
whose guard is absent or true. -/
def Exhaustive (enumName : String) (arms : List (MatchArm Expr)) : Prop :=
  ∀ variants, checker.enumVariants enumName = some variants →
    ∀ variant ∈ variants, ∀ fields, FieldsOf checker values enumName variant fields →
      ∀ guardHolds : MatchArm Expr → Value → Bool, ∃ arm ∈ arms,
        arm.matches checker (.variant enumName variant fields) = true ∧
        (arm.guard.isNone ∨ guardHolds arm (.variant enumName variant fields) = true)

variable {scrutineeTy : Ty} {arms : List (MatchArm Expr)} {patterns : List Pattern}
  {pattern : Pattern}

/-- An arm that catches everything is unguarded and has a wildcard. -/
theorem exists_wildcard_of_checkArms [DecidableEq Ty] {start : Bool} {armTys : List Ty}
    (h : checkArms checker scrutineeTy start arms = .ok (true, armTys)) :
    start = true ∨ ∃ arm ∈ arms, arm.guard.isNone ∧ .wildcard ∈ arm.patterns := by
  induction arms generalizing start armTys with
  | nil =>
    cases h
    exact .inl rfl
  | cons arm arms ih =>
    right
    rw [checkArms] at h
    obtain ⟨-, h⟩ := of_guard h
    obtain ⟨_, -, h⟩ := bind_eq_ok h
    obtain ⟨scope, -, h⟩ := bind_eq_ok h
    obtain ⟨_, -, h⟩ := bind_eq_ok h
    obtain ⟨armTy, -, h⟩ := bind_eq_ok h
    obtain ⟨⟨final, rest⟩, hrest, h⟩ := bind_eq_ok h
    cases h
    rcases ih hrest with hcatch | ⟨other, hother, hwild⟩
    · obtain ⟨pattern, hpattern, hcatch⟩ := any_eq_true.mp hcatch
      unfold patternIsCatchAll at hcatch
      split at hcatch
      · cases hcatch
      · rename_i hguard
        split at hcatch
        · exact ⟨arm, mem_cons_self .., by simpa using hguard, hpattern⟩
        · cases hcatch
    · exact ⟨other, mem_cons_of_mem _ hother, hwild⟩

/-- What acceptance says: there is an unguarded wildcard, or every variant is
named by some pattern. -/
theorem accepted_names_variants [DecidableEq Ty] {resultTy : Ty}
    {enumName : String} {variants : List String}
    (henum : checker.adtName scrutineeTy = some enumName)
    (hvariants : checker.enumVariants enumName = some variants)
    (haccepted : checkMatchExpr checker scrutineeTy arms = .ok resultTy) :
    (∃ arm ∈ arms, arm.guard.isNone ∧ .wildcard ∈ arm.patterns) ∨
      ∀ variant ∈ variants, variant ∈ coveredVariants arms := by
  obtain ⟨⟨hasCatchAll, armTys⟩, harms, haccepted⟩ := bind_eq_ok haccepted
  cases hasCatchAll with
  | true =>
    rcases exists_wildcard_of_checkArms checker harms with hstart | hwild
    · cases hstart
    · exact .inl hwild
  | false =>
    right
    simp only [Bool.false_eq_true, if_false, missingEnumVariants, henum, hvariants,
      Option.bind_eq_bind, Option.bind_some] at haccepted
    intro variant hvariant
    by_contra hmissing
    have hfilter : variants.filter (fun variant => variant ∉ coveredVariants arms) ≠ [] :=
      ne_nil_of_mem (mem_filter.mpr ⟨hvariant, decide_eq_true hmissing⟩)
    rw [if_neg hfilter] at haccepted
    cases haccepted

section Irrefutable

mutual

/-- A pattern that no value refutes. -/
def irrefutable : Pattern → Bool
  | .wildcard | .ident _ => true
  | .or alternatives => anyIrrefutable alternatives
  | _ => false

def anyIrrefutable : List Pattern → Bool
  | [] => false
  | pattern :: patterns => irrefutable pattern || anyIrrefutable patterns

end

mutual

theorem matches_of_irrefutable (enums : EnumVariants) :
    ∀ (pattern : Pattern) (value : Value), irrefutable pattern = true →
      pattern.matches enums value = true
  | .wildcard, _, _ => by rw [Pattern.matches]
  | .ident _, _, _ => by rw [Pattern.matches]
  | .or alternatives, value, h => by
    exact matchesAny_of_irrefutable enums alternatives value h

theorem matchesAny_of_irrefutable (enums : EnumVariants) :
    ∀ (patterns : List Pattern) (value : Value), anyIrrefutable patterns = true →
      Pattern.matchesAny enums patterns value = true
  | [], _, h => by
    cases h
  | pattern :: patterns, value, h => by
    rw [anyIrrefutable, Bool.or_eq_true] at h
    rw [Pattern.matchesAny, Bool.or_eq_true]
    rcases h with h | h
    · exact .inl (matches_of_irrefutable enums pattern value h)
    · exact .inr (matchesAny_of_irrefutable enums patterns value h)

end

theorem matchesAll_of_irrefutable (enums : EnumVariants)
    {values : List Value} (hlength : patterns.length = values.length)
    (h : ∀ pattern ∈ patterns, irrefutable pattern = true) :
    Pattern.matchesAll enums patterns values = true := by
  induction patterns generalizing values with
  | nil =>
    obtain rfl : values = [] := eq_nil_of_length_eq_zero hlength.symm
    rw [Pattern.matchesAll]
  | cons pattern patterns ih =>
    cases values with
    | nil => cases hlength
    | cons value values =>
      rw [Pattern.matchesAll, Bool.and_eq_true]
      constructor
      · exact matches_of_irrefutable enums pattern value (h pattern (mem_cons_self ..))
      · exact ih (Nat.succ.inj hlength)
          (forall_mem_cons.mp h).2

theorem exists_of_matchesAll {enums : EnumVariants} {values : List Value}
    (h : Pattern.matchesAll enums patterns values = true) :
    patterns.length = values.length ∧
      ∀ pattern ∈ patterns, ∃ value ∈ values, pattern.matches enums value = true := by
  induction patterns generalizing values with
  | nil =>
    cases values with
    | nil => exact ⟨rfl, forall_mem_nil _⟩
    | cons => cases h
  | cons pattern patterns ih =>
    cases values with
    | nil => cases h
    | cons value values =>
      rw [Pattern.matchesAll, Bool.and_eq_true] at h
      obtain ⟨hlength, hrest⟩ := ih h.2
      refine ⟨congrArg (· + 1) hlength, forall_mem_cons.mpr ⟨⟨value, mem_cons_self .., h.1⟩, ?_⟩⟩
      intro other hother
      obtain ⟨value', hvalue', hmatch⟩ := hrest other hother
      exact ⟨value', mem_cons_of_mem _ hvalue', hmatch⟩

/-- The sub-patterns for the fields of a struct pattern match the fields found. -/
theorem matchesFields_iff {enums : EnumVariants} {fields : List (String × Pattern)}
    {values : List (String × Value)} : Pattern.matchesFields enums fields values = true ↔
      ∀ field ∈ fields, ∃ value, values.find? (fun entry => entry.1 = field.1) = some value ∧
        field.2.matches enums value.2 = true := by
  induction fields with
  | nil => simp [Pattern.matchesFields]
  | cons field fields ih =>
    rw [Pattern.matchesFields, Bool.and_eq_true, ih, forall_mem_cons]
    cases values.find? (fun entry => entry.1 = field.1) <;> simp

section Covers

variable (enums : EnumVariants) (enumName variantName : String) (names : List String)

mutual

/-- The pattern matches every value of the variant with the named fields: it is
irrefutable, or it names the variant and has only irrefutable sub-patterns. -/
def coversVariant : Pattern → Bool
  | .path path => namesVariant enums path enumName variantName
  | .struct path fields _ => namesVariant enums path enumName variantName &&
      fields.all fun field => field.1 ∈ names && irrefutable field.2
  | .tupleStruct path patterns => namesVariant enums path enumName variantName &&
      patterns.length = names.length && patterns.all irrefutable
  | .or alternatives => anyCoversVariant alternatives
  | .wildcard | .ident _ => true
  | .literal _ | .tuple _ | .slice .. | .range .. => false

def anyCoversVariant : List Pattern → Bool
  | [] => false
  | pattern :: patterns => coversVariant pattern || anyCoversVariant patterns

end

mutual

/-- The sub-patterns that are matched against the fields of a variant. -/
def fieldPatterns : Pattern → List Pattern
  | .struct _ fields _ => fields.map (·.2)
  | .tupleStruct _ patterns => patterns
  | .or alternatives => allFieldPatterns alternatives
  | _ => []

def allFieldPatterns : List Pattern → List Pattern
  | [] => []
  | pattern :: patterns => fieldPatterns pattern ++ allFieldPatterns patterns

end

/-- No sub-pattern matches one of the values, unless it is irrefutable. -/
def Escape (enums : EnumVariants) (patterns : List Pattern) (values : List Value) : Prop :=
  ∀ pattern ∈ patterns, ∀ value ∈ values, pattern.matches enums value = true →
    irrefutable pattern = true

variable {enums enumName variantName} {fields : List (String × Value)}

mutual

theorem matches_of_coversVariant : ∀ pattern : Pattern,
    coversVariant enums enumName variantName (fields.map (·.1)) pattern = true →
      pattern.matches enums (.variant enumName variantName fields) = true
  | .path path, h => by
    rw [Pattern.matches]
    exact h
  | .struct path patterns rest, h => by
    rw [coversVariant, Bool.and_eq_true, all_eq_true] at h
    rw [Pattern.matches, h.1, Bool.true_and, matchesFields_iff]
    intro field hfield
    obtain ⟨hname, hirrefutable⟩ := Bool.and_eq_true_iff.mp (h.2 field hfield)
    obtain ⟨entry, hentry, hsame⟩ := mem_map.mp (of_decide_eq_true hname)
    have hsome : (fields.find? fun entry => entry.1 = field.1).isSome :=
      find?_isSome.mpr ⟨entry, hentry, decide_eq_true hsame⟩
    obtain ⟨found, hfound⟩ := Option.isSome_iff_exists.mp hsome
    exact ⟨found, hfound, matches_of_irrefutable enums _ _ hirrefutable⟩
  | .tupleStruct path patterns, h => by
    rw [coversVariant, Bool.and_eq_true, Bool.and_eq_true, all_eq_true] at h
    obtain ⟨⟨hnames, hlength⟩, hall⟩ := h
    rw [Pattern.matches, hnames]
    exact matchesAll_of_irrefutable _ (by simpa using hlength) hall
  | .or alternatives, h => by
    rw [Pattern.matches]
    exact matchesAny_of_anyCoversVariant alternatives h
  | .wildcard, _ | .ident _, _ => by rw [Pattern.matches]
  | .literal _, h | .tuple _, h | .slice .., h | .range .., h => by
    rw [coversVariant] at h
    cases h

theorem matchesAny_of_anyCoversVariant : ∀ patterns : List Pattern,
    anyCoversVariant enums enumName variantName (fields.map (·.1)) patterns = true →
      Pattern.matchesAny enums patterns (.variant enumName variantName fields) = true
  | [], h => by
    cases h
  | pattern :: patterns, h => by
    rw [anyCoversVariant, Bool.or_eq_true] at h
    rw [Pattern.matchesAny, Bool.or_eq_true]
    exact h.imp (matches_of_coversVariant pattern) (matchesAny_of_anyCoversVariant patterns)

end

mutual

/-- Of a value that escapes the refutable sub-patterns, nothing else matches. -/
theorem coversVariant_of_matches : ∀ pattern : Pattern,
    Escape enums (fieldPatterns pattern) (fields.map (·.2)) →
      pattern.matches enums (.variant enumName variantName fields) = true →
        coversVariant enums enumName variantName (fields.map (·.1)) pattern = true
  | .path path, _, h => by
    rw [Pattern.matches] at h
    exact h
  | .struct path patterns rest, hescape, h => by
    rw [Pattern.matches, Bool.and_eq_true, matchesFields_iff] at h
    rw [coversVariant, h.1, Bool.true_and, all_eq_true]
    intro field hfield
    obtain ⟨entry, hfound, hmatch⟩ := h.2 field hfield
    have hentry := mem_of_find?_eq_some hfound
    have hsame : entry.1 = field.1 := by simpa using find?_some hfound
    rw [Bool.and_eq_true, decide_eq_true_eq]
    exact ⟨hsame ▸ mem_map_of_mem hentry,
      hescape field.2 (mem_map_of_mem hfield) entry.2 (mem_map_of_mem hentry) hmatch⟩
  | .tupleStruct path patterns, hescape, h => by
    rw [Pattern.matches, Bool.and_eq_true] at h
    obtain ⟨hlength, hall⟩ := exists_of_matchesAll h.2
    rw [coversVariant, h.1, Bool.true_and, Bool.and_eq_true, all_eq_true]
    refine ⟨by simpa using hlength, fun pattern hpattern => ?_⟩
    obtain ⟨value, hvalue, hmatch⟩ := hall pattern hpattern
    exact hescape pattern hpattern value hvalue hmatch
  | .or alternatives, hescape, h => by
    rw [Pattern.matches] at h
    exact anyCoversVariant_of_matchesAny alternatives hescape h
  | .wildcard, _, _ | .ident _, _, _ => by rw [coversVariant]
  | .literal _, _, h | .tuple _, _, h | .slice .., _, h | .range .., _, h => by
    simp [Pattern.matches, inPatternRange] at h

theorem anyCoversVariant_of_matchesAny : ∀ patterns : List Pattern,
    Escape enums (allFieldPatterns patterns) (fields.map (·.2)) →
      Pattern.matchesAny enums patterns (.variant enumName variantName fields) = true →
        anyCoversVariant enums enumName variantName (fields.map (·.1)) patterns = true
  | [], _, h => by
    cases h
  | pattern :: patterns, hescape, h => by
    rw [allFieldPatterns] at hescape
    rw [Pattern.matchesAny, Bool.or_eq_true] at h
    rw [anyCoversVariant, Bool.or_eq_true]
    exact h.imp
      (coversVariant_of_matches pattern fun other hother => hescape other (mem_append_left _ hother))
      (anyCoversVariant_of_matchesAny patterns
        fun other hother => hescape other (mem_append_right _ hother))

end

theorem anyCoversVariant_of_wildcard {patterns : List Pattern} (h : .wildcard ∈ patterns) :
    anyCoversVariant enums enumName variantName names patterns = true := by
  induction patterns with
  | nil => cases h
  | cons pattern patterns ih =>
    rw [anyCoversVariant, Bool.or_eq_true]
    rcases mem_cons.mp h with rfl | h
    · exact .inl (by rw [coversVariant])
    · exact .inr (ih h)

end Covers

end Irrefutable

/-- Each variant that some pattern names is covered by an arm without a guard, in
which all sub-patterns for its fields are irrefutable. -/
def NamedVariantsCovered (enumName : String) (variants : List String)
    (arms : List (MatchArm Expr)) : Prop :=
  ∀ variant ∈ variants, variant ∈ coveredVariants arms → ∃ arm ∈ arms, arm.guard.isNone ∧
    anyCoversVariant checker.enumVariants enumName variant (values.fieldNames enumName variant)
      arm.patterns = true

/-- The variant has a value whose fields no refutable sub-pattern of the match
accepts. -/
def Escapable (enumName variant : String) (arms : List (MatchArm Expr)) : Prop :=
  ∃ fields, FieldsOf checker values enumName variant fields ∧ ∀ arm ∈ arms,
    Escape checker.enumVariants (allFieldPatterns arm.patterns) (fields.map (·.2))

end Exhaustive

section Option

/-- The types of a small program over `enum Opt { Vacant, Val(i64) }`. -/
inductive OptTy where
  | unit
  | bool
  | int
  | opt
  deriving DecidableEq

/-- An expression is given by its type. -/
def optChecker : Checker OptTy OptTy where
  adtName
    | .opt => some "Opt"
    | _ => none
  unitTy := .unit
  boolTy := .bool
  checkExpr _ expr := .ok expr
  unify left right := if left = right then .ok () else .error (.other "type mismatch")
  applySubst ty := ty
  enumVariants name := if name = "Opt" then some ["Vacant", "Val"] else none
  enumVariantFieldTys name variant :=
    if name = "Opt" then
      if variant = "Vacant" then some [] else if variant = "Val" then some [.int] else none
    else none

def optValues : Values OptTy where
  inhabits
    | .int, .literal (.int _) => True
    | _, _ => False
  fieldNames _ variant := if variant = "Val" then ["_0"] else []

/-- `match m { Opt::Val(x) if g => .., Opt::Vacant => .. }` -/
def guardedArms : List (MatchArm OptTy) :=
  [⟨[.tupleStruct ["Opt", "Val"] [.ident "x"]], some .bool, .int⟩,
    ⟨[.path ["Opt", "Vacant"]], none, .int⟩]

/-- `match m { Opt::Val(0) => .., Opt::Vacant => .. }` -/
def refutableArms : List (MatchArm OptTy) :=
  [⟨[.tupleStruct ["Opt", "Val"] [.literal (.int 0)]], none, .int⟩,
    ⟨[.path ["Opt", "Vacant"]], none, .int⟩]

/-- `match m { Opt::Val(x) if g => .., Opt::Val(x) => .., Opt::Vacant => .. }` -/
def coveringArms : List (MatchArm OptTy) :=
  [⟨[.tupleStruct ["Opt", "Val"] [.ident "x"]], some .bool, .int⟩,
    ⟨[.tupleStruct ["Opt", "Val"] [.ident "x"]], none, .int⟩,
    ⟨[.path ["Opt", "Vacant"]], none, .int⟩]

end Option

end Sengoo.Typeck
