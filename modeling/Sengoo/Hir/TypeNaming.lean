import Mathlib.Logic.Relation
import Sengoo.Hir.Specialization

/-!
The names of monomorphic instances. The name of a type joins words by
underscores, and the instances found so far are kept by name, so the second of
two types with one name is dropped.
-/

namespace Sengoo.Hir

open List

open Typeck (IntKind FloatKind)

def IntKind.display : IntKind → String
  | .i8 => "i8" | .i16 => "i16" | .i32 => "i32" | .i64 => "i64" | .i128 => "i128"
  | .isize => "isize" | .u8 => "u8" | .u16 => "u16" | .u32 => "u32" | .u64 => "u64"
  | .u128 => "u128" | .usize => "usize"

def FloatKind.bits : FloatKind → Nat
  | .f32 => 32
  | .f64 => 64

def hirTypePrefix : HIRType → String
  | .int kind => IntKind.display kind
  | .float kind => "f" ++ toString (FloatKind.bits kind)
  | .bool => "bool"
  | .unit => "unit"
  | .named name _ => name
  | _ => "unknown"

mutual

def hirTypeInstanceName : HIRType → String
  | .int kind => IntKind.display kind
  | .float kind => "f" ++ toString (FloatKind.bits kind)
  | .bool => "bool"
  | .unit => "unit"
  | .str => "str"
  | .ref _ inner => "ref_" ++ hirTypeInstanceName inner
  | .ptr inner => "ptr_" ++ hirTypeInstanceName inner
  | .array elem len => "array_" ++ toString len ++ "_" ++ hirTypeInstanceName elem
  | .tuple items => if items = [] then "unit" else "tuple_" ++ "_".intercalate (instanceNames items)
  | .named name args =>
    if args = [] then name else name ++ "_" ++ "_".intercalate (instanceNames args)
  | ty => hirTypePrefix ty

def instanceNames : List HIRType → List String
  | [] => []
  | ty :: types => hirTypeInstanceName ty :: instanceNames types

end

mutual

def hirTypeIsConcrete (known : List String) : HIRType → Bool
  | .unit | .never | .bool | .char | .str | .byte | .bytes | .int _ | .float _ => true
  | .ref _ inner | .ptr inner | .slice inner | .array inner _ => hirTypeIsConcrete known inner
  | .tuple items => allConcrete known items
  | .fn params ret => allConcrete known params && hirTypeIsConcrete known ret
  | .named name args => name ∈ known && allConcrete known args
  | _ => false

def allConcrete (known : List String) : List HIRType → Bool
  | [] => true
  | ty :: types => hirTypeIsConcrete known ty && allConcrete known types

end

def collectNamed (known : List String) (name : String) (args : List HIRType) (out : Bindings) :
    Bindings :=
  let ty := .named name args
  let key := hirTypeInstanceName ty
  if args ≠ [] ∧ hirTypeIsConcrete known ty ∧ key ∉ out then out.insert key ty else out

mutual

def collectConcreteNamedTypesFromType (known : List String) : HIRType → Bindings → Bindings
  | .ref _ inner, out | .ptr inner, out | .slice inner, out | .array inner _, out =>
    collectConcreteNamedTypesFromType known inner out
  | .tuple items, out => collectAll known items out
  | .fn params ret, out =>
    collectConcreteNamedTypesFromType known ret (collectAll known params out)
  | .named name args, out => collectAll known args (collectNamed known name args out)
  | _, out => out

def collectAll (known : List String) : List HIRType → Bindings → Bindings
  | [], out => out
  | ty :: types, out => collectAll known types (collectConcreteNamedTypesFromType known ty out)

end

namespace HIRType

def parts : HIRType → List HIRType
  | ref _ inner | ptr inner | array inner _ => [inner]
  | tuple items | named _ items => items
  | _ => []

/-- The words of a name before those of its parts. -/
def words : HIRType → List String
  | ref .. => ["ref"]
  | ptr _ => ["ptr"]
  | array _ len => ["array", toString len]
  | tuple _ => ["tuple"]
  | named name _ => [name]
  | ty => [hirTypeInstanceName ty]

/-- The types without parts whose names are words of their own. -/
def scalars : List HIRType :=
  [unit, bool, str, float .f32, float .f64] ++
    [.i8, .i16, .i32, .i64, .i128, .isize, .u8, .u16, .u32, .u64, .u128, .usize].map int

def reserved : List String :=
  scalars.map hirTypeInstanceName ++ ["ref", "ptr", "array", "tuple"]

def fits (arity : String → Nat) (isMut : Bool) : HIRType → Bool
  | ref isMut' _ => isMut' = isMut
  | ptr _ | array .. => true
  | tuple items => items ≠ [] ∧ items.length = arity "tuple"
  | named name args => name ∉ reserved ∧ '_' ∉ name.toList ∧ args.length = arity name
  | ty => ty ∈ scalars

/-- A type whose name can be read back: every name has one word and one number
of parts, and references are of one mutability. -/
inductive Plain (arity : String → Nat) (isMut : Bool) : HIRType → Prop
  | mk {ty : HIRType} (hfits : ty.fits arity isMut)
      (hparts : ∀ part ∈ ty.parts, Plain arity isMut part) : Plain arity isMut ty

end HIRType

open HIRType

variable {arity : String → Nat} {isMut : Bool}

/-- The words of a text. -/
def wordsOf (text : String) : List String := (text.toList.splitOn '_').map String.ofList

theorem wordsOf_join (text text' : String) :
    wordsOf (text ++ "_" ++ text') = wordsOf text ++ wordsOf text' := by
  simp [wordsOf, splitOn_append_cons_self]

theorem wordsOf_word {word : String} (h : '_' ∉ word.toList) : wordsOf word = [word] := by
  simp [wordsOf, splitOn_eq_singleton h]

theorem wordsOf_joined {types : List HIRType} (h : types ≠ []) :
    wordsOf ("_".intercalate (instanceNames types)) =
      types.flatMap fun ty => wordsOf (hirTypeInstanceName ty) := by
  induction types with
  | nil => exact absurd rfl h
  | cons ty types ih =>
    by_cases htypes : types = []
    · simp [htypes, instanceNames]
    · have hnames : instanceNames types ≠ [] := by
        cases types with
        | nil => exact absurd rfl htypes
        | cons => simp [instanceNames]
      rw [instanceNames, String.intercalate_cons_of_ne_nil hnames, wordsOf_join, ih htypes,
        flatMap_cons]

theorem wordsOf_headed {word : String} (h : '_' ∉ word.toList) (text : String) :
    wordsOf (word ++ "_" ++ text) = word :: wordsOf text := by
  rw [wordsOf_join, wordsOf_word h, singleton_append]

theorem wordsOf_instanceName {ty : HIRType} (h : ty.fits arity isMut) :
    wordsOf (hirTypeInstanceName ty) =
      ty.words ++ ty.parts.flatMap fun part => wordsOf (hirTypeInstanceName part) := by
  cases ty with
  | ref _ inner =>
    simpa [words, parts, hirTypeInstanceName] using
      @wordsOf_headed "ref" (by decide) (hirTypeInstanceName inner)
  | ptr inner =>
    simpa [words, parts, hirTypeInstanceName] using
      @wordsOf_headed "ptr" (by decide) (hirTypeInstanceName inner)
  | array inner len =>
    have hlen : '_' ∉ (toString len).toList := by simp
    have hname := @wordsOf_headed "array" (by decide)
      (toString len ++ "_" ++ hirTypeInstanceName inner)
    rw [wordsOf_headed hlen] at hname
    simpa [words, parts, hirTypeInstanceName, String.append_assoc] using hname
  | tuple items =>
    have hitems : items ≠ [] := by simp_all [fits]
    have hname := @wordsOf_headed "tuple" (by decide) ("_".intercalate (instanceNames items))
    rw [wordsOf_joined hitems] at hname
    simpa [words, parts, hirTypeInstanceName, hitems] using hname
  | named name args =>
    have hname : '_' ∉ name.toList := by simp_all [fits]
    by_cases hargs : args = []
    · simp [hirTypeInstanceName, hargs, wordsOf_word hname, words, parts]
    · simp [hirTypeInstanceName, hargs, wordsOf_headed hname, wordsOf_joined hargs, words, parts]
  | int kind | float kind => cases kind <;> decide
  | bool | unit | str => decide
  | _ => cases h

theorem scalar_words : ∀ ty ∈ scalars, ty.words = [hirTypeInstanceName ty] ∧ ty.parts = [] ∧
    hirTypeInstanceName ty ∉ ["ref", "ptr", "array", "tuple"] := by
  decide

theorem scalar_unique : ∀ ty ∈ scalars, ∀ ty' ∈ scalars,
    hirTypeInstanceName ty = hirTypeInstanceName ty' → ty = ty' := by
  decide

variable {ty ty' : HIRType} {rest rest' : List String}

theorem scalar_first (h : ty ∈ scalars) (h' : ty'.fits arity isMut)
    (heq : ty.words ++ rest = ty'.words ++ rest') : ty = ty' ∧ rest = rest' := by
  obtain ⟨hwords, -, hword⟩ := scalar_words ty h
  by_cases hs : ty' ∈ scalars
  · rw [hwords, (scalar_words ty' hs).1] at heq
    simp only [cons_append, List.cons.injEq] at heq
    exact ⟨scalar_unique ty h ty' hs heq.1, heq.2⟩
  · rw [hwords] at heq
    have hreserved : hirTypeInstanceName ty ∈ reserved :=
      mem_append_left _ (mem_map_of_mem h)
    cases ty' <;> simp_all [words, fits]

theorem words_unique (h : ty.fits arity isMut) (h' : ty'.fits arity isMut)
    (heq : ty.words ++ rest = ty'.words ++ rest') :
    rest = rest' ∧ ty.parts.length = ty'.parts.length ∧ (ty.parts = ty'.parts → ty = ty') := by
  by_cases hs : ty ∈ scalars
  · obtain ⟨rfl, hrest⟩ := scalar_first hs h' heq
    exact ⟨hrest, rfl, fun _ => rfl⟩
  by_cases hs' : ty' ∈ scalars
  · obtain ⟨rfl, hrest⟩ := scalar_first hs' h heq.symm
    exact ⟨hrest.symm, rfl, fun _ => rfl⟩
  have hlength : ∀ m n : Nat, m.repr = n.repr ↔ m = n := fun m n =>
    ⟨fun h => by simpa using congrArg (fun word => Nat.ofDigitChars 10 word.toList 0) h,
      congrArg Nat.repr⟩
  cases ty <;> simp only [fits] at h
  all_goals cases ty' <;> simp only [fits] at h'
  all_goals simp_all [words, parts, reserved]

/-- The words of a list of types, one after another. -/
def spelling (types : List HIRType) : List String :=
  types.flatMap fun ty => wordsOf (hirTypeInstanceName ty)

theorem spelling_cons (h : ty.fits arity isMut) (types : List HIRType) :
    spelling (ty :: types) = ty.words ++ spelling (ty.parts ++ types) := by
  rw [spelling, flatMap_cons, wordsOf_instanceName h, spelling, flatMap_append,
    append_assoc]

theorem words_ne_nil (ty : HIRType) : ty.words ≠ [] := by
  cases ty <;> simp [words]

theorem spelling_parts_lt (h : ty.fits arity isMut) (types : List HIRType) :
    (spelling (ty.parts ++ types)).length < (spelling (ty :: types)).length := by
  have := length_pos_iff.mpr (words_ne_nil ty)
  rw [spelling_cons h, length_append]
  omega

/-- As many types are read back from their words. The first words give the
first type and the number of its parts, whose words come next. -/
theorem spelling_unique {types types' : List HIRType} (hlength : types.length = types'.length)
    (h : ∀ ty ∈ types, Plain arity isMut ty) (h' : ∀ ty ∈ types', Plain arity isMut ty)
    (heq : spelling types = spelling types') : types = types' := by
  rcases types with _ | ⟨ty, types⟩ <;> rcases types' with _ | ⟨ty', types'⟩
  · rfl
  · cases hlength
  · cases hlength
  · rw [forall_mem_cons] at h h'
    obtain ⟨⟨hfits, hparts⟩, htypes⟩ := h
    obtain ⟨⟨hfits', hparts'⟩, htypes'⟩ := h'
    rw [spelling_cons hfits, spelling_cons hfits'] at heq
    obtain ⟨hrest, hcount, hty⟩ := words_unique hfits hfits' heq
    have hless := spelling_parts_lt hfits types
    have hsame := spelling_unique (by simp_all) (forall_mem_append.mpr ⟨hparts, htypes⟩)
      (forall_mem_append.mpr ⟨hparts', htypes'⟩) hrest
    obtain ⟨hpart, rfl⟩ := append_inj hsame hcount
    rw [hty hpart]
termination_by (spelling types).length
decreasing_by simp_all

theorem instanceName_inj (h : Plain arity isMut ty) (h' : Plain arity isMut ty')
    (heq : hirTypeInstanceName ty = hirTypeInstanceName ty') : ty = ty' := by
  have hsame : [ty] = [ty'] := spelling_unique rfl (by simpa using h) (by simpa using h')
    (by simp [spelling, heq])
  exact singleton_inj.mp hsame

variable {known : List String} {out : Bindings}

/-- What is done at a type before its parts. -/
def collectHere (known : List String) : HIRType → Bindings → Bindings
  | named name args, out => collectNamed known name args out
  | _, out => out

theorem collectAll_append (types types' : List HIRType) (out : Bindings) :
    collectAll known (types ++ types') out = collectAll known types' (collectAll known types out) := by
  induction types generalizing out with
  | nil => rfl
  | cons ty types ih => exact ih _

theorem collectAll_cons (h : ty.fits arity isMut) (types : List HIRType) (out : Bindings) :
    collectAll known (ty :: types) out =
      collectAll known (ty.parts ++ types) (collectHere known ty out) := by
  rw [collectAll_append]
  cases ty <;> first | rfl | cases h

/-- A generic type at concrete arguments. -/
def IsInstance (known : List String) (ty : HIRType) : Prop :=
  ∃ name args, ty = named name args ∧ args ≠ [] ∧ hirTypeIsConcrete known ty

/-- One type occurs in the other. -/
def Within : HIRType → HIRType → Prop := Relation.ReflTransGen fun part ty => part ∈ ty.parts

/-- Every type is kept under its own name. -/
def ByName (arity : String → Nat) (isMut : Bool) (out : Bindings) : Prop :=
  ∀ key ty, out.lookup key = some ty → key = hirTypeInstanceName ty ∧ Plain arity isMut ty

theorem collectHere_cases (ty : HIRType) (out : Bindings) :
    collectHere known ty out = out.insert (hirTypeInstanceName ty) ty ∧
        hirTypeInstanceName ty ∉ out ∨
      collectHere known ty out = out ∧ (IsInstance known ty → hirTypeInstanceName ty ∈ out) := by
  cases ty with
  | named name args =>
    rw [collectHere, collectNamed]
    split_ifs with h
    · exact .inl ⟨rfl, h.2.2⟩
    · refine .inr ⟨rfl, ?_⟩
      rintro ⟨_, _, hty, hargs, hconcrete⟩
      cases hty
      by_contra hmem
      exact h ⟨hargs, hconcrete, hmem⟩
  | _ => exact .inr ⟨rfl, by rintro ⟨_, _, hty, _⟩; cases hty⟩

theorem collectHere_kept (h : Plain arity isMut ty) (hout : ByName arity isMut out) :
    ByName arity isMut (collectHere known ty out) ∧
      (∀ key ty', out.lookup key = some ty' → (collectHere known ty out).lookup key = some ty') ∧
      (IsInstance known ty →
        (collectHere known ty out).lookup (hirTypeInstanceName ty) = some ty) := by
  rcases collectHere_cases ty out with ⟨heq, hnew⟩ | ⟨heq, hmem⟩ <;> rw [heq]
  · refine ⟨fun key ty' hkey => ?_, fun key ty' hkey => ?_, fun _ => AList.lookup_insert _⟩
    · rcases Table.lookup_insert_some hkey with ⟨rfl, rfl⟩ | ⟨-, hkey⟩
      · exact ⟨rfl, h⟩
      · exact hout key ty' hkey
    · have hne : key ≠ hirTypeInstanceName ty := by
        rintro rfl
        exact hnew (Table.mem_of_lookup hkey)
      rwa [AList.lookup_insert_ne hne]
  · refine ⟨hout, fun _ _ hkey => hkey, fun hinstance => ?_⟩
    obtain ⟨ty', hkey⟩ := Table.lookup_of_mem (hmem hinstance)
    obtain ⟨hname, hty'⟩ := hout _ _ hkey
    rw [hkey, instanceName_inj h hty' hname]

theorem collectAll_kept {types : List HIRType} (h : ∀ ty ∈ types, Plain arity isMut ty)
    (hout : ByName arity isMut out) :
    (∀ key ty, out.lookup key = some ty → (collectAll known types out).lookup key = some ty) ∧
      ∀ ty ∈ types, ∀ ty', Within ty' ty → IsInstance known ty' →
        (collectAll known types out).lookup (hirTypeInstanceName ty') = some ty' := by
  induction hn : (spelling types).length using Nat.strong_induction_on generalizing types out with
  | _ n ih =>
    rcases types with _ | ⟨ty, types⟩
    · simp [collectAll]
    · rw [forall_mem_cons] at h
      obtain ⟨hplain, htypes⟩ := h
      obtain ⟨hfits, hparts⟩ := id hplain
      obtain ⟨hhere, hkept, hinstance⟩ := @collectHere_kept _ _ _ known _ hplain hout
      obtain ⟨hlater, hfound⟩ := ih _ (hn ▸ spelling_parts_lt hfits types)
        (forall_mem_append.mpr ⟨hparts, htypes⟩) hhere rfl
      rw [collectAll_cons hfits]
      refine ⟨fun key ty' hkey => hlater key ty' (hkept key ty' hkey), ?_⟩
      intro root hroot ty' hwithin hty'
      rcases mem_cons.mp hroot with rfl | hroot
      · rcases hwithin.cases_tail with rfl | ⟨part, hwithin, hpart⟩
        · exact hlater _ _ (hinstance hty')
        · exact hfound part (mem_append_left _ hpart) ty' hwithin hty'
      · exact hfound root (mem_append_right _ hroot) ty' hwithin hty'

/-- Different types have different names, whatever a declared type without arguments
is called, and no instance is dropped for another one of its name. -/
theorem instance_names_distinct (arity : String → Nat) (isMut : Bool) :
    (∀ ty ty', Plain arity isMut ty → Plain arity isMut ty' →
      hirTypeInstanceName ty = hirTypeInstanceName ty' → ty = ty') ∧
    (∀ name name', hirTypeInstanceName (named name []) = hirTypeInstanceName (named name' []) →
      name = name') ∧
    ∀ known types, (∀ ty ∈ types, Plain arity isMut ty) →
      ∀ ty ∈ types, ∀ ty', Within ty' ty → IsInstance known ty' →
        (collectAll known types ∅).lookup (hirTypeInstanceName ty') = some ty' := by
  refine ⟨fun ty ty' h h' heq => instanceName_inj h h' heq, fun name name' heq => ?_,
    fun known types h => ?_⟩
  · simpa [hirTypeInstanceName] using heq
  · exact (collectAll_kept h (fun key ty hkey => by simp at hkey)).2

theorem instance_names_distinct_box :
    let box := named "Box" [ref true (int .i64)]
    Plain (fun _ => 1) true box ∧ (collectAll ["Box"] [box] ∅).lookup "Box_ref_i64" = some box := by
  intro box
  have hint : Plain (fun _ => 1) true (int .i64) := .mk rfl (by simp [parts])
  have href : Plain (fun _ => 1) true (ref true (int .i64)) := .mk rfl (by simpa [parts] using hint)
  have hbox : Plain (fun _ => 1) true box := .mk (by decide) (by simpa [parts, box] using href)
  exact ⟨hbox, (instance_names_distinct _ _).2.2 ["Box"] [box] (by simpa using hbox) box (by simp) box
    .refl ⟨"Box", _, rfl, by simp, by decide⟩⟩

/-- References to `i64` that differ in mutability: a box of the second is
dropped for a box of the first. -/
theorem mutable_reference_instance_dropped :
    let first := named "Box" [ref false (int .i64)]
    let second := named "Box" [ref true (int .i64)]
    first ≠ second ∧ hirTypeIsConcrete ["Box"] first ∧ hirTypeIsConcrete ["Box"] second ∧
      hirTypeInstanceName first = hirTypeInstanceName second ∧
      (collectAll ["Box"] [first, second] ∅).lookup (hirTypeInstanceName second) = some first := by
  decide

end Sengoo.Hir
