import Sengoo.Table
import Sengoo.Hir.Ty

/-!
Matching the target of a generic impl against a concrete type. A name without
arguments that is not a known type is a placeholder; the first type it meets is
bound to it, and every later one has to be the same.
-/

namespace Sengoo.Hir

abbrev Bindings := Table String HIRType

def hirTypeIsPlaceholderName (known : List String) : HIRType → Option String
  | .named name [] => if name ∈ known then none else some name
  | _ => none

mutual

def substituteHirType (subst : Bindings) : HIRType → HIRType
  | .ref isMut inner => .ref isMut (substituteHirType subst inner)
  | .ptr inner => .ptr (substituteHirType subst inner)
  | .array elem len => .array (substituteHirType subst elem) len
  | .slice elem => .slice (substituteHirType subst elem)
  | .tuple items => .ofItems (substituteAll subst items)
  | .fn params ret => .fn (substituteAll subst params) (substituteHirType subst ret)
  | .named name [] => (subst.lookup name).getD (.named name [])
  | .named name (arg :: args) =>
    .named name (substituteHirType subst arg :: substituteAll subst args)
  | .assocProjection base traitName name =>
    let kept := .assocProjection (substituteHirType subst base) traitName name
    match base with
    | .named baseName [] => (subst.lookup s!"<{baseName} as {traitName}>::{name}").getD kept
    | _ => kept
  | ty => ty

def substituteAll (subst : Bindings) : List HIRType → List HIRType
  | [] => []
  | ty :: types => substituteHirType subst ty :: substituteAll subst types

end

mutual

def matchGenericImplTarget (known : List String) (template concrete : HIRType)
    (subst : Bindings) : Bool × Bindings :=
  match hirTypeIsPlaceholderName known template with
  | some name =>
    match subst.lookup name with
    | some existing => (existing = concrete, subst)
    | none => (true, subst.insert name concrete)
  | none =>
    match template, concrete with
    | .unit, .unit | .never, .never | .bool, .bool | .char, .char | .str, .str | .byte, .byte
    | .bytes, .bytes => (true, subst)
    | .int lhs, .int rhs => (lhs = rhs, subst)
    | .float lhs, .float rhs => (lhs = rhs, subst)
    | .ref lhsMut lhs, .ref rhsMut rhs =>
      if lhsMut = rhsMut then matchGenericImplTarget known lhs rhs subst else (false, subst)
    | .ptr lhs, .ptr rhs | .slice lhs, .slice rhs => matchGenericImplTarget known lhs rhs subst
    | .array lhs lhsLen, .array rhs rhsLen =>
      if lhsLen = rhsLen then matchGenericImplTarget known lhs rhs subst else (false, subst)
    | .tuple lhs, .tuple rhs =>
      if lhs.length = rhs.length then matchZip known lhs rhs subst else (false, subst)
    | .fn lhsParams lhsRet, .fn rhsParams rhsRet =>
      if lhsParams.length = rhsParams.length then
        let params := matchZip known lhsParams rhsParams subst
        if params.1 then matchGenericImplTarget known lhsRet rhsRet params.2 else params
      else (false, subst)
    | .named lhsName lhsArgs, .named rhsName rhsArgs =>
      if lhsName = rhsName ∧ lhsArgs.length = rhsArgs.length then
        matchZip known lhsArgs rhsArgs subst
      else (false, subst)
    | _, _ => (false, subst)

/-- The loop `zip().all()` over lists. -/
def matchZip (known : List String) : List HIRType → List HIRType → Bindings → Bool × Bindings
  | lhs :: lhss, rhs :: rhss, subst =>
    let first := matchGenericImplTarget known lhs rhs subst
    if first.1 then matchZip known lhss rhss first.2 else first
  | _, _, subst => (true, subst)

end

mutual

/-- Built from the constructors both functions have a case for, and with no
tuple without items, which `HIRType::tuple` never builds. -/
def HIRType.handled : HIRType → Bool
  | .traitObject _ | .assocProjection .. | .error => false
  | .tuple items => !items.isEmpty && handledAll items
  | .array inner _ | .slice inner | .ref _ inner | .ptr inner => inner.handled
  | .fn params ret => handledAll params && ret.handled
  | .named _ args => handledAll args
  | _ => true

def handledAll : List HIRType → Bool
  | [] => true
  | ty :: types => ty.handled && handledAll types

end

variable {known : List String} {subst assignment : Bindings}

/-- An assignment of types to names that are not known types. -/
def Assigns (known : List String) (assignment : Bindings) : Prop :=
  ∀ name ∈ assignment, name ∉ known

/-- The bindings found so far are those of the assignment. -/
def Agrees (subst assignment : Bindings) : Prop :=
  ∀ name ty, subst.lookup name = some ty → substituteHirType assignment (.named name []) = ty

/-- The match succeeded, with bindings that are those of the assignment. -/
def Succeeds (run : Bool × Bindings) (assignment : Bindings) : Prop :=
  run.1 = true ∧ Agrees run.2 assignment

theorem succeeds_pair {matched : Bool} :
    Succeeds (matched, subst) assignment ↔ matched = true ∧ Agrees subst assignment := Iff.rfl

/-- A match that goes on only when the one before it succeeded. -/
theorem succeeds_then {run : Bool × Bindings} {next : Bindings → Bool × Bindings} {P : Prop}
    (h : ∀ subst, Succeeds (next subst) assignment ↔ Agrees subst assignment ∧ P) :
    Succeeds (if run.1 then next run.2 else run) assignment ↔ Succeeds run assignment ∧ P := by
  obtain ⟨matched, subst⟩ := run
  cases matched
  · simp [succeeds_pair]
  · simp [h, succeeds_pair]

theorem placeholder_spec {template : HIRType} {name : String}
    (h : hirTypeIsPlaceholderName known template = some name) :
    template = .named name [] ∧ name ∉ known := by
  unfold hirTypeIsPlaceholderName at h
  split at h
  · split at h
    · cases h
    · next hunknown =>
      cases h
      exact ⟨rfl, hunknown⟩
  · cases h

theorem agrees_insert {name : String} {concrete : HIRType} (hfree : subst.lookup name = none) :
    Agrees (subst.insert name concrete) assignment ↔
      Agrees subst assignment ∧ substituteHirType assignment (.named name []) = concrete := by
  constructor
  · intro h
    refine ⟨fun other ty hother => h other ty ?_, h name concrete (AList.lookup_insert subst)⟩
    rw [AList.lookup_insert_ne (by rintro rfl; simp [hfree] at hother), hother]
  · rintro ⟨h, hname⟩ other ty hother
    rcases Table.lookup_insert_some hother with ⟨rfl, rfl⟩ | ⟨-, hother⟩
    · exact hname
    · exact h other ty hother

/-- What a placeholder does to the bindings: it fixes the type its name stands for. -/
theorem succeeds_placeholder {name : String} {template concrete : HIRType}
    (h : hirTypeIsPlaceholderName known template = some name) :
    Succeeds (matchGenericImplTarget known template concrete subst) assignment ↔
      Agrees subst assignment ∧ substituteHirType assignment template = concrete := by
  obtain ⟨rfl, -⟩ := placeholder_spec h
  unfold matchGenericImplTarget
  simp only [h]
  split
  · next existing hbound =>
    simp only [succeeds_pair, decide_eq_true_eq]
    constructor
    · rintro ⟨rfl, hagrees⟩
      exact ⟨hagrees, hagrees name _ hbound⟩
    · rintro ⟨hagrees, rfl⟩
      exact ⟨(hagrees name _ hbound).symm, hagrees⟩
  · next hfree => rw [succeeds_pair, agrees_insert hfree, eq_self, true_and]

theorem length_substituteAll (subst : Bindings) (types : List HIRType) :
    (substituteAll subst types).length = types.length := by
  induction types with
  | nil => rfl
  | cons ty types ih => simp [substituteAll, ih]

theorem succeeds_guard {p : Prop} [Decidable p] {run : Bool × Bindings} :
    Succeeds (if p then run else (false, subst)) assignment ↔ p ∧ Succeeds run assignment := by
  split <;> simp_all [succeeds_pair]

/-- A matching of lists makes the lengths equal, as a substitution does. -/
theorem succeeds_list {types types' : List HIRType} (h : types.length = types'.length →
      (Succeeds (matchZip known types types' subst) assignment ↔
        Agrees subst assignment ∧ substituteAll assignment types = types')) :
    types.length = types'.length ∧ Succeeds (matchZip known types types' subst) assignment ↔
      Agrees subst assignment ∧ substituteAll assignment types = types' := by
  constructor
  · rintro ⟨hlength, hrun⟩
    exact (h hlength).mp hrun
  · rintro ⟨hagrees, rfl⟩
    have hlength := (length_substituteAll assignment types).symm
    exact ⟨hlength, (h hlength).mpr ⟨hagrees, rfl⟩⟩

theorem substitute_named {name : String} {args : List HIRType}
    (hassigns : Assigns known assignment)
    (h : hirTypeIsPlaceholderName known (.named name args) = none) :
    substituteHirType assignment (.named name args) =
      .named name (substituteAll assignment args) := by
  cases args with
  | cons arg args => rw [substituteHirType, substituteAll]
  | nil =>
    have hknown : name ∈ known := by
      by_contra hunknown
      simp [hirTypeIsPlaceholderName, hunknown] at h
    have hfree : assignment.lookup name = none :=
      AList.lookup_eq_none.mpr fun hbound => hassigns name hbound hknown
    rw [substituteHirType, hfree]
    rfl

theorem succeeds_match (hassigns : Assigns known assignment) (template : HIRType) :
    template.handled = true → ∀ concrete subst,
      Succeeds (matchGenericImplTarget known template concrete subst) assignment ↔
        Agrees subst assignment ∧ substituteHirType assignment template = concrete := by
  apply @HIRType.rec (fun template => template.handled = true → ∀ concrete subst,
      Succeeds (matchGenericImplTarget known template concrete subst) assignment ↔
        Agrees subst assignment ∧ substituteHirType assignment template = concrete)
    (fun types => handledAll types = true → ∀ types' subst, types.length = types'.length →
      (Succeeds (matchZip known types types' subst) assignment ↔
        Agrees subst assignment ∧ substituteAll assignment types = types'))
  case nil =>
    intro _ types' subst hlength
    obtain rfl := List.length_eq_zero_iff.mp hlength.symm
    simp [matchZip, succeeds_pair, substituteAll]
  case cons =>
    intro ty types hty htypes hhandled types' subst hlength
    obtain ⟨ty', types', rfl⟩ := List.exists_cons_of_length_eq_add_one hlength.symm
    rw [handledAll, Bool.and_eq_true] at hhandled
    rw [matchZip, succeeds_then (htypes hhandled.2 types' · (by simpa using hlength)),
      hty hhandled.1, substituteAll, List.cons.injEq, and_assoc]
  case named =>
    intro name args hargs hhandled concrete subst
    cases hname : hirTypeIsPlaceholderName known (.named name args) with
    | some placeholder => exact succeeds_placeholder hname
    | none =>
      rw [substitute_named hassigns hname]
      unfold matchGenericImplTarget
      simp only [hname]
      cases concrete <;>
        simp only [succeeds_pair, reduceCtorEq, false_and, and_false]
      next name' args' =>
        rw [succeeds_guard, and_assoc, succeeds_list (hargs hhandled args' subst)]
        simp [and_left_comm]
  case tuple =>
    intro items hitems hhandled concrete subst
    simp only [HIRType.handled, Bool.and_eq_true] at hhandled
    obtain ⟨item, items, rfl⟩ := List.exists_cons_of_ne_nil (l := items) (by simpa using hhandled.1)
    unfold matchGenericImplTarget
    cases concrete <;>
      simp only [hirTypeIsPlaceholderName, succeeds_pair, Bool.false_eq_true, substituteHirType,
        substituteAll, HIRType.ofItems, reduceCtorEq, false_and, and_false]
    next items' =>
      rw [succeeds_guard, succeeds_list (hitems hhandled.2 items' subst), substituteAll,
        HIRType.tuple.injEq]
  case fn =>
    intro params ret hparams hret hhandled concrete subst
    simp only [HIRType.handled, Bool.and_eq_true] at hhandled
    unfold matchGenericImplTarget
    cases concrete <;>
      simp only [hirTypeIsPlaceholderName, succeeds_pair, Bool.false_eq_true, substituteHirType,
        reduceCtorEq, false_and, and_false]
    next params' ret' =>
      rw [succeeds_guard, succeeds_then (hret hhandled.2 ret'), ← and_assoc,
        succeeds_list (hparams hhandled.1 params' subst), and_assoc, HIRType.fn.injEq]
  all_goals
    intros
    rename_i concrete subst
    unfold matchGenericImplTarget
    cases concrete <;>
      simp_all [hirTypeIsPlaceholderName, succeeds_pair, succeeds_guard, substituteHirType,
        HIRType.handled, and_comm, and_left_comm]

theorem assigns_insert {template concrete : HIRType} {name : String}
    (hname : hirTypeIsPlaceholderName known template = some name)
    (hsubst : Assigns known subst) : Assigns known (subst.insert name concrete) := by
  intro other hother
  rcases (AList.mem_insert subst).mp hother with rfl | hother
  · exact (placeholder_spec hname).2
  · exact hsubst other hother

theorem assigns_then {run : Bool × Bindings} {next : Bindings → Bool × Bindings}
    (hrun : Assigns known run.2) (hnext : Assigns known (next run.2).2) :
    Assigns known (if run.1 then next run.2 else run).2 := by
  split
  · exact hnext
  · exact hrun

theorem assigns_match (template : HIRType) : ∀ concrete subst, Assigns known subst →
    Assigns known (matchGenericImplTarget known template concrete subst).2 := by
  apply @HIRType.rec (fun template => ∀ concrete subst, Assigns known subst →
      Assigns known (matchGenericImplTarget known template concrete subst).2)
    (fun types => ∀ types' subst, Assigns known subst →
      Assigns known (matchZip known types types' subst).2)
  case nil => intro types' subst hsubst; exact hsubst
  case cons =>
    intro ty types hty htypes types' subst hsubst
    cases types' with
    | nil => exact hsubst
    | cons ty' types' =>
      have hfirst := hty ty' subst hsubst
      exact assigns_then hfirst (htypes types' _ hfirst)
  case fn =>
    intro params ret hparams hret concrete subst hsubst
    unfold matchGenericImplTarget
    cases concrete <;> simp only [hirTypeIsPlaceholderName, hsubst]
    next params' ret' =>
      split
      · have hfirst := hparams params' subst hsubst
        exact assigns_then hfirst (hret ret' _ hfirst)
      · exact hsubst
  all_goals
    intros
    rename_i hsubst
    unfold matchGenericImplTarget
    repeat' split
    all_goals first
      | exact assigns_insert (by assumption) hsubst
      | simp_all

theorem agrees_self {subst : Bindings} : Agrees subst subst := by
  intro name ty hname
  rw [substituteHirType, hname]
  rfl

/-- A template whose tuples have items matches a type exactly when an
assignment of types to its placeholders makes it that type, and the bindings
the match leaves behind are such an assignment. -/
theorem match_generic_impl_target_iff (known : List String) (template concrete : HIRType)
    (hhandled : template.handled = true) :
    let run := matchGenericImplTarget known template concrete ∅
    (run.1 = true ↔ ∃ assignment, Assigns known assignment ∧
        substituteHirType assignment template = concrete) ∧
      (run.1 = true → substituteHirType run.2 template = concrete) := by
  intro run
  have hassigns : Assigns known run.2 := assigns_match template concrete ∅ (by simp [Assigns])
  have hsound : run.1 = true → substituteHirType run.2 template = concrete := fun hmatched =>
    ((succeeds_match hassigns template hhandled concrete ∅).mp ⟨hmatched, agrees_self⟩).2
  refine ⟨⟨fun hmatched => ⟨run.2, hassigns, hsound hmatched⟩, ?_⟩, hsound⟩
  rintro ⟨assignment, hassignment, heq⟩
  have hempty : Agrees ∅ assignment := by simp [Agrees]
  exact ((succeeds_match hassignment template hhandled concrete ∅).mpr ⟨hempty, heq⟩).1

/-- `(T, &T)` against `(i64, &i64)`. -/
theorem match_generic_impl_target_iff_pair :
    let template := HIRType.tuple [.named "T" [], .ref false (.named "T" [])]
    let concrete := HIRType.tuple [.int .i64, .ref false (.int .i64)]
    template.handled = true ∧
      substituteHirType (matchGenericImplTarget ["Box"] template concrete ∅).2 template =
        concrete :=
  ⟨by decide, (match_generic_impl_target_iff _ _ _ (by decide)).2 (by decide)⟩

/-- Substitution turns a tuple without items into the unit type, and matching does not. -/
theorem empty_tuple_matches_itself :
    (matchGenericImplTarget [] (.tuple []) (.tuple []) ∅).1 = true ∧
      substituteHirType (matchGenericImplTarget [] (.tuple []) (.tuple []) ∅).2 (.tuple []) ≠
        .tuple [] := by
  decide

end Sengoo.Hir
