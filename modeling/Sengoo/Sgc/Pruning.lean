import Sengoo.Table
import Sengoo.Worklist

/-!
What the three passes that drop unreachable functions share. Each numbers the
functions of its program, finds the names that a function mentions in the
places it walks, follows them from `main`, and keeps the functions whose name
was met; every other declaration stays.

Closure is stated for any program representation: whatever a kept declaration
mentions by name is kept. A pass achieves it exactly when the names in the
places it does not walk are met as well.
-/

namespace Sengoo.Sgc

open List

section Index

/-- The last position of each name. -/
def indexByName (names : List String) : Table String Nat :=
  names.zipIdx.foldl (fun index entry => index.insert entry.1 entry.2) ∅

/-- A name stands for the last function that has it. -/
def Resolves (names : List String) (name : String) (i : Nat) : Prop :=
  names[i]? = some name ∧ ∀ j, i < j → names[j]? ≠ some name

variable {names : List String} {name : String}

theorem Resolves.lt {i : Nat} (h : Resolves names name i) :
    i < names.length :=
  (List.getElem?_eq_some_iff.mp h.1).1

theorem indexByName_append (names : List String) (last : String) :
    indexByName (names ++ [last]) = (indexByName names).insert last names.length := by
  unfold indexByName
  rw [zipIdx_append]
  simp

theorem resolves_append_self (names : List String) (name : String) (i : Nat) :
    Resolves (names ++ [name]) name i ↔ i = names.length := by
  constructor
  · rintro ⟨hi, hlater⟩
    have hlast : (names ++ [name])[names.length]? = some name := List.getElem?_concat_length
    have hle : i < names.length + 1 := by
      simpa using (List.getElem?_eq_some_iff.mp hi).1
    by_contra hne
    exact hlater names.length (by omega) hlast
  · rintro rfl
    refine ⟨List.getElem?_concat_length, fun j hj hsome => ?_⟩
    have hlt := (List.getElem?_eq_some_iff.mp hsome).1
    simp only [List.length_append, List.length_singleton] at hlt
    omega

theorem resolves_append_of_ne (names : List String) {name last : String} (hne : name ≠ last)
    (i : Nat) : Resolves (names ++ [last]) name i ↔ Resolves names name i := by
  have hat : ∀ j : Nat, (names ++ [last])[j]? = some name ↔ names[j]? = some name := by
    intro j
    rcases Nat.lt_trichotomy j names.length with hj | rfl | hj
    · rw [getElem?_append_left hj]
    · simp [hne.symm]
    · rw [getElem?_eq_none (by simp; omega), getElem?_eq_none (by omega)]
  unfold Resolves
  simp only [ne_eq, hat]

theorem lookup_indexByName (names : List String) (name : String) (i : Nat) :
    (indexByName names).lookup name = some i ↔ Resolves names name i := by
  induction names using List.reverseRecOn generalizing i with
  | nil =>
    constructor
    · intro h
      cases h
    · intro h
      exact absurd h.lt (Nat.not_lt_zero i)
  | append_singleton names last ih =>
    rw [indexByName_append]
    by_cases hname : name = last
    · subst hname
      rw [AList.lookup_insert, resolves_append_self, Option.some.injEq, eq_comm]
    · rw [AList.lookup_insert_ne hname, resolves_append_of_ne _ hname, ih]

theorem exists_resolves (h : name ∈ names) : ∃ i, Resolves names name i := by
  induction names using List.reverseRecOn with
  | nil => cases h
  | append_singleton names last ih =>
    by_cases hname : name = last
    · subst hname
      exact ⟨names.length, (resolves_append_self names name _).mpr rfl⟩
    · rw [mem_append, mem_singleton] at h
      obtain ⟨i, hi⟩ := ih (h.resolve_right hname)
      exact ⟨i, (resolves_append_of_ne names hname i).mpr hi⟩

end Index

section Collect

/-- The positions found so far, in order, and the set of them that is asked
before a position is added. -/
structure Targets where
  targets : List Nat
  seen : List Nat
  seen_iff : ∀ i, i ∈ seen ↔ i ∈ targets

namespace Targets

def empty : Targets := ⟨[], [], fun _ => Iff.rfl⟩

def add (found : Targets) (i : Nat) : Targets :=
  if i ∈ found.seen then found
  else
    { targets := found.targets ++ [i]
      seen := i :: found.seen
      seen_iff := fun j => by
        rw [mem_cons, found.seen_iff, mem_append, mem_singleton, or_comm] }

/-- The search goes on from positions found before. -/
def ofList (targets : List Nat) : Targets := ⟨targets, targets, fun _ => Iff.rfl⟩

def addAll (found : Targets) (targets : List Nat) : Targets := targets.foldl add found

def addName (index : Table String Nat) (name : String) (found : Targets) : Targets :=
  match index.lookup name with
  | some i => found.add i
  | none => found

theorem mem_add (found : Targets) (i j : Nat) :
    j ∈ (found.add i).targets ↔ j ∈ found.targets ∨ j = i := by
  unfold add
  by_cases hi : i ∈ found.seen
  · rw [if_pos hi]
    constructor
    · exact Or.inl
    · rintro (hj | rfl)
      · exact hj
      · exact (found.seen_iff j).mp hi
  · rw [if_neg hi]
    exact mem_append.trans (or_congr_right mem_singleton)

theorem mem_addAll (found : Targets) (targets : List Nat) (j : Nat) :
    j ∈ (found.addAll targets).targets ↔ j ∈ found.targets ∨ j ∈ targets := by
  induction targets generalizing found with
  | nil => simp [addAll]
  | cons i rest ih =>
    change j ∈ ((found.add i).addAll rest).targets ↔ _
    rw [ih, mem_add, mem_cons, or_assoc]

end Targets

/-- A walk that adds the positions of these names and no others. -/
def Collects (index : Table String Nat) (walk : Targets → Targets) (names : List String) : Prop :=
  ∀ found i, i ∈ (walk found).targets ↔
    i ∈ found.targets ∨ ∃ name ∈ names, index.lookup name = some i

/-- A walk over each term of a kind, for the names that it mentions. -/
abbrev Gathers {α : Type} (index : Table String Nat)
    (walk : Table String Nat → α → Targets → Targets) (mentions : α → List String) : Prop :=
  ∀ a, Collects index (walk index a) (mentions a)

namespace Collects

variable {index : Table String Nat} {walk walk' : Targets → Targets} {names names' : List String}

theorem nothing : Collects index (fun found => found) [] := by
  intro found i
  simp

theorem name (name : String) : Collects index (Targets.addName index name) [name] := by
  intro found i
  unfold Targets.addName
  cases hlookup : index.lookup name with
  | none => simp [hlookup]
  | some j =>
    rw [Targets.mem_add]
    simp [hlookup, eq_comm]

theorem andThen (h : Collects index walk names) (h' : Collects index walk' names') :
    Collects index (fun found => walk' (walk found)) (names ++ names') := by
  intro found i
  rw [h', h]
  simp only [mem_append, or_and_right, exists_or, or_assoc]

/-- A loop over a list, one walk after the other. -/
theorem each {α : Type} (visit : α → Targets → Targets) (mentions : α → List String)
    (h : ∀ a, Collects index (visit a) (mentions a)) (items : List α) :
    Collects index (fun found => items.foldl (fun found a => visit a found) found)
      (items.flatMap mentions) := by
  induction items with
  | nil => exact nothing
  | cons a rest ih =>
    exact (h a).andThen ih

section

variable (h : Collects index walk names)
include h

/-- A body is walked on its own, and what it found is added. -/
theorem separately : Collects index (fun found => found.addAll (walk .empty).targets) names := by
  intro found i
  rw [Targets.mem_addAll, h]
  simp [Targets.empty]

theorem of_mem_iff (hnames : ∀ name, name ∈ names ↔ name ∈ names') :
    Collects index walk names' := by
  intro found i
  simp only [h found i, hnames]

/-- Looking again at names that were found adds nothing. -/
theorem again (h' : Collects index walk' names')
    (hsub : names' ⊆ names) : Collects index (fun found => walk' (walk found)) names := by
  refine (h.andThen h').of_mem_iff fun name => ?_
  rw [mem_append]
  exact or_iff_left_of_imp (@hsub name)

theorem mem_targets (i : Nat) :
    i ∈ (walk .empty).targets ↔ ∃ name ∈ names, index.lookup name = some i := by
  rw [h]
  simp [Targets.empty]

/-- A walk that goes on from positions found before. -/
theorem mem_onto {targets : List Nat} {before : List String}
    {i : Nat}
    (htargets : i ∈ targets ↔ ∃ name ∈ before, index.lookup name = some i) :
    i ∈ (walk (.ofList targets)).targets ↔
      ∃ name ∈ before ++ names, index.lookup name = some i := by
  rw [h]
  change i ∈ targets ∨ _ ↔ _
  simp only [htargets, mem_append, or_and_right, exists_or]

end

end Collects

end Collect

/-- The functions marked by the search over the edges, from a stack of roots. -/
def reachable (edges : List (List Nat)) (stack : List Nat) : List Nat :=
  Worklist.search (fun i => edges.getD i []) (List.range edges.length) stack.reverse

def asyncHelpers : List String := ["main__async_body", "main__start", "main__poll", "main__result"]

/-- The stack at the start: `main`, then the helpers that the program has. -/
def rootStack (index : Table String Nat) (mainIndex : Nat) (helpers : List String) : List Nat :=
  mainIndex :: helpers.filterMap fun helper => index.lookup helper

/-- A program representation as the passes see it: which declarations are
functions, the names a declaration mentions anywhere, those a pass finds in a
function, and the functions it starts from. -/
structure Ir (δ φ : Type) where
  function? : δ → Option φ
  name : φ → String
  mentions : δ → List String
  walked : φ → List String
  rootNames : List String
  indirect : String → Bool

namespace Ir

variable {δ φ : Type} (ir : Ir δ φ) (decls : List δ)

def functions : List φ := decls.filterMap ir.function?

def names : List String := (ir.functions decls).map ir.name

/-- The functions met from the roots along the names that are walked. -/
inductive Reached : Nat → Prop
  | root {name : String} {i : Nat} (hroot : name ∈ ir.rootNames)
      (hname : Resolves (ir.names decls) name i) : Reached i
  | indirect {name : String} {i : Nat} (hat : (ir.names decls)[i]? = some name)
      (hindirect : ir.indirect name = true) : Reached i
  | mention {i j : Nat} {f : φ} {name : String} (h : Reached i)
      (hat : (ir.functions decls)[i]? = some f) (hwalked : name ∈ ir.walked f)
      (hname : Resolves (ir.names decls) name j) : Reached j

def Supplied (name : String) : Prop := ∃ i, Resolves (ir.names decls) name i ∧ ir.Reached decls i

/-- The search went through this function. An earlier function whose name a later
one takes is kept with it, but never gone through. -/
def Followed (f : φ) : Prop := ∃ i, (ir.functions decls)[i]? = some f ∧ ir.Reached decls i

def Retained (d : δ) : Prop := ∀ f, ir.function? d = some f → ir.Supplied decls (ir.name f)

/-- The declaration mentions the name in a place that the search does not look at:
anywhere in a declaration that is no function or was not gone through. -/
def Overlooks (d : δ) (name : String) : Prop :=
  name ∈ ir.mentions d ∧ ∀ f, ir.function? d = some f → ir.Followed decls f → name ∉ ir.walked f

/-- The functions that retained declarations mention in overlooked places are met
all the same. -/
def Covered : Prop :=
  ∀ d ∈ decls, ir.Retained decls d → ∀ name ∈ ir.names decls, ir.Overlooks decls d name →
    ir.Supplied decls name

section Closure

def hasName (name : String) (d : δ) : Bool := (ir.function? d).any fun f => ir.name f == name

def functionsNamed (name : String) : List δ := decls.filter (ir.hasName name)

/-- Whatever a declaration that is left mentions stands for the same functions as
before. -/
def Closed (before after : List δ) : Prop :=
  ∀ d ∈ after, ∀ name ∈ ir.mentions d, ir.functionsNamed after name = ir.functionsNamed before name

/-- Keep the functions with a chosen name, and everything that is no function. -/
def keeps (keep : String → Bool) (d : δ) : Bool := (ir.function? d).all fun f => keep (ir.name f)

variable {ir decls}

variable {name : String}

theorem hasName_iff {d : δ} :
    ir.hasName name d = true ↔ ∃ f, ir.function? d = some f ∧ ir.name f = name := by
  unfold hasName
  cases ir.function? d with
  | none | some f => simp

theorem keeps_iff {keep : String → Bool} {d : δ} :
    ir.keeps keep d = true ↔ ∀ f, ir.function? d = some f → keep (ir.name f) = true := by
  unfold keeps
  cases ir.function? d with
  | none | some f => simp

theorem mem_names : name ∈ ir.names decls ↔ ∃ d ∈ decls, ir.hasName name d = true := by
  simp only [names, functions, mem_map, mem_filterMap, hasName_iff]
  constructor
  · rintro ⟨f, ⟨d, hd, hf⟩, hname⟩
    exact ⟨d, hd, f, hf, hname⟩
  · rintro ⟨d, hd, f, hf, hname⟩
    exact ⟨f, ⟨d, hd, hf⟩, hname⟩

theorem supplied_of_root (hroot : name ∈ ir.rootNames)
    (hname : name ∈ ir.names decls) : ir.Supplied decls name := by
  obtain ⟨i, hi⟩ := exists_resolves hname
  exact ⟨i, hi, .root hroot hi⟩

/-- In a covered program every function that a retained declaration mentions is
met: either the search walks past the mention, or the mention is overlooked. -/
theorem Covered.supplied (h : ir.Covered decls) {d : δ} (hd : d ∈ decls)
    (hretained : ir.Retained decls d) (hmention : name ∈ ir.mentions d)
    (hname : name ∈ ir.names decls) : ir.Supplied decls name := by
  by_cases hwalked : ∃ f, ir.function? d = some f ∧ ir.Followed decls f ∧ name ∈ ir.walked f
  · obtain ⟨f, -, ⟨i, hat, hreached⟩, hwalked⟩ := hwalked
    obtain ⟨j, hj⟩ := exists_resolves hname
    exact ⟨j, hj, hreached.mention hat hwalked hj⟩
  · refine h d hd hretained name hname ⟨hmention, fun f hf hfollowed hmem => ?_⟩
    exact hwalked ⟨f, hf, hfollowed, hmem⟩

section Keep

variable {keep : String → Bool}
  (hkeep : ∀ name ∈ ir.names decls, keep name = true ↔ ir.Supplied decls name)

include hkeep

theorem mem_keeps_iff {d : δ} (hd : d ∈ decls) : ir.keeps keep d = true ↔ ir.Retained decls d := by
  rw [keeps_iff]
  refine forall₂_congr fun f hf => ?_
  exact hkeep _ (mem_names.mpr ⟨d, hd, hasName_iff.mpr ⟨f, hf, rfl⟩⟩)

theorem functionsNamed_filter {name : String} (h : name ∈ ir.names decls → ir.Supplied decls name) :
    ir.functionsNamed (decls.filter (ir.keeps keep)) name = ir.functionsNamed decls name := by
  unfold functionsNamed
  rw [filter_filter]
  refine filter_congr fun d hd => ?_
  rw [Bool.and_eq_left_iff_imp]
  intro hnamed
  have hmem : name ∈ ir.names decls := mem_names.mpr ⟨d, hd, hnamed⟩
  obtain ⟨f, hf, rfl⟩ := hasName_iff.mp hnamed
  rw [keeps_iff]
  intro f' hf'
  rw [hf, Option.some.injEq] at hf'
  subst hf'
  exact (hkeep _ hmem).mpr (h hmem)

/-- Keeping the functions that are met closes the program exactly when it is
covered. -/
theorem closed_filter_iff : ir.Closed decls (decls.filter (ir.keeps keep)) ↔ ir.Covered decls := by
  constructor
  · intro hclosed d hd hretained name hname hoverlooks
    have hkept : d ∈ decls.filter (ir.keeps keep) :=
      mem_filter.mpr ⟨hd, (mem_keeps_iff hkeep hd).mpr hretained⟩
    have hsame := hclosed d hkept name hoverlooks.1
    obtain ⟨d', hd', hnamed⟩ := mem_names.mp hname
    have hmem : d' ∈ ir.functionsNamed decls name := mem_filter.mpr ⟨hd', hnamed⟩
    rw [← hsame] at hmem
    have hkept' := (mem_filter.mp (mem_filter.mp hmem).1).2
    obtain ⟨f, hf, rfl⟩ := hasName_iff.mp hnamed
    exact (hkeep _ hname).mp (keeps_iff.mp hkept' f hf)
  · intro hcovered d hd name hmention
    obtain ⟨hd, hkept⟩ := mem_filter.mp hd
    have hretained := (mem_keeps_iff hkeep hd).mp hkept
    exact functionsNamed_filter hkeep fun hname => hcovered.supplied hd hretained hmention hname

end Keep

end Closure

section Search

/-- The edges are the walked names, and the stack holds the roots. -/
structure Searches (edges : List (List Nat)) (stack : List Nat) : Prop where
  length_eq : edges.length = (ir.names decls).length
  edges_iff : ∀ i j, j ∈ edges.getD i [] ↔ ∃ f name, (ir.functions decls)[i]? = some f ∧
    name ∈ ir.walked f ∧ Resolves (ir.names decls) name j
  stack_iff : ∀ i, i ∈ stack ↔ (∃ name ∈ ir.rootNames, Resolves (ir.names decls) name i) ∨
    ∃ name, (ir.names decls)[i]? = some name ∧ ir.indirect name = true

variable {ir decls}

variable {stack : List Nat}

theorem Searches.mem_reachable {edges : List (List Nat)}
    (h : ir.Searches decls edges stack) (i : Nat) :
    i ∈ reachable edges stack ↔ ir.Reached decls i := by
  have hresolves : ∀ name j, Resolves (ir.names decls) name j → j ∈ List.range edges.length := by
    intro name j hj
    rw [List.mem_range, h.length_eq]
    exact hj.lt
  have hroots : ∀ r ∈ stack.reverse, r ∈ List.range edges.length := by
    intro r hr
    rcases (h.stack_iff r).mp (mem_reverse.mp hr) with ⟨name, -, hname⟩ | ⟨name, hat, -⟩
    · exact hresolves name r hname
    · rw [List.mem_range, h.length_eq]
      exact (List.getElem?_eq_some_iff.mp hat).1
  have hnext : ∀ a ∈ List.range edges.length, ∀ b ∈ edges.getD a [],
      b ∈ List.range edges.length := by
    intro a _ b hb
    obtain ⟨f, name, -, -, hname⟩ := (h.edges_iff a b).mp hb
    exact hresolves name b hname
  unfold reachable
  rw [Worklist.mem_search nodup_range hroots hnext]
  constructor
  · rintro ⟨r, hr, hreach⟩
    induction hreach with
    | refl =>
      rcases (h.stack_iff r).mp (mem_reverse.mp hr) with ⟨name, hroot, hname⟩ | ⟨name, hat, hi⟩
      · exact .root hroot hname
      · exact .indirect hat hi
    | tail _ hedge ih =>
      obtain ⟨f, name, hat, hwalked, hname⟩ := (h.edges_iff _ _).mp hedge
      exact ih.mention hat hwalked hname
  · intro hreached
    induction hreached with
    | root hroot hname =>
      exact ⟨_, mem_reverse.mpr ((h.stack_iff _).mpr (Or.inl ⟨_, hroot, hname⟩)), .refl⟩
    | indirect hat hi =>
      exact ⟨_, mem_reverse.mpr ((h.stack_iff _).mpr (Or.inr ⟨_, hat, hi⟩)), .refl⟩
    | mention _ hat hwalked hname ih =>
      obtain ⟨r, hr, hreach⟩ := ih
      exact ⟨r, hr, hreach.tail ((h.edges_iff _ _).mpr ⟨_, _, hat, hwalked, hname⟩)⟩

/-- The edges that a walk of every function gives, and the stack of the roots. -/
theorem searches_of_walk {walk : φ → List Nat} {helpers : List String} {mainIndex : Nat}
    (hroots : ir.rootNames = "main" :: helpers)
    (hmain : (indexByName (ir.names decls)).lookup "main" = some mainIndex)
    (hwalk : ∀ f j, j ∈ walk f ↔
      ∃ name ∈ ir.walked f, (indexByName (ir.names decls)).lookup name = some j)
    (hstack : ∀ i, i ∈ stack ↔ i ∈ rootStack (indexByName (ir.names decls)) mainIndex helpers ∨
        ∃ name, (ir.names decls)[i]? = some name ∧ ir.indirect name = true) :
    ir.Searches decls ((ir.functions decls).map walk) stack := by
  refine ⟨by simp [names], fun i j => ?_, fun i => ?_⟩
  · rw [getD_eq_getElem?_getD, getElem?_map]
    cases (ir.functions decls)[i]? with
    | none => simp
    | some f => simp [hwalk, lookup_indexByName]
  · rw [hstack, hroots]
    simp only [rootStack, mem_cons, mem_filterMap, lookup_indexByName, exists_eq_or_imp]
    rw [← lookup_indexByName, hmain, Option.some.injEq, eq_comm]

/-- A name is supplied when the position it stands for is marked. -/
theorem Searches.supplied_iff {edges : List (List Nat)}
    (h : ir.Searches decls edges stack) {name : String} {i : Nat}
    (hlookup : (indexByName (ir.names decls)).lookup name = some i) :
    i ∈ reachable edges stack ↔ ir.Supplied decls name := by
  rw [h.mem_reachable]
  constructor
  · intro hreached
    exact ⟨i, (lookup_indexByName _ _ _).mp hlookup, hreached⟩
  · rintro ⟨j, hresolves, hreached⟩
    rw [(lookup_indexByName _ _ _).mpr hresolves, Option.some.injEq] at hlookup
    exact hlookup ▸ hreached

/-- Without indirect roots every function met is the one its name stands for. -/
theorem Reached.resolves (h : ∀ name, ir.indirect name = false) {i : Nat}
    (hreached : ir.Reached decls i) {name : String} (hat : (ir.names decls)[i]? = some name) :
    Resolves (ir.names decls) name i := by
  have hself : ∃ self, Resolves (ir.names decls) self i := by
    cases hreached with
    | root _ hname | mention _ _ _ hname => exact ⟨_, hname⟩
    | indirect _ hindirect => exact absurd hindirect (by simp [h])
  obtain ⟨self, hself⟩ := hself
  have heq : some self = some name := hself.1.symm.trans hat
  cases heq
  exact hself

theorem lookup_main (hmain : "main" ∈ ir.names decls) :
    ∃ mainIndex, (indexByName (ir.names decls)).lookup "main" = some mainIndex := by
  obtain ⟨i, hi⟩ := exists_resolves hmain
  exact ⟨i, (lookup_indexByName _ _ _).mpr hi⟩

/-- A program whose only function is `main` loses nothing. -/
theorem covered_of_single (hmain : "main" ∈ ir.names decls) (hroot : "main" ∈ ir.rootNames)
    (hone : (ir.names decls).length ≤ 1) : ir.Covered decls := by
  intro d _ _ name hname _
  have hsupplied : ir.Supplied decls "main" := supplied_of_root hroot hmain
  obtain ⟨only, honly⟩ := length_eq_one_iff.mp
    (Nat.le_antisymm hone (length_pos_of_mem hmain))
  rw [honly, mem_singleton] at hname hmain
  rwa [hname, ← hmain]

/-- Nothing is lost either when `main` mentions every function. -/
theorem covered_of_main_mentions_all (hroot : "main" ∈ ir.rootNames) {i : Nat} {f : φ}
    (hmain : Resolves (ir.names decls) "main" i) (hat : (ir.functions decls)[i]? = some f)
    (hall : ∀ name ∈ ir.names decls, name ∈ "main" :: ir.walked f) : ir.Covered decls := by
  intro d _ _ name hname _
  rcases mem_cons.mp (hall name hname) with rfl | hwalked
  · exact supplied_of_root hroot hname
  · obtain ⟨j, hj⟩ := exists_resolves hname
    exact ⟨j, hj, (Reached.root hroot hmain).mention hat hwalked hj⟩

end Search

end Ir

end Sengoo.Sgc
