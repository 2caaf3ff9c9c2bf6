import Sengoo.Typeck.Ty

/-!
The session interner: an arena of kinds over handles and a table from kinds
to handles. The arena is kept newest first, so a handle is the number of
kinds behind its own, and what a kind refers to stands behind it.
-/

namespace Sengoo.Typeck

open List

abbrev InternedTyId := Nat

abbrev InternedTyKind := TyKind InternedTyId

structure TyInterner where
  arena : List InternedTyKind
  lookup : InternedTyKind → Option InternedTyId

namespace TyInterner

def new : TyInterner := ⟨[], fun _ => none⟩

variable {arena : List InternedTyKind} {id : InternedTyId}

/-- `intern`: the handle of a kind, which is added when it is not there. -/
def intern (kind : InternedTyKind) : StateM TyInterner InternedTyId := fun interner =>
  match interner.lookup kind with
  | some id => (id, interner)
  | none =>
    let id := interner.arena.length
    (id, ⟨kind :: interner.arena, fun other =>
      if other = kind then some id else interner.lookup other⟩)

/-- `intern_ty` with `lower_kind`; the origin tag is dropped. -/
def internTy : Ty → StateM TyInterner InternedTyId :=
  Ty.fold fun _ kind => do intern (← kind.mapM fun action => action)

/-- `try_lookup` in an arena. -/
def kindAt : List InternedTyKind → InternedTyId → Option InternedTyKind
  | [], _ => none
  | kind :: older, id => if id = older.length then some kind else kindAt older id

/-- `materialize` with `materialize_kind`; a handle the interner does not own
panics in the source. -/
def materializeIn : List InternedTyKind → InternedTyId → Option Ty
  | [], _ => none
  | kind :: older, id =>
    if id = older.length then (kind.mapM (materializeIn older)).map (Ty.mk 0)
    else materializeIn older id

def materialize (interner : TyInterner) (id : InternedTyId) : Option Ty :=
  materializeIn interner.arena id

/-- The table inverts the arena, and kinds refer to older ones only. -/
structure WellFormed (interner : TyInterner) : Prop where
  inverse : ∀ kind id, interner.lookup kind = some id ↔ kindAt interner.arena id = some kind
  older : ∀ id kind, kindAt interner.arena id = some kind → ∀ child ∈ kind.children, child < id

/-- The second interner has further kinds in front. -/
def Grows (first second : TyInterner) : Prop := ∃ more, second.arena = more ++ first.arena

theorem Grows.refl (interner : TyInterner) : Grows interner interner := ⟨[], rfl⟩

theorem Grows.trans {first second third : TyInterner} (h : Grows first second)
    (h' : Grows second third) : Grows first third := by
  obtain ⟨more, hmore⟩ := h
  obtain ⟨more', hmore'⟩ := h'
  exact ⟨more' ++ more, by rw [hmore', hmore, append_assoc]⟩

theorem wellFormed_new : WellFormed new :=
  ⟨fun _ _ => ⟨fun h => (nomatch h), fun h => (nomatch h)⟩, fun _ _ h => (nomatch h)⟩

/-! ### Arenas -/

variable {kind : InternedTyKind}

theorem lt_of_kindAt (h : kindAt arena id = some kind) : id < arena.length := by
  induction arena with
  | nil => cases h
  | cons newest older ih =>
    rw [kindAt] at h
    split at h
    · next hid => rw [hid]; exact Nat.lt_succ_self _
    · exact Nat.lt_succ_of_lt (ih h)

theorem exists_kindAt {ty : Ty} (h : materializeIn arena id = some ty) :
    ∃ kind, kindAt arena id = some kind := by
  induction arena with
  | nil => cases h
  | cons newest older ih =>
    rw [materializeIn] at h
    rw [kindAt]
    split at h
    · next hid => exact ⟨newest, if_pos hid⟩
    · next hid =>
      rw [if_neg hid]
      exact ih h

theorem lt_of_materializeIn {ty : Ty} (h : materializeIn arena id = some ty) :
    id < arena.length := by
  obtain ⟨kind, hkind⟩ := exists_kindAt h
  exact lt_of_kindAt hkind

/-- What stands in front of a kind does not matter to it. -/
theorem materializeIn_append
    (more : List InternedTyKind) (h : id < arena.length) :
    materializeIn (more ++ arena) id = materializeIn arena id := by
  induction more with
  | nil => rfl
  | cons newest more ih =>
    have hne : id ≠ (more ++ arena).length := by
      rw [length_append]
      exact Nat.ne_of_lt (Nat.lt_add_left _ h)
    rw [cons_append, materializeIn, if_neg hne, ih]

theorem Grows.materialize {first second : TyInterner} (h : Grows first second) {ty : Ty}
    (hid : first.materialize id = some ty) :
    second.materialize id = some ty := by
  obtain ⟨more, hmore⟩ := h
  rw [TyInterner.materialize, hmore, materializeIn_append more (lt_of_materializeIn hid)]
  exact hid

theorem mapM_congr {f g : InternedTyId → Option Ty} {ids : List InternedTyId}
    (h : ∀ id ∈ ids, f id = g id) : ids.mapM f = ids.mapM g := by
  induction ids with
  | nil => rfl
  | cons id ids ih =>
    obtain ⟨hid, hids⟩ := forall_mem_cons.mp h
    rw [mapM_cons, mapM_cons, hid, ih hids]

/-- In a well formed interner a kind is materialized from its components. -/
theorem materializeIn_of_kindAt
    (h : kindAt arena id = some kind)
    (holder : ∀ child ∈ kind.children, child < id) :
    materializeIn arena id = (kind.mapM (materializeIn arena)).map (Ty.mk 0) := by
  induction arena with
  | nil => cases h
  | cons newest older ih =>
    have hmapM {behind : List InternedTyKind} (hid : id ≤ behind.length) :
        kind.mapM (materializeIn (newest :: behind)) = kind.mapM (materializeIn behind) := by
      have hchildren : kind.children.mapM (materializeIn (newest :: behind)) =
          kind.children.mapM (materializeIn behind) := by
        refine mapM_congr fun child hchild => ?_
        exact materializeIn_append [newest] (Nat.lt_of_lt_of_le (holder child hchild) hid)
      rw [TyKind.mapM_eq, TyKind.mapM_eq, hchildren]
    rw [kindAt] at h
    split at h
    · next hid =>
        cases h
        rw [materializeIn, if_pos hid, hmapM (Nat.le_of_eq hid)]
    · next hid =>
        rw [materializeIn, if_neg hid, hmapM (Nat.le_of_lt (lt_of_kindAt h))]
        exact ih h

/-! ### Interning -/

section

variable {interner : TyInterner}

/-- The components of a kind are materialized as given. -/
def Materializes (interner : TyInterner) (ids : List InternedTyId) (types : List Ty) : Prop :=
  List.Forall₂ (fun id ty => interner.materialize id = some ty) ids types

variable {ids : List InternedTyId} {types : List Ty}

theorem Materializes.lt
    (h : Materializes interner ids types) : ∀ id ∈ ids, id < interner.arena.length := by
  induction h with
  | nil => simp
  | cons hhead _ ih => exact forall_mem_cons.mpr ⟨lt_of_materializeIn hhead, ih⟩

theorem Grows.materializes {first second : TyInterner} (h : Grows first second)
    (hids : Materializes first ids types) :
    Materializes second ids types :=
  List.Forall₂.imp (fun _ _ hid => h.materialize hid) hids

/-- What a call on the interner leaves behind: a well formed interner that
has grown and owns the handle. -/
structure Interned (interner : TyInterner) (result : InternedTyId × TyInterner) (ty : Ty) :
    Prop where
  wellFormed : WellFormed result.2
  grows : Grows interner result.2
  materialize : result.2.materialize result.1 = some ty

theorem wellFormed_intern (h : WellFormed interner)
    (hchildren : ∀ child ∈ kind.children, child < interner.arena.length) :
    WellFormed (intern kind interner).2 := by
  unfold intern
  cases hlookup : interner.lookup kind with
  | some id => exact h
  | none =>
    refine ⟨fun other id => ?_, fun id other hother => ?_⟩
    · have hother := h.inverse other id
      simp only [kindAt]
      by_cases hid : id = interner.arena.length
      · have hnone : kindAt interner.arena id ≠ some other :=
          fun hat => absurd (lt_of_kindAt hat) (Nat.not_lt_of_ge (Nat.le_of_eq hid.symm))
        rw [if_pos hid]
        constructor
        · intro hsome
          by_cases heq : other = kind
          · rw [heq]
          · rw [if_neg heq] at hsome
            exact absurd (hother.mp hsome) hnone
        · intro hsome
          rw [if_pos (Option.some.inj hsome).symm, hid]
      · rw [if_neg hid]
        by_cases heq : other = kind
        · subst heq
          rw [if_pos rfl]
          constructor
          · intro hsome
            exact absurd (Option.some.inj hsome).symm hid
          · intro hat
            rw [hother.mpr hat] at hlookup
            cases hlookup
        · rw [if_neg heq]
          exact hother
    · simp only [kindAt] at hother
      split at hother
      · next hid =>
          cases hother
          rw [hid]
          exact hchildren
      · exact h.older id other hother

theorem grows_intern (kind : InternedTyKind) (interner : TyInterner) :
    Grows interner (intern kind interner).2 := by
  unfold intern
  split
  · exact .refl interner
  · exact ⟨[kind], rfl⟩

theorem intern_spec (h : WellFormed interner)
    (hchildren : Materializes interner kind.children types) :
    ∃ filled, kind.outline.fill types = some filled ∧
      Interned interner (intern kind interner) (.mk 0 filled) := by
  have hlength : types.length = kind.outline.children.length := by
    rw [TyKind.length_children_outline]
    exact (List.Forall₂.length_eq hchildren).symm
  obtain ⟨filled, hfilled, houtline, hfills⟩ := TyKind.fill_spec hlength
  have hwellFormed := wellFormed_intern h hchildren.lt
  have hgrows := grows_intern kind interner
  have hat : kindAt (intern kind interner).2.arena (intern kind interner).1 = some kind := by
    unfold intern
    cases hlookup : interner.lookup kind with
    | some id => exact (h.inverse kind id).mp hlookup
    | none => exact if_pos rfl
  refine ⟨filled, hfilled, hwellFormed, hgrows, ?_⟩
  rw [← hfills] at hchildren
  rw [materialize, materializeIn_of_kindAt hat (hwellFormed.older _ _ hat)]
  exact congrArg (Option.map (Ty.mk 0))
    (TyKind.mapM_eq_some.mpr ⟨houtline, hgrows.materializes hchildren⟩)

/-- Interning a list, one type after the other. -/
theorem internAll_spec (h : WellFormed interner)
    (hall : ∀ ty ∈ types, ∀ interner, WellFormed interner →
      Interned interner (internTy ty interner) ty.erase) :
    WellFormed (types.mapM internTy interner).2 ∧ Grows interner (types.mapM internTy interner).2 ∧
      Materializes (types.mapM internTy interner).2 (types.mapM internTy interner).1
        (types.map Ty.erase) := by
  induction types generalizing interner with
  | nil => exact ⟨h, .refl interner, .nil⟩
  | cons ty types ih =>
    obtain ⟨hty, htypes⟩ := forall_mem_cons.mp hall
    have hfirst := hty interner h
    obtain ⟨hwellFormed, hgrows, hmaterializes⟩ := ih hfirst.wellFormed htypes
    rw [mapM_cons]
    exact ⟨hwellFormed, hfirst.grows.trans hgrows,
      .cons (hgrows.materialize hfirst.materialize) hmaterializes⟩

/-- The components of a type are interned first. -/
theorem internTy_mk (id : TyId) (kind : TyKind Ty) (interner : TyInterner) :
    internTy (.mk id kind) interner =
      intern ((kind.outline.fill (kind.children.mapM internTy interner).1).getD .error)
        (kind.children.mapM internTy interner).2 := by
  have hcomponents : (kind.map internTy).children.mapM (fun action => action) = kind.children.mapM internTy := by
    rw [TyKind.children_map, mapM_map]
    rfl
  rw [internTy, Ty.fold_mk, TyKind.mapM_eq]
  change (do
    let components ← (kind.map internTy).children.mapM (fun action => action)
    intern (((kind.map internTy).outline.fill components).getD .error)) interner = _
  rw [hcomponents, TyKind.outline_map]
  rfl

/-- A type read back from its handle is the type without its tags. -/
theorem internTy_spec (h : WellFormed interner) (ty : Ty) :
    Interned interner (internTy ty interner) ty.erase := by
  induction ty using Ty.induct generalizing interner with
  | mk id kind ih =>
    obtain ⟨hwellFormed, hgrows, hmaterializes⟩ :=
      internAll_spec h fun ty hty interner hinterner => ih ty hty hinterner
    have hlength : (kind.children.mapM internTy interner).1.length =
        kind.outline.children.length := by
      rw [TyKind.length_children_outline, List.Forall₂.length_eq hmaterializes, length_map]
    obtain ⟨lowered, hlowered, houtline, hchildren⟩ := TyKind.fill_spec hlength
    rw [← hchildren] at hmaterializes
    obtain ⟨filled, hfilled, hinterned⟩ := intern_spec hwellFormed hmaterializes
    have herase : filled = kind.map Ty.erase := by
      have hself := TyKind.fill_outline (kind.map Ty.erase)
      rw [TyKind.outline_map, TyKind.children_map, ← houtline, hfilled] at hself
      exact Option.some.inj hself
    rw [internTy_mk, hlowered, Ty.erase_mk, ← herase]
    exact ⟨hinterned.wellFormed, hgrows.trans hinterned.grows, hinterned.materialize⟩

end

end TyInterner

end Sengoo.Typeck
