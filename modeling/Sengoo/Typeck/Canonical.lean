import Sengoo.History
import Sengoo.Typeck.Interner

/-!
The interner over a whole session: however its calls are interleaved, a handle
stands for one type without its tags, and such a type has one handle.
-/

namespace Sengoo.Typeck.TyInterner

open History

variable {interner s t : TyInterner}

/-! ### Handles of one type -/

/-- A type has one handle at most. -/
def Single (interner : TyInterner) (ty : Ty) : Prop :=
  ∀ id id', interner.materialize id = some ty → interner.materialize id' = some ty → id = id'

theorem Materializes.unique {ids ids' : List InternedTyId} {types : List Ty}
    (h : Materializes interner ids types) (h' : Materializes interner ids' types)
    (hsingle : ∀ ty ∈ types, Single interner ty) : ids = ids' := by
  induction h generalizing ids' with
  | nil =>
    cases h'
    rfl
  | cons hid _ ih =>
    cases h' with
    | cons hid' hids' =>
      obtain ⟨hhead, htail⟩ := List.forall_mem_cons.mp hsingle
      rw [hhead _ _ hid hid', ih hids' htail]

/-- What a handle is materialized from. -/
theorem WellFormed.kind_of_materialize (h : WellFormed interner) {id : InternedTyId} {ty : Ty}
    (hid : interner.materialize id = some ty) :
    ∃ kind, interner.lookup kind = some id ∧ kind.outline = ty.kind.outline ∧
      Materializes interner kind.children ty.kind.children := by
  obtain ⟨kind, hkind⟩ := exists_kindAt hid
  rw [materialize, materializeIn_of_kindAt hkind (h.older id kind hkind)] at hid
  obtain ⟨filled, hfilled, rfl⟩ := Option.map_eq_some_iff.mp hid
  obtain ⟨houtline, hchildren⟩ := TyKind.mapM_eq_some.mp hfilled
  exact ⟨kind, (h.inverse kind id).mpr hkind, houtline.symm, hchildren⟩

theorem WellFormed.single (h : WellFormed interner) (ty : Ty) : Single interner ty := by
  induction ty using Ty.induct with
  | mk tag kind ih =>
    intro id id' hid hid'
    obtain ⟨first, hfirst, houtline, hchildren⟩ := h.kind_of_materialize hid
    obtain ⟨second, hsecond, houtline', hchildren'⟩ := h.kind_of_materialize hid'
    have hsame : first = second :=
      TyKind.ext (houtline.trans houtline'.symm) (hchildren.unique hchildren' ih)
    rw [hsame, hsecond] at hfirst
    exact (Option.some.inj hfirst).symm

/-! ### Sessions -/

inductive Call where
  | intern (kind : InternedTyKind)
  | internTy (ty : Ty)

def Call.exec : Call → StateM TyInterner InternedTyId
  | .intern kind => TyInterner.intern kind
  | .internTy ty => TyInterner.internTy ty

/-- The handles a call names are those of this interner. -/
def Call.Owned (interner : TyInterner) : Call → Prop
  | .intern kind => ∀ child ∈ kind.children, child < interner.arena.length
  | .internTy _ => True

def Step (s : TyInterner) (call : Call) (t : TyInterner) : Prop :=
  call.Owned s ∧ (call.exec s).2 = t

theorem step_spec {call : Call} (h : WellFormed s) (hstep : Step s call t) :
    WellFormed t ∧ Grows s t := by
  obtain ⟨howned, rfl⟩ := hstep
  cases call with
  | intern kind => exact ⟨wellFormed_intern h howned, grows_intern kind s⟩
  | internTy ty =>
    have hinterned := internTy_spec h ty
    exact ⟨hinterned.wellFormed, hinterned.grows⟩

theorem run_spec {calls : List Call} (h : WellFormed s) (hrun : Run Step s calls t) :
    WellFormed t ∧ Grows s t := by
  refine hrun.invariant (P := fun _ t => WellFormed t ∧ Grows s t) ⟨h, .refl s⟩ ?_
  rintro _ t call u - ⟨hwellFormed, hgrows⟩ hstep
  obtain ⟨hwellFormed', hgrows'⟩ := step_spec hwellFormed hstep
  exact ⟨hwellFormed', hgrows.trans hgrows'⟩

/-- In every session the arena and the table are inverse and kinds refer to older
ones, so that a handle is read back from its kind by reading back the components.
The handle of a type is read back as the type for the rest of the session, and later
types get the same handle if and only if they differ in tags alone. -/
theorem interner_canonical (calls : List Call) (s : TyInterner) (hrun : Run Step new calls s) :
    WellFormed s ∧ (∀ id kind, kindAt s.arena id = some kind →
      s.materialize id = (kind.mapM s.materialize).map (Ty.mk 0)) ∧ ∀ first more t, Run Step (internTy first s).2 more t →
      t.materialize (internTy first s).1 = some first.erase ∧
      ∀ second, (internTy first s).1 = (internTy second t).1 ↔ first.erase = second.erase := by
  obtain ⟨hwellFormed, -⟩ := run_spec wellFormed_new hrun
  refine ⟨hwellFormed, fun id kind hkind => materializeIn_of_kindAt hkind
    (hwellFormed.older id kind hkind), fun first more t hmore => ?_⟩
  have hfirst := internTy_spec hwellFormed first
  obtain ⟨hlater, hgrows⟩ := run_spec hfirst.wellFormed hmore
  have hkept := hgrows.materialize hfirst.materialize
  refine ⟨hkept, fun second => ?_⟩
  have hsecond := internTy_spec hlater second
  have hread := hsecond.grows.materialize hkept
  constructor
  · intro hid
    rw [hid, hsecond.materialize] at hread
    exact (Option.some.inj hread).symm
  · intro herase
    rw [herase] at hread
    exact hsecond.wellFormed.single _ _ _ hread hsecond.materialize

/-- A type with a tag, and then a slice of it by its handle. -/
theorem interner_canonical_slice :
    ∃ s, Run Step new [.internTy (.mk 7 .bool), .intern (.slice 0)] s ∧ WellFormed s ∧
      s.materialize 1 = ((TyKind.slice 0).mapM s.materialize).map (Ty.mk 0) ∧
      (internTy (.mk 3 (.slice (.mk 4 .bool))) s).1 = 1 := by
  have hfirst : Run Step new [.internTy (.mk 7 .bool)] _ := .snoc (.nil new) ⟨trivial, rfl⟩
  have howned : (Call.intern (.slice 0)).Owned (internTy (.mk 7 .bool) new).2 :=
    List.forall_mem_singleton.mpr Nat.one_pos
  have hrun := hfirst.snoc ⟨howned, rfl⟩
  obtain ⟨hwellFormed, hread, -⟩ := interner_canonical _ _ hrun
  exact ⟨_, hrun, hwellFormed, hread 1 (.slice 0) rfl, rfl⟩

/-- A handle that one interner gave out is taken by another, where the kind then
refers to a handle that is not older. -/
theorem foreign_handle_not_older :
    (intern .bool (intern .unit new).2).1 = 1 ∧ ¬ WellFormed (intern (.slice 1) new).2 ∧
      (intern (.slice 1) new).1 = 0 := by
  refine ⟨rfl, fun h => ?_, rfl⟩
  exact absurd (h.older 0 (.slice 1) rfl 1 (List.mem_singleton_self 1)) (by decide)

end Sengoo.Typeck.TyInterner
