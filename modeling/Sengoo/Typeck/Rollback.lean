import Sengoo.Typeck.Unify

/-!
What a failed unification leaves behind. The loops over components keep the
substitution before each component and put it back when that one fails, so
nothing of the failing component survives; the components before it keep their
bindings, and only the outermost loop decides how much that is.
-/

namespace Sengoo.Typeck

open Fuel

namespace TypeInfer

/-- The pairs of components the outermost loop of a call goes through. -/
inductive Outermost (infer : TypeInfer) : Ty → Ty → List (Ty × Ty) → Prop where
  | here {ty1 ty2 found1 found2 : Ty} {pairs : List (Ty × Ty)} :
      infer.AppliesTo ty1 found1 → infer.AppliesTo ty2 found2 → found1 ≠ found2 →
      plan found1 found2 = .each pairs → Outermost infer ty1 ty2 pairs
  | inside {ty1 ty2 found1 found2 child1 child2 : Ty} {pairs : List (Ty × Ty)} :
      infer.AppliesTo ty1 found1 → infer.AppliesTo ty2 found2 → found1 ≠ found2 →
      plan found1 found2 = .descend child1 child2 → Outermost infer child1 child2 pairs →
      Outermost infer ty1 ty2 pairs

/-- The pairs unify one after the other. -/
inductive UnifiesAll : TypeInfer → List (Ty × Ty) → TypeInfer → Prop where
  | nil (infer : TypeInfer) : UnifiesAll infer [] infer
  | cons {infer between after : TypeInfer} {ty1 ty2 : Ty} {rest : List (Ty × Ty)} :
      infer.Unifies ty1 ty2 (.ok ()) between → UnifiesAll between rest after →
      UnifiesAll infer ((ty1, ty2) :: rest) after

/-- A loop that fails does so at one component, and leaves the substitution
the components before that one made. -/
theorem unifyEach_error {fuel : Nat} {infer after : TypeInfer} {pairs : List (Ty × Ty)}
    {error : InferError}
    (h : unifyEach (unifyInPlace fuel) infer pairs = some (.error error, after)) :
    ∃ done ty1 ty2 rest between failed, pairs = done ++ (ty1, ty2) :: rest ∧
      UnifiesAll infer done between ∧ between.Unifies ty1 ty2 (.error error) failed ∧
      after.subst = between.subst := by
  induction pairs generalizing infer with
  | nil => cases h
  | cons pair rest ih =>
    obtain ⟨ty1, ty2⟩ := pair
    rcases unifyEach_cons h with ⟨error', failed, hfail, hafter⟩ | ⟨between, hok, hrest⟩
    · cases hafter
      exact ⟨[], ty1, ty2, rest, infer, failed, rfl, .nil infer, unifies_of_some hfail, rfl⟩
    · obtain ⟨done, fail1, fail2, others, last, failed, rfl, hdone, hfail, hsubst⟩ := ih hrest
      exact ⟨(ty1, ty2) :: done, fail1, fail2, others, last, failed, rfl,
        .cons (unifies_of_some hok) hdone, hfail, hsubst⟩

theorem unifyInPlace_error {fuel : Nat} {infer after : TypeInfer} {ty1 ty2 : Ty}
    {error : InferError}
    (h : unifyInPlace fuel infer ty1 ty2 = some (.error error, after)) :
    after.subst = infer.subst ∨ ∃ done fail1 fail2 rest between failed,
        infer.Outermost ty1 ty2 (done ++ (fail1, fail2) :: rest) ∧
        UnifiesAll infer done between ∧ between.Unifies fail1 fail2 (.error error) failed ∧
        after.subst = between.subst := by
  induction fuel generalizing ty1 ty2 with
  | zero => cases h
  | succ fuel ih =>
    obtain ⟨found1, found2, hfound1, hfound2, hcases⟩ := unifyInPlace_succ h
    have happlies1 := applies_of_some hfound1
    have happlies2 := applies_of_some hfound2
    rcases hcases with ⟨-, houtcome⟩ | ⟨hdiffer, hplan⟩
    · cases houtcome
    · generalize hdecision : plan found1 found2 = decision at hplan
      cases decision with
      | accept | bind => cases hplan
      | reject error' =>
        cases hplan
        exact .inl rfl
      | descend child1 child2 =>
        rcases ih hplan with hsame | ⟨done, fail1, fail2, rest, between, failed, houter, hrest⟩
        · exact .inl hsame
        · exact .inr ⟨done, fail1, fail2, rest, between, failed,
            .inside happlies1 happlies2 hdiffer hdecision houter, hrest⟩
      | each pairs =>
        obtain ⟨done, fail1, fail2, rest, between, failed, rfl, hdone, hfail, hsubst⟩ :=
          unifyEach_error hplan
        exact .inr ⟨done, fail1, fail2, rest, between, failed,
          .here happlies1 happlies2 hdiffer hdecision, hdone, hfail, hsubst⟩

/-- A failed call leaves the substitution as it was, or as the components
before the failing one in the outermost loop made it; the failing component
itself leaves nothing. -/
theorem failed_unify_leaves {infer after : TypeInfer} {ty1 ty2 : Ty} {error : InferError}
    (hreach : Reachable infer) (h : infer.Unifies ty1 ty2 (.error error) after) :
    infer.Later after ∧
    (after.subst = infer.subst ∨
      ∃ done fail1 fail2 rest between failed,
        infer.Outermost ty1 ty2 (done ++ (fail1, fail2) :: rest) ∧
        UnifiesAll infer done between ∧ between.Unifies fail1 fail2 (.error error) failed ∧
        after.subst = between.subst) := by
  obtain ⟨fuel, hreturns⟩ := h.at_bound
  exact ⟨later_unifyInPlace hreach.valid hreturns, unifyInPlace_error hreturns⟩

theorem unifies_tuple : empty.Unifies (.mk 0 (.tuple [.mk 0 (.var 0), .mk 0 (.var 0)]))
    (.mk 0 (.tuple [.mk 0 (.int .i32), .mk 0 .bool]))
    (.error (.typeMismatch .bool (.int .i32))) (empty.bindVar 0 (.mk 0 (.int .i32))) :=
  .of_rounds 4 fun _ => rfl

/-- A tuple fails at its second component and keeps the binding of the first. -/
theorem failed_tuple_keeps_binding :
    ∃ after, empty.Unifies (.mk 0 (.tuple [.mk 0 (.var 0), .mk 0 (.var 0)]))
        (.mk 0 (.tuple [.mk 0 (.int .i32), .mk 0 .bool]))
        (.error (.typeMismatch .bool (.int .i32))) after ∧
      empty.get 0 = none ∧ after.get 0 = some (.mk 0 (.int .i32)) := by
  exact ⟨_, unifies_tuple, rfl, rfl⟩

theorem failed_unify_leaves_tuple :
    (empty.bindVar 0 (.mk 0 (.int .i32))).subst = empty.subst ∨
      ∃ done fail1 fail2 rest between failed,
        empty.Outermost (.mk 0 (.tuple [.mk 0 (.var 0), .mk 0 (.var 0)]))
          (.mk 0 (.tuple [.mk 0 (.int .i32), .mk 0 .bool])) (done ++ (fail1, fail2) :: rest) ∧
        UnifiesAll empty done between ∧
        between.Unifies fail1 fail2 (.error (.typeMismatch .bool (.int .i32))) failed ∧
        (empty.bindVar 0 (.mk 0 (.int .i32))).subst = between.subst :=
  (failed_unify_leaves reachable_empty unifies_tuple).2

end TypeInfer

end Sengoo.Typeck
