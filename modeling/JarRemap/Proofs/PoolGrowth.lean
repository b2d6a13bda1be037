import JarRemap.Proofs.PoolInvariant

/-!
# Operations that only add names

Once the constants are remapped, the pool can only grow: every other part of a class asks for texts and
pairs. Growing is closed under sequence, choice and repetition, so the property follows from the two operations
that put a text or a pair.
-/
namespace JarRemap

variable {α β : Type}

namespace PoolM

variable {act : α → PoolM β}

/-- Whenever the operation succeeds, it has only added names to the pool. -/
def Grows (act : PoolM α) : Prop :=
  ∀ pool result after, act.Gives pool result after → pool.Grown after

namespace Grows

theorem pure (value : α) : Grows (Pure.pure value) := by
  intro pool result after given
  obtain ⟨-, rfl⟩ := gives_pure.mp given
  exact .refl _

theorem fail (cause : Cause) : Grows (fail cause : PoolM α) :=
  fun _ _ _ given => absurd given not_gives_fail

theorem get : Grows MonadState.get := by
  intro pool result after given
  obtain ⟨-, rfl⟩ := gives_get.mp given
  exact .refl _

theorem lift (outcome : Outcome α) : Grows (liftM outcome) := by
  intro pool result after given
  obtain ⟨-, rfl⟩ := gives_lift.mp given
  exact .refl _

theorem bind {first : PoolM α} {next : α → PoolM β} (grows : first.Grows)
    (then_grows : ∀ value, (next value).Grows) : (first >>= next).Grows := by
  intro pool result after given
  obtain ⟨middle, between, start, finish⟩ := gives_bind.mp given
  exact (grows _ _ _ start).trans (then_grows middle _ _ _ finish)

theorem within {act : PoolM α} (context : Context) (grows : act.Grows) : (within context act).Grows :=
  fun _ _ _ given => grows _ _ _ (gives_within.mp given)

theorem mapM (grows : ∀ value, (act value).Grows) (values : List α) : (values.mapM act).Grows := by
  induction values with
  | nil => exact .pure []
  | cons first others ih =>
    rw [List.mapM_cons]
    exact .bind (grows first) fun _ => .bind ih fun _ => .pure _

end Grows

theorem mapM_runs {pool after : ConstantPool} (grows : ∀ value, (act value).Grows) {values : List α}
    {results : List β} (given : (values.mapM act).Gives pool results after) :
    List.Forall₂ (fun value result => ∃ start finish, pool.Grown start ∧
      (act value).Gives start result finish ∧ finish.Grown after) values results := by
  induction values generalizing pool results with
  | nil =>
    obtain ⟨rfl, -⟩ := gives_pure.mp given
    exact .nil
  | cons value values ih =>
    simp only [List.mapM_cons, gives_bind, gives_pure] at given
    obtain ⟨result, between, first, results, _, others, rfl, rfl⟩ := given
    have started : pool.Grown between := grows value _ _ _ first
    refine .cons ⟨pool, between, .refl pool, first, Grows.mapM grows values _ _ _ others⟩ ?_
    refine (ih others).imp ?_
    rintro value result ⟨start, finish, grown, run, rest⟩
    exact ⟨start, finish, started.trans grown, run, rest⟩

end PoolM

namespace ConstantPool

theorem putText_grows (text : String) : (putText text).Grows := fun _ _ _ given => put_grown rfl given

theorem putNameAndType_grows (name descriptor : String) : (putNameAndType name descriptor).Grows :=
  .bind (putText_grows name) fun _ => .bind (putText_grows descriptor) fun _ _ _ _ given =>
    put_grown rfl given

end ConstantPool

namespace RemapScope

open ConstantPool

variable (scope : RemapScope)

theorem keepText_grows (index : UInt16) (new : String) : (scope.keepText index new).Grows := by
  refine .bind (.lift _) fun old => ?_
  split
  · exact .pure _
  · exact putText_grows new

theorem keepNameAndType_grows (index : UInt16) (name descriptor : String) :
    (scope.keepNameAndType index name descriptor).Grows := by
  refine .bind (.lift _) fun ⟨oldName, oldDescriptor⟩ => ?_
  simp only
  split
  · exact .pure _
  · exact putNameAndType_grows name descriptor

theorem mapLocalName_grows (index number : UInt16) : (scope.mapLocalName index number).Grows := by
  unfold mapLocalName
  split
  · exact .pure _
  · refine .bind (.lift _) fun _ => ?_
    split
    · exact .pure _
    · exact scope.keepText_grows _ _

theorem mapSimpleName_grows (innerIndex outerIndex nameIndex : UInt16) :
    (scope.mapSimpleName innerIndex outerIndex nameIndex).Grows := by
  unfold mapSimpleName
  split
  · exact .pure _
  · refine .bind (.lift _) fun oldInner => .bind .get fun pool => .bind (.lift _) fun newInner => ?_
    split
    · exact .pure _
    · refine .bind (.lift _) fun _ => .bind (.lift _) fun _ => .bind (.lift _) fun _ => ?_
      split
      · exact .pure _
      · exact scope.keepText_grows _ _

end RemapScope

end JarRemap
