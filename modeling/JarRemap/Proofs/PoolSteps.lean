import JarRemap.Proofs.PoolInvariant

/-!
# What operations do to a pool

Putting a constant and replacing one change the pool at most when they succeed. Every other operation that
changes a pool puts one constant after another; it may stop half way, and what it put before stays. So
whatever any number of successful puts keep is kept by all of these operations, also when they fail.
-/
namespace JarRemap

open ConstantPool

variable {α β : Type} {Holds : ConstantPool → Prop}

namespace ConstantPool

variable {pool after : ConstantPool} {constant : Constant} {index : UInt16} {failure : Failure}

/-- Putting one constant leads from the first pool to the second. -/
def PutsTo (pool after : ConstantPool) : Prop := ∃ constant index, (put constant).Gives pool index after

theorem keeps_of_puts (step : ∀ {pool constant index after}, Holds pool →
      (put constant).Gives pool index after → Holds after)
    (run : Relation.ReflTransGen PutsTo pool after) (start : Holds pool) : Holds after := by
  induction run with
  | refl => exact start
  | tail _ last ih =>
    obtain ⟨constant, index, given⟩ := last
    exact step ih given

theorem put_failed (stopped : put constant pool = (.error failure, after)) : after = pool := by
  unfold put at stopped
  split at stopped
  · cases stopped
  · split at stopped
    · cases stopped
      rfl
    · split at stopped
      · cases stopped
        rfl
      · cases stopped

theorem replace_failed {new : Constant} (stopped : replace index new pool = (.error failure, after)) :
    after = pool := by
  unfold replace at stopped
  split at stopped
  · cases stopped
    rfl
  · cases stopped
    rfl
  · split at stopped
    · cases stopped
      rfl
    · split at stopped <;> cases stopped

end ConstantPool

namespace PoolM

/-- The operation puts some constants and does nothing else to the pool, even when it fails. -/
def Puts (act : PoolM α) : Prop :=
  ∀ pool, Relation.ReflTransGen PutsTo pool (act pool).2

namespace Puts

theorem pure (value : α) : Puts (Pure.pure value) := fun _ => .refl

theorem bind {first : PoolM α} {next : α → PoolM β} (start : first.Puts)
    (finish : ∀ value, (next value).Puts) : (first >>= next).Puts := by
  intro pool
  have between : Relation.ReflTransGen PutsTo pool (first pool).2 := start pool
  change Relation.ReflTransGen _ pool
    (ExceptT.bindCont (m := StateM ConstantPool) next (first pool).1 (first pool).2).2
  cases (first pool).1 with
  | error failure => exact between
  | ok value => exact between.trans (finish value _)

theorem keeps {act : PoolM α} (puts : act.Puts)
    (step : ∀ {pool constant index after}, Holds pool →
      (put constant).Gives pool index after → Holds after)
    (start : Holds pool) : Holds (act pool).2 :=
  keeps_of_puts step (puts pool) start

end Puts

end PoolM

namespace ConstantPool

theorem put_puts (constant : Constant) : (put constant).Puts := by
  intro pool
  rcases ran : put constant pool with ⟨failure | index, after⟩
  · rw [put_failed ran]
  · exact .single ⟨constant, index, ran⟩

theorem putText_puts (text : String) : (putText text).Puts := put_puts _

theorem putClass_puts (name : String) : (putClass name).Puts :=
  .bind (putText_puts name) fun _ => put_puts _

theorem putString_puts (text : String) : (putString text).Puts :=
  .bind (putText_puts text) fun _ => put_puts _

theorem putNameAndType_puts (name descriptor : String) : (putNameAndType name descriptor).Puts :=
  .bind (putText_puts name) fun _ => .bind (putText_puts descriptor) fun _ => put_puts _

theorem putMember_puts (refer : UInt16 → UInt16 → Constant) (owner name descriptor : String) :
    (putMember refer owner name descriptor).Puts :=
  .bind (putClass_puts owner) fun _ => .bind (putNameAndType_puts name descriptor) fun _ => put_puts _

end ConstantPool

end JarRemap
