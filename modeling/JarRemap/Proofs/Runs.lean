import JarRemap.Remap.Class
import Mathlib

/-!
# Successful runs

A computation that succeeds is a chain of computations that succeed. The laws here take such a chain
apart, one for each of the monads: outcomes, readers, operations on a pool and passes through an
attribute. They let a proof follow a run step by step and never open a monad itself.
-/
namespace JarRemap

open Outcome PoolM List

variable {α β : Type} {result value : α} {outcome : Outcome α} {change : α → β} {cause : Cause}
  {context : Context} {act : PoolM α} {reader : Reader α} {failure : Failure}

section lists

open List

variable {γ : Type} {R : α → β → Prop} {firsts : List α} {seconds : List β}

section

variable {place : Nat} {first : α} (related : Forall₂ R firsts seconds) (left : firsts[place]? = some first)
include related left

theorem forall₂_getElem? {second : β} (right : seconds[place]? = some second) : R first second := by
  obtain ⟨inside, rfl⟩ := List.getElem?_eq_some_iff.mp left
  obtain ⟨inside', rfl⟩ := List.getElem?_eq_some_iff.mp right
  exact related.get inside inside'

theorem forall₂_exists_getElem? : ∃ second, seconds[place]? = some second := by
  obtain ⟨inside, -⟩ := List.getElem?_eq_some_iff.mp left
  exact ⟨_, getElem?_eq_getElem (related.length_eq ▸ inside)⟩

end

theorem forall₂_comp {S : β → γ → Prop} {thirds : List γ} (start : Forall₂ R firsts seconds)
    (finish : Forall₂ S seconds thirds) : Forall₂ (Relation.Comp R S) firsts thirds := by
  induction start generalizing thirds with
  | nil =>
    cases finish
    exact .nil
  | cons head _ ih =>
    obtain _ | ⟨next, rest⟩ := finish
    exact .cons ⟨_, head, next⟩ (ih rest)

theorem map_eq_of_forall₂ {first : α → γ} {second : β → γ}
    (same : Forall₂ (fun a b => second b = first a) firsts seconds) : seconds.map second = firsts.map first := by
  induction same with
  | nil => rfl
  | cons head _ ih => rw [map_cons, map_cons, head, ih]

theorem exists_mem_of_forall₂ (related : Forall₂ R firsts seconds) (listed : first ∈ firsts) :
    ∃ second ∈ seconds, R first second := by
  obtain ⟨index, held⟩ := mem_iff_getElem?.mp listed
  obtain ⟨second, heldToo⟩ := forall₂_exists_getElem? related held
  exact ⟨second, mem_of_getElem? heldToo, forall₂_getElem? related held heldToo⟩

theorem exists_forall₂ : (∃ seconds, Forall₂ R firsts seconds) ↔ ∀ first ∈ firsts, ∃ second, R first second := by
  induction firsts with
  | nil => simp
  | cons first firsts ih => simp [forall₂_cons_left_iff, ← ih]

end lists

namespace Outcome

variable {values : List α} {first : Outcome α}

theorem unique (one : outcome = .ok value) (again : outcome = .ok result) : value = result :=
  Except.ok.inj (one.symm.trans again)

@[simp] theorem bind_eq_ok {next : α → Outcome β} {result : β} :
    (first >>= next) = .ok result ↔ ∃ middle, first = .ok middle ∧ next middle = .ok result := by
  cases first <;> simp [bind, Except.bind]

@[simp] theorem map_eq_ok {result : β} :
    (change <$> first) = .ok result ↔ ∃ middle, first = .ok middle ∧ change middle = result := by
  cases first <;> simp [Functor.map, Except.map]

@[simp] theorem pure_eq_ok : (pure value : Outcome α) = .ok result ↔ value = result := by
  simp [pure, Except.pure]

@[simp] theorem fail_ne_ok : (fail cause : Outcome α) ≠ .ok result := by
  simp [fail]

theorem mapM_eq_ok {step : α → Outcome β} {results : List β} : values.mapM step = .ok results ↔
      Forall₂ (fun value result => step value = .ok result) values results := by
  induction values generalizing results with
  | nil => rw [mapM_nil, pure_eq_ok, forall₂_nil_left_iff, eq_comm]
  | cons value values ih =>
    simp only [mapM_cons, bind_eq_ok, pure_eq_ok, ih]
    constructor
    · rintro ⟨result, first, others, rest, rfl⟩
      exact .cons first rest
    · rintro (_ | ⟨first, rest⟩)
      exact ⟨_, first, _, rest, rfl⟩

/-- What every step of a loop carries from the values that are done to one more holds in the end. -/
theorem foldlM_induction {σ : Type} {step : σ → α → Outcome σ} (Holds : List α → σ → Prop)
    (advance : ∀ {done state value next}, Holds done state → step state value = .ok next → Holds (done ++ [value]) next)
    {first last : σ} (start : Holds [] first) (run : values.foldlM step first = .ok last) : Holds values last := by
  suffices loop : ∀ done state, Holds done state → values.foldlM step state = .ok last →
      Holds (done ++ values) last from loop [] first start run
  clear run
  induction values with
  | nil =>
    intro done state holds finished
    obtain rfl := pure_eq_ok.mp finished
    simpa using holds
  | cons value values ih =>
    intro done state holds run
    obtain ⟨next, stepped, rest⟩ := bind_eq_ok.mp run
    simpa using ih (done ++ [value]) next (advance holds stepped) rest

theorem exists_foldlM {σ : Type} {step : σ → α → Outcome σ}
    (steps : ∀ value ∈ values, ∀ state, ∃ next, step state value = .ok next) (first : σ) :
    ∃ last, values.foldlM step first = .ok last := by
  induction values generalizing first with
  | nil => exact ⟨first, rfl⟩
  | cons value values ih =>
    obtain ⟨here, others⟩ := forall_mem_cons.mp steps
    obtain ⟨next, stepped⟩ := here first
    obtain ⟨last, rest⟩ := ih others next
    exact ⟨last, bind_eq_ok.mpr ⟨next, stepped, rest⟩⟩

theorem exists_of_isOk (isOk : outcome.isOk) : ∃ result, outcome = .ok result := by
  cases outcome with
  | error failure => cases isOk
  | ok result => exact ⟨result, rfl⟩

@[simp] theorem within_eq_ok : within context outcome = .ok result ↔ outcome = .ok result := by
  cases outcome <;> simp [within]

end Outcome

namespace Reader

variable {input rest : Bytes} {first : Reader α} {next : α → Reader β}

@[simp] theorem bind_eq_ok {result : β} : (first >>= next) input = .ok (result, rest) ↔
      ∃ middle left, first input = .ok (middle, left) ∧ next middle left = .ok (result, rest) := by
  change (first input >>= fun taken => next taken.1 taken.2) = _ ↔ _
  simp

theorem bind_of_ok (taken : first input = .ok (value, rest)) : (first >>= next) input = next value rest := by
  change (first input >>= fun taken => next taken.1 taken.2) = _
  rw [taken]
  rfl

theorem bind_of_error (stopped : first input = .error failure) : (first >>= next) input = .error failure := by
  change (first input >>= fun taken => next taken.1 taken.2) = _
  rw [stopped]
  rfl

@[simp] theorem map_eq_ok {result : β} : (change <$> first) input = .ok (result, rest) ↔
      ∃ middle, first input = .ok (middle, rest) ∧ change middle = result := by
  change (first input >>= fun taken => pure (change taken.1, taken.2)) = _ ↔ _
  simp only [Outcome.bind_eq_ok, Outcome.pure_eq_ok, Prod.mk.injEq, Prod.exists]
  constructor
  · rintro ⟨middle, left, taken, changed, rfl⟩
    exact ⟨middle, taken, changed⟩
  · rintro ⟨middle, taken, changed⟩
    exact ⟨middle, rest, taken, changed, rfl⟩

@[simp] theorem pure_eq_ok : (pure value : Reader α) input = .ok (result, rest) ↔ value = result ∧ input = rest := by
  change (pure (value, input) : Outcome _) = _ ↔ _
  simp

@[simp] theorem get_eq_ok {result : Bytes} :
    (get : Reader Bytes) input = .ok (result, rest) ↔ input = result ∧ input = rest := by
  change (pure (input, input) : Outcome _) = _ ↔ _
  simp

@[simp] theorem fail_ne_ok {result : α × Bytes} : (fail cause : Reader α) input ≠ .ok result := by
  simp [fail]

@[simp] theorem within_eq_ok {result : α × Bytes} :
    within context reader input = .ok result ↔ reader input = .ok result := by
  simp [within]

end Reader

namespace PoolM

variable {pool after : ConstantPool} {first : PoolM α}

/-- The operation succeeds on `pool` with `result` and leaves `after`. -/
def Gives (act : PoolM α) (pool : ConstantPool) (result : α) (after : ConstantPool) : Prop :=
  act pool = (.ok result, after)

@[simp] theorem gives_bind {next : α → PoolM β} {result : β} : (first >>= next).Gives pool result after ↔
      ∃ middle between, first.Gives pool middle between ∧ (next middle).Gives between result after := by
  change ExceptT.bindCont (m := StateM ConstantPool) next (first pool).1 (first pool).2 = _ ↔
    ∃ middle between, first pool = (.ok middle, between) ∧ _
  obtain ⟨outcome, between⟩ := first pool
  cases outcome with
  | error failure =>
    constructor
    · intro stopped
      cases stopped
    · rintro ⟨_, _, stopped, _⟩
      cases stopped
  | ok middle =>
    constructor
    · intro continued
      exact ⟨middle, between, rfl, continued⟩
    · rintro ⟨_, _, same, continued⟩
      cases same
      exact continued

@[simp] theorem gives_pure : (pure value : PoolM α).Gives pool result after ↔ value = result ∧ pool = after := by
  change ((.ok value, pool) : Outcome α × ConstantPool) = (.ok result, after) ↔ _
  simp

@[simp] theorem gives_map {result : β} : (change <$> first).Gives pool result after ↔
      ∃ middle, first.Gives pool middle after ∧ change middle = result := by
  rw [← bind_pure_comp, gives_bind]
  simp only [gives_pure]
  constructor
  · rintro ⟨middle, between, given, changed, rfl⟩
    exact ⟨middle, given, changed⟩
  · rintro ⟨middle, given, changed⟩
    exact ⟨middle, after, given, changed, rfl⟩

theorem map_of_error (stopped : act pool = (.error failure, after)) :
    (change <$> act) pool = (.error failure, after) := by
  rw [← bind_pure_comp]
  change ExceptT.bindCont (m := StateM ConstantPool) _ (act pool).1 (act pool).2 = _
  rw [stopped]
  rfl

@[simp] theorem gives_get {result : ConstantPool} :
    (get : PoolM ConstantPool).Gives pool result after ↔ pool = result ∧ pool = after := by
  change ((.ok pool, pool) : Outcome ConstantPool × ConstantPool) = (.ok result, after) ↔ _
  simp

@[simp] theorem gives_ofOutcome :
    (ofOutcome outcome).Gives pool result after ↔ outcome = .ok result ∧ pool = after := by
  change ((outcome, pool) : Outcome α × ConstantPool) = (.ok result, after) ↔ _
  simp

@[simp] theorem gives_lift : (liftM outcome : PoolM α).Gives pool result after ↔ outcome = .ok result ∧ pool = after :=
  gives_ofOutcome

@[simp] theorem not_gives_fail : ¬ (fail cause : PoolM α).Gives pool result after := by
  intro given
  cases given

@[simp] theorem gives_within : (within context act).Gives pool result after ↔ act.Gives pool result after := by
  change ((Outcome.within context (act pool).1, (act pool).2) : Outcome α × ConstantPool) = _ ↔ act pool = _
  obtain ⟨outcome, between⟩ := act pool
  cases outcome with
  | error failure =>
    constructor <;> (intro given; cases given)
  | ok value => exact Iff.rfl

end PoolM

namespace AttributeM

variable {input rest : Bytes} {pool after : ConstantPool}

@[simp] theorem gives_bind {first : AttributeM α} {next : α → AttributeM β} {result : β × Bytes} :
    Gives ((first >>= next) input) pool result after ↔
      ∃ middle left between, Gives (first input) pool (middle, left) between ∧
        Gives (next middle left) between result after := by
  change Gives (first input >>= fun taken => next taken.1 taken.2) pool result after ↔ _
  simp

@[simp] theorem gives_pure : Gives ((pure value : AttributeM α) input) pool (result, rest) after ↔
      value = result ∧ input = rest ∧ pool = after := by
  change Gives (pure (value, input)) pool (result, rest) after ↔ _
  simp [and_assoc]

@[simp] theorem gives_take {result : α × Bytes} :
    Gives (take reader input) pool result after ↔ reader input = .ok result ∧ pool = after :=
  gives_ofOutcome

@[simp] theorem gives_lift : Gives ((liftM act : AttributeM α) input) pool (result, rest) after ↔
      act.Gives pool result after ∧ input = rest := by
  change Gives (act >>= fun value => pure (value, input)) pool (result, rest) after ↔ _
  simp only [PoolM.gives_bind, PoolM.gives_pure, Prod.mk.injEq]
  constructor
  · rintro ⟨middle, between, given, ⟨rfl, rfl⟩, rfl⟩
    exact ⟨given, rfl⟩
  · rintro ⟨given, rfl⟩
    exact ⟨result, after, given, ⟨rfl, rfl⟩, rfl⟩

@[simp] theorem gives_liftOutcome : Gives ((liftM outcome : AttributeM α) input) pool (result, rest) after ↔
      outcome = .ok result ∧ input = rest ∧ pool = after := by
  change Gives ((liftM (liftM outcome : PoolM α) : AttributeM α) input) pool _ after ↔ _
  rw [gives_lift, PoolM.gives_lift]
  tauto

@[simp] theorem not_gives_fail {result : α × Bytes} :
    ¬ PoolM.Gives ((fail cause : AttributeM α) input) pool result after :=
  PoolM.not_gives_fail

theorem gives_all {pass : AttributeM Bytes} {info written : Bytes} :
    (pass.all info).Gives pool written after ↔ PoolM.Gives (pass info) pool (written, []) after := by
  simp only [all, PoolM.gives_bind, Prod.exists]
  constructor
  · rintro ⟨result, rest, between, start, finish⟩
    split at finish
    case isTrue finished =>
      obtain ⟨rfl, rfl⟩ := PoolM.gives_pure.mp finish
      rwa [isEmpty_iff.mp finished] at start
    case isFalse => simp at finish
  · intro start
    exact ⟨written, [], after, start, by simp⟩

end AttributeM

theorem remapClass_eq_ok {renamer : Renamer} {options : RemapOptions} {bytes : Bytes} {out : RemappedClass} :
    remapClass renamer options bytes = .ok out ↔
      ∃ file bootstraps owner newOwner fields methods attributes pool written,
        ClassFile.read bytes = .ok file ∧ BootstrapMethod.ofClassFile file = .ok bootstraps ∧
        file.name = .ok owner ∧ renamer.mapClass owner = .ok newOwner ∧
        (RemapScope.mapFile { old := file.pool, renamer, options, owner, newOwner, bootstraps } file).Gives
          file.pool (fields, methods, attributes) pool ∧
        { file with pool, fields, methods, attributes }.toBytes = .ok written ∧
        out = { oldName := owner, newName := newOwner, bytes := written } := by
  unfold remapClass
  simp only [bind_eq_ok]
  constructor
  · rintro ⟨file, parsed, bootstraps, listed, owner, named, newOwner, renamed, finished⟩
    generalize ran : RemapScope.mapFile _ file file.pool = run at finished
    obtain ⟨outcome, pool⟩ := run
    simp only [bind_eq_ok, pure_eq_ok, Prod.exists] at finished
    obtain ⟨fields, methods, attributes, rfl, written, produced, rfl⟩ := finished
    exact ⟨file, bootstraps, owner, newOwner, fields, methods, attributes, pool, written, parsed, listed,
      named, renamed, ran, produced, rfl⟩
  · rintro ⟨file, bootstraps, owner, newOwner, fields, methods, attributes, pool, written, parsed, listed,
      named, renamed, given, produced, rfl⟩
    refine ⟨file, parsed, bootstraps, listed, owner, named, newOwner, renamed, ?_⟩
    rw [Gives] at given
    rw [given]
    refine bind_eq_ok.mpr ⟨(fields, methods, attributes), rfl, ?_⟩
    exact bind_eq_ok.mpr ⟨written, produced, rfl⟩

end JarRemap
