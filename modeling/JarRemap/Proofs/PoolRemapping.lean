import JarRemap.Proofs.RemapSteps
import JarRemap.Proofs.TextCuts

/-!
# The remapped constant pool

Every constant keeps its slot and its kind. What it resolves to in the new pool is what the renamer makes
of what it resolved to in the old one. Names that were handed out are never taken back, so the constants can be
remapped one after another in the pool itself.
-/
namespace JarRemap

open ConstantPool Outcome PoolM List Text

variable {constant new : Constant} {owner : UInt16} {map : (owner name descriptor : String) → Outcome String}

open RemapScope (lambdaFactory)

section specification

/-- The constants that name a symbol. A text or a pair alone does not tell what it is the name of. -/
def Constant.namesSymbol : Constant → Bool
  | .classRef _ | .fieldRef .. | .methodRef .. | .interfaceMethodRef .. | .methodType _ | .dynamic ..
  | .invokeDynamic .. => true
  | _ => false

/-- The new name of a member that a constant refers to. Members of arrays and names that start with an
angle bracket stay. -/
def referenceName (map : (owner name descriptor : String) → Outcome String)
    (owner name descriptor : String) : Outcome String :=
  if startsWith '[' owner ∨ startsWith '<' name then .ok name else map owner name descriptor

/-- The handle of the bootstrap method refers to one of the two methods that create lambdas. -/
def CreatesLambdas (pool : ConstantPool) (bootstrap : BootstrapMethod) : Prop :=
  ∃ kind reference owner pair name descriptor,
    pool.constant? bootstrap.handle = some (.methodHandle kind reference) ∧
    (pool.constant? reference = some (.methodRef owner pair) ∨
      pool.constant? reference = some (.interfaceMethodRef owner pair)) ∧
    pool.className owner = .ok lambdaFactory ∧ pool.nameAndType pair = .ok (name, descriptor) ∧
    (name = "metafactory" ∨ name = "altMetafactory")

/-- The descriptor ends with the class it returns, after the last parenthesis. -/
def ReturnsClass (descriptor name : String) : Prop :=
  ∃ parameters, descriptor.toList = parameters ++ ')' :: 'L' :: name.toList ++ [';'] ∧
    ')' ∉ name.toList

/-- The new name of a call site. If it creates a lambda, it is named after the method of the interface
that it returns. The first argument of the bootstrap method has the descriptor of that method. -/
inductive CallSiteName (renamer : Renamer) (pool : ConstantPool) (bootstrap : BootstrapMethod)
    (name descriptor : String) : (newName : String) → Prop
  | lambda {argument slot : UInt16} {implemented interface newName : String}
    (creates : CreatesLambdas pool bootstrap) (first : bootstrap.arguments.head? = some argument)
    (held : pool.constant? argument = some (.methodType slot))
    (read : pool.text slot = .ok implemented) (returned : ReturnsClass descriptor interface)
    (mapped : renamer.mapMethod interface name implemented = .ok newName) :
    CallSiteName renamer pool bootstrap name descriptor newName
  | other (creates : ¬ CreatesLambdas pool bootstrap) :
    CallSiteName renamer pool bootstrap name descriptor name

/-- The pair in the slot `newPair` of `new` has the name and the descriptor that `named` and the renamer
allow for the pair in the slot `pair` of `old`. -/
def RemappedPair (renamer : Renamer) (old new : ConstantPool)
    (named : (name descriptor newName : String) → Prop) (pair newPair : UInt16) : Prop :=
  ∃ name descriptor newName newDescriptor, old.nameAndType pair = .ok (name, descriptor) ∧
    named name descriptor newName ∧ renamer.mapDescriptor descriptor = .ok newDescriptor ∧
    new.nameAndType newPair = .ok (newName, newDescriptor)

/-- The new pair of a reference to a member, whose new name `map` gives. -/
def RemappedReference (renamer : Renamer) (old new : ConstantPool)
    (map : (owner name descriptor : String) → Outcome String) (owner pair newPair : UInt16) : Prop :=
  ∃ ownerName, old.className owner = .ok ownerName ∧
    RemappedPair renamer old new
      (fun name descriptor newName => referenceName map ownerName name descriptor = .ok newName) pair newPair

/-- What remapping makes of a constant of `old`, seen in the pool `new` that it leads to. -/
inductive RemappedConstant (renamer : Renamer) (bootstraps : List BootstrapMethod)
    (old new : ConstantPool) : Constant → Constant → Prop
  | classRef {slot newSlot : UInt16} {name newName : String} (read : old.text slot = .ok name)
    (mapped : renamer.mapClassOrArray name = .ok newName) (written : new.text newSlot = .ok newName) :
    RemappedConstant renamer bootstraps old new (.classRef slot) (.classRef newSlot)
  | fieldRef {owner pair newPair : UInt16}
    (remapped : RemappedReference renamer old new renamer.mapField owner pair newPair) :
    RemappedConstant renamer bootstraps old new (.fieldRef owner pair) (.fieldRef owner newPair)
  | methodRef {owner pair newPair : UInt16}
    (remapped : RemappedReference renamer old new renamer.mapMethod owner pair newPair) :
    RemappedConstant renamer bootstraps old new (.methodRef owner pair) (.methodRef owner newPair)
  | interfaceMethodRef {owner pair newPair : UInt16}
    (remapped : RemappedReference renamer old new renamer.mapMethod owner pair newPair) :
    RemappedConstant renamer bootstraps old new
      (.interfaceMethodRef owner pair) (.interfaceMethodRef owner newPair)
  | methodType {slot newSlot : UInt16} {descriptor newDescriptor : String}
    (read : old.text slot = .ok descriptor) (mapped : renamer.mapDescriptor descriptor = .ok newDescriptor)
    (written : new.text newSlot = .ok newDescriptor) :
    RemappedConstant renamer bootstraps old new (.methodType slot) (.methodType newSlot)
  | dynamic {index pair newPair : UInt16}
    (remapped : RemappedPair renamer old new (fun name _ newName => newName = name) pair newPair) :
    RemappedConstant renamer bootstraps old new (.dynamic index pair) (.dynamic index newPair)
  | invokeDynamic {index pair newPair : UInt16} {bootstrap : BootstrapMethod}
    (found : bootstraps[index.toNat]? = some bootstrap)
    (remapped : RemappedPair renamer old new (CallSiteName renamer old bootstrap) pair newPair) :
    RemappedConstant renamer bootstraps old new (.invokeDynamic index pair) (.invokeDynamic index newPair)
  | other {constant : Constant} (nameless : constant.namesSymbol = false) :
    RemappedConstant renamer bootstraps old new constant constant

variable {renamer : Renamer} {bootstraps : List BootstrapMethod} {old new later : ConstantPool}
  {changed : Constant} {newPair : UInt16}

theorem RemappedPair.mono (keeps : new.KeepsNames later) {named : String → String → String → Prop}
    {pair : UInt16} (remapped : RemappedPair renamer old new named pair newPair) :
    RemappedPair renamer old later named pair newPair := by
  obtain ⟨name, descriptor, newName, newDescriptor, read, naming, mapped, written⟩ := remapped
  exact ⟨name, descriptor, newName, newDescriptor, read, naming, mapped, keeps.nameAndType written⟩

theorem RemappedReference.mono (keeps : new.KeepsNames later) {pair : UInt16}
    (remapped : RemappedReference renamer old new map owner pair newPair) :
    RemappedReference renamer old later map owner pair newPair := by
  obtain ⟨ownerName, read, remapped⟩ := remapped
  exact ⟨ownerName, read, remapped.mono keeps⟩

theorem RemappedConstant.mono (keeps : new.KeepsNames later)
    (remapped : RemappedConstant renamer bootstraps old new constant changed) :
    RemappedConstant renamer bootstraps old later constant changed := by
  cases remapped with
  | classRef read mapped written => exact .classRef read mapped (keeps.text written)
  | fieldRef remapped => exact .fieldRef (remapped.mono keeps)
  | methodRef remapped => exact .methodRef (remapped.mono keeps)
  | interfaceMethodRef remapped => exact .interfaceMethodRef (remapped.mono keeps)
  | methodType read mapped written => exact .methodType read mapped (keeps.text written)
  | dynamic remapped => exact .dynamic (remapped.mono keeps)
  | invokeDynamic found remapped => exact .invokeDynamic found (remapped.mono keeps)
  | other nameless => exact .other nameless

theorem RemappedConstant.tag_eq (remapped : RemappedConstant renamer bootstraps old new constant changed) :
    changed.tag = constant.tag := by
  cases remapped <;> rfl

end specification

namespace ConstantPool

variable {pool after : ConstantPool} {slot : UInt16} {name descriptor : String}

theorem putText_resolves (registered : pool.Registered)
    (given : (putText name).Gives pool slot after) : after.text slot = .ok name :=
  text_eq_ok.mpr ⟨_, put_holds registered given, ModifiedUtf8.decode_encode name⟩

theorem putNameAndType_resolves (registered : pool.Registered)
    (given : (putNameAndType name descriptor).Gives pool slot after) :
    after.nameAndType slot = .ok (name, descriptor) := by
  simp only [putNameAndType, gives_bind] at given
  obtain ⟨nameSlot, named, putName, descriptorSlot, described, putDescriptor, putPair⟩ := given
  have describedGrown : named.Grown described := putText_grows descriptor _ _ _ putDescriptor
  have pairGrown : described.Grown after := put_grown rfl putPair
  have middle : named.Registered := put_registered registered putName
  have last : described.Registered := put_registered middle putDescriptor
  refine nameAndType_eq_ok.mpr ⟨nameSlot, descriptorSlot, put_holds last putPair, ?_, ?_⟩
  · exact (describedGrown.trans pairGrown).keepsNames.text (putText_resolves registered putName)
  · exact pairGrown.keepsNames.text (putText_resolves middle putDescriptor)

end ConstantPool

namespace RemapScope

variable {scope : RemapScope} {pool after : ConstantPool} {index slot : UInt16} {descriptor name : String}

theorem keepText_resolves {new : String} (wellFormed : pool.WellFormed)
    (keeps : scope.old.KeepsNames pool) (given : (scope.keepText index new).Gives pool slot after) :
    after.text slot = .ok new := by
  simp only [keepText, gives_bind, gives_lift] at given
  obtain ⟨held, _, ⟨read, rfl⟩, given⟩ := given
  split at given
  case isTrue same =>
    obtain ⟨rfl, rfl⟩ := gives_pure.mp given
    exact keeps.text (same ▸ read)
  case isFalse => exact putText_resolves wellFormed.registered given

theorem keepNameAndType_resolves (wellFormed : pool.WellFormed) (keeps : scope.old.KeepsNames pool)
    (given : (scope.keepNameAndType index name descriptor).Gives pool slot after) :
    after.nameAndType slot = .ok (name, descriptor) := by
  simp only [keepNameAndType, gives_bind, gives_lift] at given
  obtain ⟨⟨heldName, heldDescriptor⟩, _, ⟨read, rfl⟩, given⟩ := given
  simp only at given
  split at given
  case isTrue same =>
    obtain ⟨rfl, rfl⟩ := gives_pure.mp given
    obtain ⟨rfl, rfl⟩ := same
    exact keeps.nameAndType read
  case isFalse => exact putNameAndType_resolves wellFormed.registered given

section bootstraps

variable {bootstrap : BootstrapMethod} {pair : UInt16}

theorem handleTarget?_some (found : scope.handleTarget? index bootstrap = .ok (some (owner, pair))) :
    ∃ kind reference, scope.old.constant? bootstrap.handle = some (.methodHandle kind reference) ∧
      (scope.old.constant? reference = some (.methodRef owner pair) ∨
        scope.old.constant? reference = some (.interfaceMethodRef owner pair)) := by
  simp only [handleTarget?, bind_eq_ok, get_eq_ok] at found
  obtain ⟨handle, heldHandle, found⟩ := found
  split at found
  case h_1 kind reference =>
    simp only [bind_eq_ok, get_eq_ok] at found
    obtain ⟨target, heldTarget, found⟩ := found
    split at found <;> simp only [pure_eq_ok, Option.some.injEq, Prod.mk.injEq] at found
    case h_1 =>
      obtain ⟨rfl, rfl⟩ := found
      exact ⟨kind, reference, heldHandle, .inl heldTarget⟩
    case h_2 =>
      obtain ⟨rfl, rfl⟩ := found
      exact ⟨kind, reference, heldHandle, .inr heldTarget⟩
    case h_3 => cases found
  case h_2 => simp at found

theorem handleTarget?_none (found : scope.handleTarget? index bootstrap = .ok none) :
    ¬ CreatesLambdas scope.old bootstrap := by
  rintro ⟨kind, reference, owner, pair, name, descriptor, heldHandle, heldTarget, -⟩
  simp only [handleTarget?, bind_eq_ok, get_eq_ok, heldHandle, Option.some.injEq, exists_eq_left'] at found
  rcases heldTarget with held | held <;> simp [held] at found

theorem isLambdaFactory_eq_ok {answer : Bool} (found : scope.isLambdaFactory owner pair = .ok answer) :
    answer = true ↔ ∃ name descriptor, scope.old.className owner = .ok lambdaFactory ∧
      scope.old.nameAndType pair = .ok (name, descriptor) ∧ (name = "metafactory" ∨ name = "altMetafactory") := by
  simp only [isLambdaFactory, bind_eq_ok, pure_eq_ok, Prod.exists] at found
  obtain ⟨name, descriptor, pairRead, ownerName, ownerRead, rfl⟩ := found
  rw [pairRead, ownerRead]
  simp

/-- If the handle has a target, the question whether it creates lambdas is asked of that target. -/
theorem createsLambdas_iff {isFactory : Bool}
    (searched : scope.handleTarget? index bootstrap = .ok (some (owner, pair)))
    (asked : scope.isLambdaFactory owner pair = .ok isFactory) :
    CreatesLambdas scope.old bootstrap ↔ isFactory = true := by
  obtain ⟨kind, reference, heldHandle, heldTarget⟩ := handleTarget?_some searched
  have factory := isLambdaFactory_eq_ok asked
  constructor
  · rintro ⟨otherKind, otherReference, otherOwner, otherPair, name, descriptor, otherHandle, otherTarget, named⟩
    obtain ⟨rfl, rfl⟩ : kind = otherKind ∧ reference = otherReference := by
      simpa using heldHandle.symm.trans otherHandle
    obtain ⟨rfl, rfl⟩ : owner = otherOwner ∧ pair = otherPair := by
      rcases heldTarget with held | held <;> rcases otherTarget with other | other <;> simpa using held.symm.trans other
    exact factory.mpr ⟨name, descriptor, named⟩
  · intro isTrue
    obtain ⟨name, descriptor, named⟩ := factory.mp isTrue
    exact ⟨kind, reference, owner, pair, name, descriptor, heldHandle, heldTarget, named⟩

/-- An answer is the descriptor of the method that the lambda implements. -/
theorem lambdaDescriptor?_eq_ok {answer : Option String} (found : scope.lambdaDescriptor? index = .ok answer) :
    ∃ bootstrap, scope.bootstraps[index.toNat]? = some bootstrap ∧
      (answer = none ∧ ¬ CreatesLambdas scope.old bootstrap ∨
        ∃ argument slot implemented, answer = some implemented ∧ CreatesLambdas scope.old bootstrap ∧
          bootstrap.arguments.head? = some argument ∧ scope.old.constant? argument = some (.methodType slot) ∧
          scope.old.text slot = .ok implemented) := by
  unfold lambdaDescriptor? at found
  split at found
  case h_1 => simp at found
  case h_2 bootstrap present =>
    refine ⟨bootstrap, present, ?_⟩
    obtain ⟨target, searched, found⟩ := bind_eq_ok.mp found
    split at found
    case h_1 =>
      obtain rfl := pure_eq_ok.mp found
      exact .inl ⟨rfl, handleTarget?_none searched⟩
    case h_2 owner pair =>
      obtain ⟨isFactory, asked, found⟩ := bind_eq_ok.mp found
      have creates := createsLambdas_iff searched asked
      cases isFactory with
      | false =>
        obtain rfl := pure_eq_ok.mp found
        exact .inl ⟨rfl, by simp [creates]⟩
      | true =>
        simp only [Bool.not_true, Bool.false_eq_true, if_false] at found
        split at found
        case h_1 => simp at found
        case h_2 argument more arguments =>
          simp only [bind_eq_ok, get_eq_ok] at found
          obtain ⟨constant, held, found⟩ := found
          split at found
          case h_1 slot =>
            obtain ⟨implemented, read, rfl⟩ := map_eq_ok.mp found
            exact .inr ⟨argument, slot, implemented, rfl, creates.mpr rfl, by simp [arguments], held, read⟩
          case h_2 => simp at found

end bootstraps

theorem returnedClass?_eq_some (found : returnedClass? descriptor = some name) :
    ReturnsClass descriptor name := by
  simp only [returnedClass?, Option.bind_eq_bind, Option.bind_eq_some_iff, Prod.exists,
    cutLast?_eq_some, dropStart?_eq_some, dropEnd?_eq_some, Option.pure_def,
    Option.some.injEq] at found
  obtain ⟨parameters, _, ⟨shape, absent⟩, _, rfl, chars, rfl, rfl⟩ := found
  refine ⟨parameters, ?_, ?_⟩
  · simpa using shape
  · simp_all

section constants

variable {pair newPair : UInt16} (wellFormed : pool.WellFormed) (keeps : scope.old.KeepsNames pool)
include wellFormed keeps

theorem mapReference_remapped (given : (scope.mapReference map owner pair).Gives pool newPair after) :
    RemappedReference scope.renamer scope.old after map owner pair newPair := by
  simp only [mapReference, gives_bind, gives_lift] at given
  obtain ⟨ownerName, _, ⟨ownerRead, rfl⟩, ⟨name, descriptor⟩, _, ⟨pairRead, rfl⟩, given⟩ := given
  simp only at given
  have finish (newName : String) (named : referenceName map ownerName name descriptor = .ok newName)
      (given : Gives (do
        let newDescriptor ← scope.renamer.mapDescriptor descriptor
        scope.keepNameAndType pair newName newDescriptor) pool newPair after) :
      RemappedReference scope.renamer scope.old after map owner pair newPair := by
    simp only [gives_bind, gives_lift] at given
    obtain ⟨newDescriptor, _, ⟨mapped, rfl⟩, given⟩ := given
    exact ⟨ownerName, ownerRead, name, descriptor, newName, newDescriptor, pairRead, named, mapped,
      keepNameAndType_resolves wellFormed keeps given⟩
  split at given
  case isTrue kept =>
    obtain ⟨newName, _, start, given⟩ := gives_bind.mp given
    obtain ⟨rfl, rfl⟩ := gives_pure.mp start
    exact finish name (by simp_all [referenceName]) given
  case isFalse renamed =>
    obtain ⟨newName, _, start, given⟩ := gives_bind.mp given
    obtain ⟨mapped, rfl⟩ := gives_ofOutcome.mp start
    exact finish newName (by simp_all [referenceName]) given

theorem mapDynamic_remapped (given : (scope.mapDynamic pair).Gives pool newPair after) :
    RemappedPair scope.renamer scope.old after (fun name _ newName => newName = name) pair newPair := by
  simp only [mapDynamic, gives_bind, gives_lift] at given
  obtain ⟨⟨name, descriptor⟩, _, ⟨pairRead, rfl⟩, newDescriptor, _, ⟨mapped, rfl⟩, given⟩ := given
  exact ⟨name, descriptor, name, newDescriptor, pairRead, rfl, mapped, keepNameAndType_resolves wellFormed keeps given⟩

theorem mapCallSite_remapped (given : (scope.mapCallSite index pair).Gives pool newPair after) :
    ∃ bootstrap, scope.bootstraps[index.toNat]? = some bootstrap ∧
      RemappedPair scope.renamer scope.old after (CallSiteName scope.renamer scope.old bootstrap) pair newPair := by
  simp only [mapCallSite, gives_bind, gives_lift] at given
  obtain ⟨⟨name, descriptor⟩, _, ⟨pairRead, rfl⟩, answer, _, ⟨answered, rfl⟩, given⟩ := given
  obtain ⟨bootstrap, found, lambda⟩ := lambdaDescriptor?_eq_ok answered
  refine ⟨bootstrap, found, ?_⟩
  have finish (newName : String)
      (named : CallSiteName scope.renamer scope.old bootstrap name descriptor newName)
      (given : Gives (do
        let newDescriptor ← scope.renamer.mapDescriptor descriptor
        scope.keepNameAndType pair newName newDescriptor) pool newPair after) :
      RemappedPair scope.renamer scope.old after (CallSiteName scope.renamer scope.old bootstrap)
        pair newPair := by
    simp only [gives_bind, gives_lift] at given
    obtain ⟨newDescriptor, _, ⟨mapped, rfl⟩, given⟩ := given
    exact ⟨name, descriptor, newName, newDescriptor, pairRead, named, mapped,
      keepNameAndType_resolves wellFormed keeps given⟩
  rcases lambda with ⟨rfl, creates⟩ | ⟨argument, slot, implemented, rfl, creates, first, held, read⟩
  · obtain ⟨newName, _, start, given⟩ := gives_bind.mp given
    obtain ⟨rfl, rfl⟩ := gives_pure.mp start
    exact finish name (.other creates) given
  · simp only at given
    split at given
    case h_1 => simp at given
    case h_2 interface returned =>
      obtain ⟨newName, _, start, given⟩ := gives_bind.mp given
      obtain ⟨mapped, rfl⟩ := gives_ofOutcome.mp start
      exact finish newName (.lambda creates first held read (returnedClass?_eq_some returned)
        (within_eq_ok.mp mapped)) given

/-- A constant is remapped as its kind asks for. -/
theorem mapConstant_remapped {answer : Option Constant} (given : (scope.mapConstant constant).Gives pool answer after) :
    RemappedConstant scope.renamer scope.bootstraps scope.old after constant (answer.getD constant) := by
  unfold mapConstant at given
  split at given <;> simp only [gives_bind, gives_lift, gives_pure] at given
  case h_1 =>
    obtain ⟨name, _, ⟨read, rfl⟩, newName, _, ⟨mapped, rfl⟩, slot, _, written, rfl, rfl⟩ := given
    exact .classRef read mapped (keepText_resolves wellFormed keeps written)
  case h_2 =>
    obtain ⟨newPair, _, remapped, rfl, rfl⟩ := given
    exact .fieldRef (mapReference_remapped wellFormed keeps remapped)
  case h_3 =>
    obtain ⟨newPair, _, remapped, rfl, rfl⟩ := given
    exact .methodRef (mapReference_remapped wellFormed keeps remapped)
  case h_4 =>
    obtain ⟨newPair, _, remapped, rfl, rfl⟩ := given
    exact .interfaceMethodRef (mapReference_remapped wellFormed keeps remapped)
  case h_5 =>
    simp only [mapDescriptorAt, gives_bind, gives_lift] at given
    obtain ⟨slot, _, ⟨descriptor, _, ⟨read, rfl⟩, newDescriptor, _, ⟨mapped, rfl⟩, written⟩, rfl, rfl⟩ := given
    exact .methodType read mapped (keepText_resolves wellFormed keeps written)
  case h_6 =>
    obtain ⟨newPair, _, remapped, rfl, rfl⟩ := given
    obtain ⟨bootstrap, found, remapped⟩ := mapCallSite_remapped wellFormed keeps remapped
    exact .invokeDynamic found remapped
  case h_7 =>
    obtain ⟨newPair, _, remapped, rfl, rfl⟩ := given
    exact .dynamic (mapDynamic_remapped wellFormed keeps remapped)
  case h_8 =>
    obtain ⟨rfl, rfl⟩ := given
    refine .other ?_
    cases constant <;> simp_all [Constant.namesSymbol]

end constants

theorem mapConstant_name (name : constant.isName) :
    ¬ (scope.mapConstant constant).Gives pool (some new) after := by
  cases constant <;> simp_all [mapConstant, Constant.isName]

end RemapScope

namespace ConstantPool

/-- All constants of `new` that are not in the slots of constants of `old` are names after the last slot. -/
structure AddsNames (old new : ConstantPool) : Prop where
  count : old.count ≤ new.count
  added : ∀ index constant, new.constant? index = some constant → old.constant? index = none →
    old.count ≤ index.toNat ∧ constant.isName

theorem AddsNames.grown {old new later : ConstantPool} (adds : old.AddsNames new)
    (grown : new.Grown later) : old.AddsNames later := by
  obtain ⟨added, names, slots⟩ := grown.slots
  have size : later.count = new.count + added.length := by
    rw [ConstantPool.count, ← Array.length_toList, slots]
    simp [ConstantPool.count]
  refine ⟨by have := adds.count; omega, ?_⟩
  intro index constant held absent
  by_cases early : index.toNat < new.count
  · refine adds.added index constant ?_ absent
    rw [constant?_eq_some, slots, List.getElem?_append_left early] at held
    exact constant?_eq_some.mpr held
  · refine ⟨by have := adds.count; omega, ?_⟩
    rw [constant?_eq_some, slots, List.getElem?_append_right (Nat.le_of_not_lt early)] at held
    have member : some constant ∈ added.map some := mem_of_getElem? held
    exact names constant (by simpa using member)

end ConstantPool

namespace RemapScope

variable {scope : RemapScope} {pool after : ConstantPool} {todo : List (UInt16 × Constant)} {index : UInt16}

/-- The state of the pool while its constants are remapped, with those in `todo` still to do. -/
structure Progress (scope : RemapScope) (todo : List (UInt16 × Constant)) (pool : ConstantPool) :
    Prop where
  wellFormed : pool.WellFormed
  keeps : scope.old.KeepsNames pool
  adds : scope.old.AddsNames pool
  waiting : ∀ entry ∈ todo, pool.constant? entry.1 = some entry.2
  done : ∀ index constant, scope.old.constant? index = some constant → (index, constant) ∉ todo →
    ∃ new, pool.constant? index = some new ∧
      RemappedConstant scope.renamer scope.bootstraps scope.old pool constant new

theorem Progress.grown (progress : scope.Progress todo pool) (grown : pool.Grown after) :
    scope.Progress todo after where
  wellFormed := grown.wellFormed progress.wellFormed
  keeps := progress.keeps.trans grown.keepsNames
  adds := progress.adds.grown grown
  waiting entry member := grown.constant? (progress.waiting entry member)
  done index constant held absent := by
    obtain ⟨new, placed, remapped⟩ := progress.done index constant held absent
    exact ⟨new, grown.constant? placed, remapped.mono grown.keepsNames⟩

theorem Progress.skip (progress : scope.Progress ((index, constant) :: todo) pool)
    (remapped : RemappedConstant scope.renamer scope.bootstraps scope.old pool constant constant) :
    scope.Progress todo pool where
  wellFormed := progress.wellFormed
  keeps := progress.keeps
  adds := progress.adds
  waiting entry member := progress.waiting entry (mem_cons_of_mem _ member)
  done other held was absent := by
    by_cases current : (other, held) = (index, constant)
    · obtain ⟨rfl, rfl⟩ := Prod.mk.inj current
      exact ⟨held, progress.waiting _ mem_cons_self, remapped⟩
    · exact progress.done other held was (by simp_all)

/-- A constant is done once it is replaced by what remapping should make of it. No name is lost, because
the constant was none, and no other slot is touched. -/
theorem Progress.replace
    (progress : scope.Progress ((index, constant) :: todo) pool) (fresh : ∀ entry ∈ todo, index ≠ entry.1)
    (was : scope.old.constant? index = some constant) (nameless : constant.isName = false)
    (remapped : RemappedConstant scope.renamer scope.bootstraps scope.old pool constant new)
    (given : (ConstantPool.replace index new).Gives pool () after) : scope.Progress todo after := by
  have current : pool.constant? index = some constant := progress.waiting _ mem_cons_self
  have others (other : UInt16) (different : index ≠ other) :
      after.constant? other = pool.constant? other := replace_others given different
  have keeps : pool.KeepsNames after := by
    intro other held name placed
    have different : index ≠ other := by
      rintro rfl
      rw [current, Option.some.injEq] at placed
      simp [← placed, nameless] at name
    rw [others other different, placed]
  refine ⟨replace_wellFormed progress.wellFormed given, progress.keeps.trans keeps, ⟨?_, ?_⟩, ?_, ?_⟩
  · rw [replace_count given]
    exact progress.adds.count
  · intro other held placed absent
    have different : index ≠ other := by
      rintro rfl
      simp [was] at absent
    exact progress.adds.added other held (others other different ▸ placed) absent
  · intro entry member
    rw [others _ (fresh entry member)]
    exact progress.waiting entry (mem_cons_of_mem _ member)
  · intro other held old absent
    by_cases same : index = other
    · subst same
      obtain rfl : constant = held := Option.mem_unique was old
      exact ⟨new, replace_holds given, remapped.mono keeps⟩
    · obtain ⟨changed, placed, remapped⟩ := progress.done other held old (by simp_all [Ne.symm same])
      exact ⟨changed, (others other same).trans placed, remapped.mono keeps⟩

/-- When each constant has had its turn, nothing is left to do. -/
theorem forM_progress (progress : scope.Progress todo pool)
    (distinct : todo.Pairwise fun first second => first.1 ≠ second.1)
    (listed : ∀ entry ∈ todo, scope.old.constant? entry.1 = some entry.2)
    (given : Gives (todo.forM fun (index, constant) => do
      match ← scope.mapConstant constant with
      | none => return
      | some new => within (.replacing index) (ConstantPool.replace index new)) pool () after) :
    scope.Progress [] after := by
  induction todo generalizing pool with
  | nil =>
    obtain ⟨-, rfl⟩ := gives_pure.mp given
    exact progress
  | cons entry todo ih =>
    obtain ⟨index, constant⟩ := entry
    obtain ⟨fresh, distinct⟩ := pairwise_cons.mp distinct
    obtain ⟨was, listed⟩ := forall_mem_cons.mp listed
    obtain ⟨_, between, first, given⟩ := gives_bind.mp given
    obtain ⟨answer, mapped, mapping, replacing⟩ := gives_bind.mp first
    refine ih ?_ distinct listed given
    have remapped := mapConstant_remapped progress.wellFormed progress.keeps mapping
    have prepared := progress.grown ((scope.mapConstant_follows (.refl _) constant).grows _ _ _ mapping)
    cases answer with
    | none =>
      obtain ⟨-, rfl⟩ := gives_pure.mp replacing
      exact prepared.skip remapped
    | some new =>
      have nameless : constant.isName = false := by
        by_contra name
        exact mapConstant_name (by simpa using name) mapping
      exact prepared.replace fresh was nameless remapped (gives_within.mp replacing)

theorem mapPool_progress (wellFormed : scope.old.WellFormed)
    (given : scope.mapPool.Gives scope.old () after) : scope.Progress [] after := by
  refine forM_progress ?_ (constants_pairwise wellFormed.bounded) ?_ given
  · refine ⟨wellFormed, .refl _, ⟨le_refl _, ?_⟩, ?_, ?_⟩
    · intro index constant held absent
      simp [held] at absent
    · rintro ⟨index, constant⟩ member
      exact (mem_constants wellFormed.bounded).mp member
    · intro index constant held absent
      exact absurd ((mem_constants wellFormed.bounded).mpr held) absent
  · rintro ⟨index, constant⟩ member
    exact (mem_constants wellFormed.bounded).mp member

end RemapScope

end JarRemap
