import JarRemap.Proofs.PoolRemapping

/-!
# Remapped class files

A class file that comes out of remapping can be read again. Its constants stand where they stood, its
members are declared in the same order, and each has the name and the descriptor that the renamer gives
for it. Whatever else was needed for new names stands in slots after those of the old pool.
-/
namespace JarRemap

open PoolM List ClassFile RemapScope

variable {map : (name descriptor : String) → Outcome String}

section specification

/-- A member with a new name and a new descriptor. `map` gives the new name. -/
def RemappedMember (renamer : Renamer) (old new : ConstantPool)
    (map : (name descriptor : String) → Outcome String) (before after : Member) : Prop :=
  after.access = before.access ∧ ∃ name descriptor newName newDescriptor,
    old.text before.name = .ok name ∧ old.text before.descriptor = .ok descriptor ∧
    map name descriptor = .ok newName ∧ renamer.mapDescriptor descriptor = .ok newDescriptor ∧
    new.text after.name = .ok newName ∧ new.text after.descriptor = .ok newDescriptor

/-- The new name of a method that is declared in `owner`. Constructors and initialisers keep theirs. -/
def declaredMethodName (renamer : Renamer) (owner name descriptor : String) : Outcome String :=
  if Text.startsWith '<' name then .ok name else renamer.mapMethod owner name descriptor

/-- What remapping makes of a class file whose class is called `owner`. -/
structure RemappedFile (renamer : Renamer) (bootstraps : List BootstrapMethod) (owner : String)
    (old new : ClassFile) : Prop where
  version : new.minor = old.minor ∧ new.major = old.major
  access : new.access = old.access
  classes : new.thisClass = old.thisClass ∧ new.superClass = old.superClass ∧
    new.interfaces = old.interfaces
  constants : ∀ index constant, old.pool.constant? index = some constant →
    ∃ changed, new.pool.constant? index = some changed ∧
      RemappedConstant renamer bootstraps old.pool new.pool constant changed
  added : old.pool.AddsNames new.pool
  fields : Forall₂ (RemappedMember renamer old.pool new.pool (renamer.mapField owner))
    old.fields new.fields
  methods : Forall₂ (RemappedMember renamer old.pool new.pool (declaredMethodName renamer owner))
    old.methods new.methods

variable {renamer : Renamer} {old new later : ConstantPool}

theorem RemappedMember.mono (keeps : new.KeepsNames later) {before after : Member}
    (remapped : RemappedMember renamer old new map before after) :
    RemappedMember renamer old later map before after := by
  obtain ⟨access, name, descriptor, newName, newDescriptor, nameRead, descriptorRead, named, mapped,
    nameWritten, descriptorWritten⟩ := remapped
  exact ⟨access, name, descriptor, newName, newDescriptor, nameRead, descriptorRead, named, mapped,
    keeps.text nameWritten, keeps.text descriptorWritten⟩

end specification

namespace RemapScope

variable {scope : RemapScope} {pool after : ConstantPool} {member changed : Member} {attributes : List Attribute}

/-- The pool is in order and has all the old names, so that what is resolved in it is right. -/
structure Ready (scope : RemapScope) (pool : ConstantPool) : Prop where
  wellFormed : pool.WellFormed
  keeps : scope.old.KeepsNames pool

section

variable (ready : scope.Ready pool)
include ready

theorem Ready.grown (grown : pool.Grown after) : scope.Ready after :=
  ⟨grown.wellFormed ready.wellFormed, ready.keeps.trans grown.keepsNames⟩

theorem member_remapped {name descriptor newName newDescriptor : String} {nameIndex descriptorIndex : UInt16}
    {described : ConstantPool} (nameRead : scope.old.text member.name = .ok name)
    (descriptorRead : scope.old.text member.descriptor = .ok descriptor) (named : map name descriptor = .ok newName)
    (mapped : scope.renamer.mapDescriptor descriptor = .ok newDescriptor)
    (nameWritten : pool.text nameIndex = .ok newName)
    (kept : (scope.keepText member.descriptor newDescriptor).Gives pool descriptorIndex described)
    (rest : (scope.mapAttributes member.attributes).Gives described attributes after) :
    RemappedMember scope.renamer scope.old after map member
      { member with name := nameIndex, descriptor := descriptorIndex, attributes } := by
  have describedGrown : pool.Grown described := scope.keepText_grows _ _ _ _ _ kept
  have restGrown : described.Grown after := scope.mapAttributes_grows _ _ _ _ rest
  refine ⟨rfl, name, descriptor, newName, newDescriptor, nameRead, descriptorRead, named, mapped, ?_, ?_⟩
  · exact (describedGrown.trans restGrown).keepsNames.text nameWritten
  · exact restGrown.keepsNames.text (keepText_resolves ready.wellFormed ready.keeps kept)

theorem mapField_remapped (given : (scope.mapField member).Gives pool changed after) :
    RemappedMember scope.renamer scope.old after (scope.renamer.mapField scope.owner) member changed := by
  simp only [mapField, mapFieldBy, gives_bind, gives_lift, gives_pure, gives_within] at given
  obtain ⟨name, _, ⟨nameRead, rfl⟩, descriptor, _, ⟨descriptorRead, rfl⟩, newName, _, ⟨named, rfl⟩,
    newDescriptor, _, ⟨mapped, rfl⟩, nameIndex, between, nameKept, descriptorIndex, _, descriptorKept,
    attributes, _, rest, rfl, rfl⟩ := given
  exact member_remapped (ready.grown (scope.keepText_grows _ _ _ _ _ nameKept)) nameRead descriptorRead
    named mapped (keepText_resolves ready.wellFormed ready.keeps nameKept) descriptorKept rest

theorem mapMethod_remapped (given : (scope.mapMethod member).Gives pool changed after) :
    RemappedMember scope.renamer scope.old after (declaredMethodName scope.renamer scope.owner) member changed ∧
      ∃ between, pool.Grown between ∧
        (scope.mapAttributes member.attributes).Gives between changed.attributes after := by
  simp only [mapMethod, gives_bind, gives_lift] at given
  obtain ⟨name, _, ⟨nameRead, rfl⟩, descriptor, _, ⟨descriptorRead, rfl⟩, given⟩ := given
  split at given <;> simp only [gives_bind, gives_lift, gives_pure, gives_within] at given
  case isTrue special =>
    obtain ⟨nameIndex, _, ⟨rfl, rfl⟩, newDescriptor, _, ⟨mapped, rfl⟩, descriptorIndex, _, descriptorKept,
      attributes, _, rest, rfl, rfl⟩ := given
    refine ⟨?_, _, scope.keepText_grows _ _ _ _ _ descriptorKept, rest⟩
    exact member_remapped ready nameRead descriptorRead (by simp [declaredMethodName, special]) mapped
      (ready.keeps.text nameRead) descriptorKept rest
  case isFalse renamed =>
    obtain ⟨newName, _, ⟨named, rfl⟩, nameIndex, between, nameKept, newDescriptor, _, ⟨mapped, rfl⟩,
      descriptorIndex, _, descriptorKept, attributes, _, rest, rfl, rfl⟩ := given
    have namedGrown : pool.Grown between := scope.keepText_grows _ _ _ _ _ nameKept
    refine ⟨?_, _, namedGrown.trans (scope.keepText_grows _ _ _ _ _ descriptorKept), rest⟩
    exact member_remapped (ready.grown namedGrown) nameRead descriptorRead
      (by simpa [declaredMethodName, renamed] using named) mapped
      (keepText_resolves ready.wellFormed ready.keeps nameKept) descriptorKept rest

end

/-- `act` made `result` of `value` after the constants were remapped, and the pool grew to `final`. -/
def Ran {α β : Type} (scope : RemapScope) (final : ConstantPool) (act : α → PoolM β) (value : α) (result : β) : Prop :=
  ∃ start finish, scope.Progress [] start ∧ (act value).Gives start result finish ∧ finish.Grown final

/-- Fields, methods and attributes come after the pool, and leave its remapped constants alone. -/
theorem mapFile_ran (wellFormed : scope.old.WellFormed) {file : ClassFile} {fields methods : List Member}
    {final : ConstantPool} (grown : after.Grown final)
    (given : (scope.mapFile file).Gives scope.old (fields, methods, attributes) after) : scope.Progress [] final ∧
      Forall₂ (scope.Ran final scope.mapField) file.fields fields ∧
      Forall₂ (scope.Ran final scope.mapMethod) file.methods methods ∧
      scope.Ran final scope.mapAttributes file.attributes attributes := by
  simp only [mapFile, gives_bind, gives_within, gives_pure, Prod.mk.injEq] at given
  obtain ⟨_, remapped, poolGiven, newFields, withFields, fieldsGiven, newMethods, withMethods,
    methodsGiven, newAttributes, last, attributesGiven, ⟨rfl, rfl, rfl⟩, rfl⟩ := given
  have progress : scope.Progress [] remapped := mapPool_progress wellFormed poolGiven
  have fieldGrows (member : Member) := (scope.mapField_grows member).within (.fieldOf scope.owner)
  have methodGrows (member : Member) := (scope.mapMethod_grows member).within (.methodOf scope.owner)
  have withFieldsProgress := progress.grown (Grows.mapM fieldGrows _ _ _ _ fieldsGiven)
  have methodsGrown : withFields.Grown withMethods := Grows.mapM methodGrows _ _ _ _ methodsGiven
  have lastGrown : withMethods.Grown final := (scope.mapAttributes_grows _ _ _ _ attributesGiven).trans grown
  refine ⟨withFieldsProgress.grown (methodsGrown.trans lastGrown), (mapM_runs fieldGrows fieldsGiven).imp ?_,
    (mapM_runs methodGrows methodsGiven).imp ?_, withMethods, last, withFieldsProgress.grown methodsGrown,
    attributesGiven, grown⟩
  · rintro member changed ⟨start, finish, started, run, rest⟩
    exact ⟨start, finish, progress.grown started, gives_within.mp run, rest.trans (methodsGrown.trans lastGrown)⟩
  · rintro member changed ⟨start, finish, started, run, rest⟩
    exact ⟨start, finish, withFieldsProgress.grown started, gives_within.mp run, rest.trans lastGrown⟩

/-- A remapped class file, with the runs that made its members and attributes. -/
structure RanFile (scope : RemapScope) (old new : ClassFile) : Prop
    extends RemappedFile scope.renamer scope.bootstraps scope.owner old new where
  ranFields : Forall₂ (scope.Ran new.pool scope.mapField) old.fields new.fields
  ranMethods : Forall₂ (scope.Ran new.pool scope.mapMethod) old.methods new.methods
  ranAttributes : scope.Ran new.pool scope.mapAttributes old.attributes new.attributes

end RemapScope

theorem RemappedFile.className_eq {renamer : Renamer} {bootstraps : List BootstrapMethod}
    {owner name : String} {old new : ClassFile} {index : UInt16} (file : RemappedFile renamer bootstraps owner old new)
    (read : old.pool.className index = .ok name) :
    ∃ newName, renamer.mapClassOrArray name = .ok newName ∧ new.pool.className index = .ok newName := by
  obtain ⟨slot, held, spelled⟩ := ConstantPool.className_eq_ok.mp read
  obtain ⟨_, placed, remapped⟩ := file.constants index _ held
  cases remapped with
  | classRef again mapped written =>
    obtain rfl := Outcome.unique spelled again
    exact ⟨_, mapped, ConstantPool.className_eq_ok.mpr ⟨_, placed, written⟩⟩
  | other nameless => simp [Constant.namesSymbol] at nameless

section remapClass

variable {renamer : Renamer} {options : RemapOptions} {bytes : Bytes} {out : RemappedClass}

/-- A class file that was remapped can be read again, and is what remapping should make of it. -/
theorem remapClass_ran (remapped : remapClass renamer options bytes = .ok out) :
    ∃ old new bootstraps, read bytes = .ok old ∧ read out.bytes = .ok new ∧
      BootstrapMethod.ofClassFile old = .ok bootstraps ∧ old.name = .ok out.oldName ∧
      renamer.mapClass out.oldName = .ok out.newName ∧ RanFile
        { old := old.pool, renamer, options, owner := out.oldName, newOwner := out.newName, bootstraps }
        old new := by
  obtain ⟨old, bootstraps, owner, newOwner, fields, methods, attributes, pool, written, parsed, listed,
    named, renamed, given, produced, rfl⟩ := remapClass_eq_ok.mp remapped
  have wellFormed : old.pool.WellFormed := read_wellFormed parsed
  obtain ⟨progress, -⟩ := mapFile_ran wellFormed (.refl _) given
  obtain ⟨constants, laidOut⟩ := progress.wellFormed.laidOut
  obtain ⟨again, reparsed, slots⟩ := read_of_toBytes laidOut produced
  -- A pool that is read again has another register, but the same slots, and only those are resolved.
  have grown : pool.Grown again :=
    ⟨fun _ => read_wellFormed reparsed, [], by simp, by simpa using congrArg Array.toList slots⟩
  obtain ⟨progress, fields, methods, attributes⟩ := mapFile_ran wellFormed grown given
  refine ⟨old, _, bootstraps, parsed, reparsed, listed, named, renamed, ⟨⟨rfl, rfl⟩, rfl, ⟨rfl, rfl, rfl⟩,
    fun index constant held => progress.done index constant held (by simp), progress.adds,
    fields.imp ?_, methods.imp ?_⟩, fields, methods, attributes⟩
  · rintro member changed ⟨start, finish, here, run, rest⟩
    exact (mapField_remapped ⟨here.wellFormed, here.keeps⟩ run).mono rest.keepsNames
  · rintro member changed ⟨start, finish, here, run, rest⟩
    exact (mapMethod_remapped ⟨here.wellFormed, here.keeps⟩ run).1.mono rest.keepsNames

theorem remapClass_remapped (remapped : remapClass renamer options bytes = .ok out) :
    ∃ old new bootstraps, read bytes = .ok old ∧ read out.bytes = .ok new ∧
      BootstrapMethod.ofClassFile old = .ok bootstraps ∧ old.name = .ok out.oldName ∧
      renamer.mapClass out.oldName = .ok out.newName ∧ RemappedFile renamer bootstraps out.oldName old new := by
  obtain ⟨old, new, bootstraps, parsed, reparsed, listed, named, renamed, file⟩ := remapClass_ran remapped
  exact ⟨old, new, bootstraps, parsed, reparsed, listed, named, renamed, file.toRemappedFile⟩

/-- Remapping rewrites names, and only names, slot by slot.

Every constant of the old class file is followed by one of the same kind in the same slot. Classes,
references to members, method types, computed constants and call sites resolve to what the renamer gives
for what they resolved to; all others are unchanged. Fields and methods are declared in the same order
under the names that the renamer gives. Beyond the old slots there are only the texts and pairs that the
new names need. -/
theorem remapClass_renames (remapped : remapClass renamer options bytes = .ok out) :
    ∃ old new bootstraps, ClassFile.read bytes = .ok old ∧ ClassFile.read out.bytes = .ok new ∧
      BootstrapMethod.ofClassFile old = .ok bootstraps ∧ old.name = .ok out.oldName ∧
      (∀ index constant, old.pool.constant? index = some constant →
        ∃ changed, new.pool.constant? index = some changed ∧ changed.tag = constant.tag ∧
          RemappedConstant renamer bootstraps old.pool new.pool constant changed) ∧
      (∀ index constant, new.pool.constant? index = some constant →
        old.pool.constant? index = none → old.pool.count ≤ index.toNat ∧ constant.isName) ∧
      List.Forall₂ (RemappedMember renamer old.pool new.pool (renamer.mapField out.oldName))
        old.fields new.fields ∧
      List.Forall₂ (RemappedMember renamer old.pool new.pool (declaredMethodName renamer out.oldName))
        old.methods new.methods := by
  obtain ⟨old, new, bootstraps, parsed, reparsed, listed, named, -, file⟩ := remapClass_remapped remapped
  refine ⟨old, new, bootstraps, parsed, reparsed, listed, named, ?_, file.added.added, file.fields,
    file.methods⟩
  intro index constant held
  obtain ⟨changed, placed, remapped⟩ := file.constants index constant held
  exact ⟨changed, placed, remapped.tag_eq, remapped⟩

def sampleRenamer : Renamer where
  className? name := .ok (if name = "A" then some "B" else none)
  fieldName? _ _ _ := .ok none
  methodName? owner name _ := .ok (if owner = "A" ∧ name = "f" then some "g" else none)
  elementName? _ _ := .ok none

/-- The class `A` with a reference to its method `f`, which returns an `A`, and a string that happens to
be spelled like the class, with the text of its name. -/
def sampleClass : Bytes := [0xca,0xfe,0xba,0xbe,0,0,0,52,0,8,1,0,1,65,7,0,1,1,0,1,102,1,0,5,40,41,
  76,65,59,12,0,3,0,4,10,0,2,0,5,8,0,1,0,0,0,2,0,0,0,0,0,0,0,0,0,0]

/-- The class `B` with the reference remapped. The string still has its text. -/
def remappedSample : RemappedClass where
  oldName := "A"
  newName := "B"
  bytes := [0xca,0xfe,0xba,0xbe,0,0,0,52,0,12,1,0,1,65,7,0,8,1,0,1,102,1,0,5,40,41,76,65,59,12,0,3,
    0,4,10,0,2,0,11,8,0,1,1,0,1,66,1,0,1,103,1,0,5,40,41,76,66,59,12,0,9,0,10,0,0,0,2,0,0,0,0,0,0,0,
    0,0,0]

theorem remapClass_renames_sample :
    remapClass sampleRenamer {} sampleClass = .ok remappedSample ∧
      ∃ old new bootstraps, ClassFile.read sampleClass = .ok old ∧
        ClassFile.read remappedSample.bytes = .ok new ∧
        BootstrapMethod.ofClassFile old = .ok bootstraps ∧ old.name = .ok "A" ∧
        (∀ index constant, old.pool.constant? index = some constant →
          ∃ changed, new.pool.constant? index = some changed ∧ changed.tag = constant.tag ∧
            RemappedConstant sampleRenamer bootstraps old.pool new.pool constant changed) ∧
        (∀ index constant, new.pool.constant? index = some constant →
          old.pool.constant? index = none → old.pool.count ≤ index.toNat ∧ constant.isName) ∧
        List.Forall₂ (RemappedMember sampleRenamer old.pool new.pool (sampleRenamer.mapField "A"))
          old.fields new.fields ∧
        List.Forall₂ (RemappedMember sampleRenamer old.pool new.pool
          (declaredMethodName sampleRenamer "A")) old.methods new.methods := by
  have remapped : remapClass sampleRenamer {} sampleClass = .ok remappedSample := by decide +kernel
  exact ⟨remapped, remapClass_renames remapped⟩

end remapClass

end JarRemap
