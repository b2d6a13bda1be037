import JarRemap.Proofs.ChainedTables
import JarRemap.Proofs.ClassRemapping

/-!
# References and declarations under any renamer

A reference is remapped in the pool, by the class it goes through, and a declaration in its list of members, by the
class that declares it. Both are told here by the names that can be read in the class file before and after, so
that they can be compared even if they stand in different class files.
-/
namespace JarRemap

open List ConstantPool Constant

variable {pool : ConstantPool}

/-- What a constant stands for. -/
inductive Symbol where
  | classRef (name : String)
  | member (member : MemberSymbol)
  | methodType (descriptor : String)
deriving DecidableEq

/-- The constants that stand for a class, a member or the type of a method. -/
def Constant.isSymbol : Constant → Bool
  | .classRef _ | .fieldRef .. | .methodRef .. | .interfaceMethodRef .. | .methodType _ => true
  | _ => false

namespace ConstantPool

def memberSymbol? (pool : ConstantPool) (kind : MemberKind) (owner pair : UInt16) : Option Symbol := do
  let owner ← (pool.className owner).toOption
  let (name, descriptor) ← (pool.nameAndType pair).toOption
  return .member { kind, owner, name, descriptor }

/-- The symbol that a constant stands for, if all its names can be read. -/
def symbol? (pool : ConstantPool) : Constant → Option Symbol
  | .classRef slot => (pool.text slot).toOption.map .classRef
  | .fieldRef owner pair => pool.memberSymbol? .field owner pair
  | .methodRef owner pair => pool.memberSymbol? .method owner pair
  | .interfaceMethodRef owner pair => pool.memberSymbol? .method owner pair
  | .methodType slot => (pool.text slot).toOption.map .methodType
  | _ => none

def symbolAt? (pool : ConstantPool) (index : UInt16) : Option Symbol :=
  (pool.constant? index).bind pool.symbol?

theorem memberSymbol?_eq_some {kind : MemberKind} {owner pair : UInt16}
    {ownerName name descriptor : String} (ownerRead : pool.className owner = .ok ownerName)
    (pairRead : pool.nameAndType pair = .ok (name, descriptor)) :
    pool.memberSymbol? kind owner pair = some (.member ⟨kind, ownerName, name, descriptor⟩) := by
  simp [memberSymbol?, ownerRead, pairRead, Except.toOption]

end ConstantPool

def Member.signature? (pool : ConstantPool) (member : Member) : Option (String × String) := do
  let name ← (pool.text member.name).toOption
  let descriptor ← (pool.text member.descriptor).toOption
  return (name, descriptor)

namespace ClassFile

def declared (file : ClassFile) : MemberKind → List Member
  | .field => file.fields
  | .method => file.methods

/-- The names and descriptors of the declared members of one kind, in order. -/
def signatures (file : ClassFile) (kind : MemberKind) : List (Option (String × String)) :=
  (file.declared kind).map (Member.signature? file.pool)

end ClassFile

theorem ConstantPool.isSymbol_of_symbol? {constant : Constant} {symbol : Symbol}
    (read : pool.symbol? constant = some symbol) : constant.isSymbol := by
  cases constant <;> first | rfl | cases read

def Renamer.mapMember (renamer : Renamer) : MemberKind → (owner name descriptor : String) → Outcome String
  | .field => renamer.mapField
  | .method => renamer.mapMethod

def declaredMemberName (renamer : Renamer) (owner : String) :
    MemberKind → (name descriptor : String) → Outcome String
  | .field => renamer.mapField owner
  | .method => declaredMethodName renamer owner

inductive Symbol.Renamed (renamer : Renamer) : Symbol → Symbol → Prop
  | classRef {name newName : String} (mapped : renamer.mapClassOrArray name = .ok newName) :
    Renamed renamer (.classRef name) (.classRef newName)
  | member {kind : MemberKind} {owner newOwner name newName descriptor newDescriptor : String}
    (owned : renamer.mapClassOrArray owner = .ok newOwner)
    (named : referenceName (renamer.mapMember kind) owner name descriptor = .ok newName)
    (mapped : renamer.mapDescriptor descriptor = .ok newDescriptor) :
    Renamed renamer (.member ⟨kind, owner, name, descriptor⟩) (.member ⟨kind, newOwner, newName, newDescriptor⟩)
  | methodType {descriptor newDescriptor : String} (mapped : renamer.mapDescriptor descriptor = .ok newDescriptor) :
    Renamed renamer (.methodType descriptor) (.methodType newDescriptor)

namespace RemappedFile

variable {renamer : Renamer} {bootstraps : List BootstrapMethod} {owner name descriptor ownerName : String}
  {old new : ClassFile} {kind : MemberKind} {index : UInt16} {constant : Constant}
  (file : RemappedFile renamer bootstraps owner old new)
include file

theorem memberSymbol?_renamed (kind : MemberKind) {ownerIndex pair newPair : UInt16}
    (remapped : RemappedReference renamer old.pool new.pool (renamer.mapMember kind) ownerIndex pair newPair) :
    ∃ symbol newSymbol, old.pool.memberSymbol? kind ownerIndex pair = some symbol ∧
      new.pool.memberSymbol? kind ownerIndex newPair = some newSymbol ∧ symbol.Renamed renamer newSymbol := by
  obtain ⟨ownerName, ownerRead, name, descriptor, newName, newDescriptor, pairRead, named, mapped, written⟩ := remapped
  obtain ⟨newOwner, owned, ownerWritten⟩ := file.className_eq ownerRead
  exact ⟨_, _, memberSymbol?_eq_some ownerRead pairRead,
    memberSymbol?_eq_some ownerWritten written, .member owned named mapped⟩

theorem symbol?_renamed (held : old.pool.constant? index = some constant) (names : constant.isSymbol) :
    ∃ symbol changed newSymbol, old.pool.symbol? constant = some symbol ∧ new.pool.constant? index = some changed ∧
      changed.isSymbol ∧ new.pool.symbol? changed = some newSymbol ∧ symbol.Renamed renamer newSymbol := by
  obtain ⟨changed, placed, remapped⟩ := file.constants index constant held
  cases remapped with
  | classRef read mapped written =>
    refine ⟨_, _, _, ?_, placed, rfl, ?_, .classRef mapped⟩ <;> simp [symbol?, read, written, Except.toOption]
  | fieldRef remapped =>
    obtain ⟨_, _, read, written, renamed⟩ := file.memberSymbol?_renamed .field remapped
    exact ⟨_, _, _, read, placed, rfl, written, renamed⟩
  | methodRef remapped | interfaceMethodRef remapped =>
    obtain ⟨_, _, read, written, renamed⟩ := file.memberSymbol?_renamed .method remapped
    exact ⟨_, _, _, read, placed, rfl, written, renamed⟩
  | methodType read mapped written =>
    refine ⟨_, _, _, ?_, placed, rfl, ?_, .methodType mapped⟩ <;> simp [symbol?, read, written, Except.toOption]
  | dynamic | invokeDynamic => simp [isSymbol] at names
  | other nameless => cases constant <;> simp_all [isSymbol, namesSymbol]

theorem symbolAt?_eq (read : old.pool.symbolAt? index = some (.member ⟨kind, ownerName, name, descriptor⟩)) :
    ∃ newOwner newName newDescriptor, referenceName (renamer.mapMember kind) ownerName name descriptor = .ok newName ∧
      renamer.mapDescriptor descriptor = .ok newDescriptor ∧
      new.pool.symbolAt? index = some (.member ⟨kind, newOwner, newName, newDescriptor⟩) := by
  obtain ⟨constant, held, read⟩ := Option.bind_eq_some_iff.mp read
  obtain ⟨_, changed, newSymbol, again, placed, -, written, renamed⟩ :=
    file.symbol?_renamed held (isSymbol_of_symbol? read)
  obtain rfl := Option.mem_unique read again
  rw [symbolAt?, placed, Option.bind_some, written]
  cases renamed with
  | member _ named mapped => exact ⟨_, _, _, named, mapped, rfl⟩

theorem signatures_renamed (kind : MemberKind) : Forall₂ (fun before after => ∃ name descriptor newName newDescriptor,
      before = some (name, descriptor) ∧ after = some (newName, newDescriptor) ∧
      declaredMemberName renamer owner kind name descriptor = .ok newName ∧
      renamer.mapDescriptor descriptor = .ok newDescriptor) (old.signatures kind) (new.signatures kind) := by
  have related : Forall₂ (RemappedMember renamer old.pool new.pool (declaredMemberName renamer owner kind))
      (old.declared kind) (new.declared kind) := by
    cases kind with
    | field => exact file.fields
    | method => exact file.methods
  rw [ClassFile.signatures, ClassFile.signatures, forall₂_map_left_iff, forall₂_map_right_iff]
  refine related.imp ?_
  rintro before after ⟨-, name, descriptor, newName, newDescriptor, nameRead, descriptorRead, named, mapped,
    nameWritten, descriptorWritten⟩
  refine ⟨name, descriptor, newName, newDescriptor, ?_, ?_, named, mapped⟩ <;>
    simp [Member.signature?, nameRead, descriptorRead, nameWritten, descriptorWritten, Except.toOption]

theorem signatures_getElem? {position : Nat}
    (declared : (old.signatures kind)[position]? = some (some (name, descriptor))) :
    ∃ newName newDescriptor, declaredMemberName renamer owner kind name descriptor = .ok newName ∧
      renamer.mapDescriptor descriptor = .ok newDescriptor ∧
      (new.signatures kind)[position]? = some (some (newName, newDescriptor)) := by
  have related := file.signatures_renamed kind
  obtain ⟨_, redeclared⟩ := forall₂_exists_getElem? related declared
  obtain ⟨_, _, newName, newDescriptor, ⟨⟩, rfl, named, mapped⟩ := forall₂_getElem? related declared redeclared
  exact ⟨newName, newDescriptor, named, mapped, redeclared⟩

end RemappedFile

end JarRemap
