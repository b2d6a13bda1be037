import JarRemap.Proofs.RemappedSymbols

/-!
# Remapping with a table

A table has an answer to every question, so what remapping with it does to a class file can be told as a
function on names: on the symbol that each constant stands for, and on the name and the descriptor of each
declared field and method.
-/
namespace JarRemap

open Descriptor Text

namespace MappingTable

variable (table : MappingTable)

/-- The new name of a class, or of an array, which is renamed like a descriptor. -/
def classOrArrayName (name : String) : String :=
  if startsWith '[' name then rename table.className name else table.className name

/-- The new name of a member that a constant refers to. -/
def referencedName (member : MemberSymbol) : String :=
  if startsWith '[' member.owner ∨ startsWith '<' member.name then member.name
  else table.memberName member.kind member.owner member.name member.descriptor

/-- The new name of a member that is declared. -/
def declaredName (member : MemberSymbol) : String :=
  if member.kind = .method ∧ startsWith '<' member.name then member.name
  else table.memberName member.kind member.owner member.name member.descriptor

def mapSymbol : Symbol → Symbol
  | .classRef name => .classRef (table.classOrArrayName name)
  | .member member => .member { member with
      owner := table.classOrArrayName member.owner
      name := table.referencedName member
      descriptor := rename table.className member.descriptor }
  | .methodType descriptor => .methodType (rename table.className descriptor)

def mapSignature (kind : MemberKind) (owner : String) (signature : String × String) : String × String :=
  (table.declaredName ⟨kind, owner, signature.1, signature.2⟩, rename table.className signature.2)

variable {table} {name : String}

theorem classOrArrayName_of_array (array : startsWith '[' name) :
    table.classOrArrayName name = rename table.className name := if_pos array

theorem classOrArrayName_of_plain (plain : ¬ startsWith '[' name) :
    table.classOrArrayName name = table.className name := if_neg plain

end MappingTable

def CompleteClass (name : String) : Prop := startsWith '[' name → Complete name

def Symbol.Complete : Symbol → Prop
  | .classRef name => CompleteClass name
  | .member reference => CompleteClass reference.owner ∧ Descriptor.Complete reference.descriptor
  | .methodType descriptor => Descriptor.Complete descriptor

namespace MappingTable

variable {table : MappingTable} {bootstraps : List BootstrapMethod} {owner name newName : String}
  {old new : ClassFile} {index : UInt16} {constant changed : Constant}

theorem mapClassOrArray_eq_ok : table.renamer.mapClassOrArray name = .ok newName ↔
      CompleteClass name ∧ newName = table.classOrArrayName name := by
  by_cases array : startsWith '[' name
  · simpa [Renamer.mapClassOrArray, CompleteClass, classOrArrayName, array] using
      Renamer.mapDescriptor_total table.renamer_mapClass
  · simp [Renamer.mapClassOrArray, CompleteClass, classOrArrayName, array, eq_comm]

theorem renamer_mapMember (kind : MemberKind) (owner name descriptor : String) :
    table.renamer.mapMember kind owner name descriptor = .ok (table.memberName kind owner name descriptor) := by
  cases kind with
  | field => exact table.renamer_mapField owner name descriptor
  | method => exact table.renamer_mapMethod owner name descriptor

theorem eq_of_renamed {symbol newSymbol : Symbol} (renamed : symbol.Renamed table.renamer newSymbol) :
    symbol.Complete ∧ table.mapSymbol symbol = newSymbol := by
  cases renamed with
  | classRef mapped =>
    obtain ⟨complete, rfl⟩ := mapClassOrArray_eq_ok.mp mapped
    exact ⟨complete, rfl⟩
  | member owned named mapped =>
    obtain ⟨ownerComplete, rfl⟩ := mapClassOrArray_eq_ok.mp owned
    obtain ⟨complete, rfl⟩ := mapDescriptor_eq_ok.mp mapped
    simp only [referenceName, renamer_mapMember, ← apply_ite Except.ok, Except.ok.injEq] at named
    rw [← named]
    exact ⟨⟨ownerComplete, complete⟩, rfl⟩
  | methodType mapped =>
    obtain ⟨complete, rfl⟩ := mapDescriptor_eq_ok.mp mapped
    exact ⟨complete, rfl⟩

theorem declaredMemberName_eq (kind : MemberKind) (owner name descriptor : String) :
    declaredMemberName table.renamer owner kind name descriptor =
      .ok (table.declaredName ⟨kind, owner, name, descriptor⟩) := by
  cases kind with
  | field => simp [declaredMemberName, declaredName]
  | method =>
    by_cases special : startsWith '<' name <;> simp [declaredMemberName, declaredMethodName, declaredName, special]

variable (file : RemappedFile table.renamer bootstraps owner old new)
include file

theorem name_remapped (named : old.name = .ok name) :
    CompleteClass name ∧ new.name = .ok (table.classOrArrayName name) := by
  obtain ⟨_, mapped, written⟩ := file.className_eq named
  obtain ⟨complete, rfl⟩ := mapClassOrArray_eq_ok.mp mapped
  rw [ClassFile.name, file.classes.1]
  exact ⟨complete, written⟩

theorem symbolAt?_remapped (held : old.pool.constant? index = some constant) (names : constant.isSymbol) :
    ∃ symbol changed, old.pool.symbol? constant = some symbol ∧ symbol.Complete ∧
      new.pool.constant? index = some changed ∧ changed.isSymbol ∧
      new.pool.symbol? changed = some (table.mapSymbol symbol) := by
  obtain ⟨symbol, changed, _, read, placed, isSymbol, written, renamed⟩ := file.symbol?_renamed held names
  obtain ⟨complete, rfl⟩ := eq_of_renamed renamed
  exact ⟨symbol, changed, read, complete, placed, isSymbol, written⟩

theorem signatures_remapped (kind : MemberKind) :
    (∀ signature ∈ old.signatures kind, ∃ name descriptor, signature = some (name, descriptor) ∧ Complete descriptor) ∧
    new.signatures kind = (old.signatures kind).map (Option.map (table.mapSignature kind owner)) := by
  have related := file.signatures_renamed kind
  generalize old.signatures kind = befores, new.signatures kind = afters at related
  induction related with
  | nil => simp
  | cons head _ ih =>
    obtain ⟨name, descriptor, newName, newDescriptor, rfl, rfl, named, mapped⟩ := head
    obtain ⟨complete, rfl⟩ := mapDescriptor_eq_ok.mp mapped
    rw [declaredMemberName_eq, Except.ok.injEq] at named
    simpa [mapSignature, ← named, complete] using ih

end MappingTable

end JarRemap
