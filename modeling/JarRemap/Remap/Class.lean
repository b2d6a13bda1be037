import JarRemap.Remap.Attribute
import JarRemap.Remap.Pool

/-!
# Remapping a class

The pool is remapped first, then the fields, the methods and the attributes of the class, each in order.
-/
namespace JarRemap

open PoolM

/-- A class under its new name. -/
structure RemappedClass where
  oldName : String
  newName : String
  bytes : Bytes
deriving DecidableEq

namespace RemapScope

def mapField (scope : RemapScope) (member : Member) : PoolM Member :=
  scope.mapFieldBy scope.mapAttribute member

/-- Remaps a method. A name that starts with an angle bracket is that of a constructor or an initialiser
and stays. -/
def mapMethod (scope : RemapScope) (member : Member) : PoolM Member := do
  let name ← scope.old.text member.name
  let descriptor ← scope.old.text member.descriptor
  let nameIndex ←
    if Text.startsWith '<' name then pure member.name
    else do
      let newName ← scope.renamer.mapMethod scope.owner name descriptor
      scope.keepText member.name newName
  let newDescriptor ← scope.renamer.mapDescriptor descriptor
  let descriptorIndex ← scope.keepText member.descriptor newDescriptor
  let attributes ← within (.attributesOfMethod name descriptor)
    (scope.mapAttributes member.attributes)
  return { member with name := nameIndex, descriptor := descriptorIndex, attributes }

/-- Remaps everything in a class file apart from its pool indices of classes, which stay. -/
def mapFile (scope : RemapScope) (file : ClassFile) :
    PoolM (List Member × List Member × List Attribute) := do
  within (.poolOf scope.owner) scope.mapPool
  let fields ← file.fields.mapM fun member =>
    within (.fieldOf scope.owner) (scope.mapField member)
  let methods ← file.methods.mapM fun member =>
    within (.methodOf scope.owner) (scope.mapMethod member)
  let attributes ← within (.attributesOf scope.owner) (scope.mapAttributes file.attributes)
  return (fields, methods, attributes)

end RemapScope

def remapClass (renamer : Renamer) (options : RemapOptions) (bytes : Bytes) :
    Outcome RemappedClass := do
  let file ← ClassFile.read bytes
  let bootstraps ← BootstrapMethod.ofClassFile file
  let owner ← file.name
  let newOwner ← renamer.mapClass owner
  let scope : RemapScope := { old := file.pool, renamer, options, owner, newOwner, bootstraps }
  let (outcome, pool) := scope.mapFile file file.pool
  let (fields, methods, attributes) ← outcome
  let bytes ← { file with pool, fields, methods, attributes }.toBytes
  return { oldName := owner, newName := newOwner, bytes }

end JarRemap
