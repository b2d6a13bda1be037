import JarRemap.Remap.Scope

/-!
# Remapping annotations

An annotation has a type and named elements. The value of an element is a constant, an enum constant, a
class, an annotation, or a list of values. Types and classes are renamed as descriptors, enum constants as
fields, and element names as the methods of the annotation's type.

Values nest; `fuel` bounds the depth. Every level takes at least one byte, so one more than the number of
bytes is enough.
-/
namespace JarRemap.RemapScope

open AttributeM Reader

/-- The tags of values that are a constant of the pool. -/
def constantTags : List UInt8 := "BCDFIJSZs".toList.map fun c => c.toNat.toUInt8

/-- The slot of an element's name in an annotation of the given type. -/
def mapElementName (scope : RemapScope) (owner : String) (index : UInt16) : PoolM UInt16 := do
  let name ← scope.old.text index
  match ← (scope.renamer.elementName? owner name : PoolM (Option String)) with
  | some newName => scope.keepText index newName
  | none => return index

def mapEnumConstant (scope : RemapScope) (typeIndex nameIndex : UInt16) :
    PoolM (UInt16 × UInt16) := do
  let descriptor ← scope.old.text typeIndex
  let name ← scope.old.text nameIndex
  let newName ← scope.renamer.mapField (Descriptor.className descriptor) name descriptor
  let newDescriptor ← scope.renamer.mapDescriptor descriptor
  let newTypeIndex ← scope.keepText typeIndex newDescriptor
  let newNameIndex ← scope.keepText nameIndex newName
  return (newTypeIndex, newNameIndex)

mutual

def mapAnnotationTree (scope : RemapScope) : (fuel : Nat) → AttributeM Bytes
  | 0 => fail .nestingTooDeep
  | fuel + 1 => do
    let typeIndex ← take u16
    let descriptor ← scope.old.text typeIndex
    let newTypeIndex ← scope.mapDescriptorAt typeIndex
    let elements ← list do
      let nameIndex ← take u16
      let newNameIndex ← scope.mapElementName (Descriptor.className descriptor) nameIndex
      let value ← mapElementValue scope fuel
      return u16Bytes newNameIndex ++ value
    return u16Bytes newTypeIndex ++ elements

def mapElementValue (scope : RemapScope) : (fuel : Nat) → AttributeM Bytes
  | 0 => fail .nestingTooDeep
  | fuel + 1 => do
    let tag ← take u8
    if constantTags.contains tag then
      let index ← take u16
      return tag :: u16Bytes index
    else if tag = 'e'.toNat.toUInt8 then
      let typeIndex ← take u16
      let nameIndex ← take u16
      let (newTypeIndex, newNameIndex) ← scope.mapEnumConstant typeIndex nameIndex
      return tag :: u16Bytes newTypeIndex ++ u16Bytes newNameIndex
    else if tag = 'c'.toNat.toUInt8 then
      let index ← take u16
      let newIndex ← scope.mapDescriptorAt index
      return tag :: u16Bytes newIndex
    else if tag = '@'.toNat.toUInt8 then
      let nested ← mapAnnotationTree scope fuel
      return tag :: nested
    else if tag = '['.toNat.toUInt8 then
      let values ← list (mapElementValue scope fuel)
      return tag :: values
    else fail (.unknownElementTag tag)

end

def mapAnnotations (scope : RemapScope) (fuel : Nat) : AttributeM Bytes :=
  list (scope.mapAnnotationTree fuel)

/-- Renews the lists of annotations of all parameters of a method. -/
def mapParameterAnnotations (scope : RemapScope) (fuel : Nat) : AttributeM Bytes := do
  let count ← take u8
  let written ← timesFrom [] (scope.mapAnnotations fuel) count.toNat
  return u8Bytes count ++ written.flatten

end JarRemap.RemapScope
