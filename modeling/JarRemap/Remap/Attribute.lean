import JarRemap.ClassFile.Code
import JarRemap.Remap.Annotation
import JarRemap.Remap.Identifier

/-!
# Remapping attributes

Attributes that hold names are renewed; all others, type annotations among them, are kept byte for byte.
A renewed attribute has to be read to its last byte, with the exception of code, whose surplus bytes are
dropped.

Code and record components have attributes of their own. Those are shorter than the attribute they are in,
so the number of bytes bounds the depth.
-/
namespace JarRemap

open AttributeM Reader Text

/-- The attributes that hold names. -/
inductive AttributeKind where
  | code
  | signature
  | localVariables (generic : Bool)
  | innerClasses
  | enclosingMethod
  | annotations
  | parameterAnnotations
  | annotationDefault
  | recordComponents
  | sourceFile
deriving DecidableEq

namespace AttributeKind

/-- The kind of the attribute with the given name, if it holds names. -/
def ofName? (name : String) : Option AttributeKind :=
  match name with
  | "Code" => some .code
  | "Signature" => some .signature
  | "LocalVariableTable" => some (.localVariables false)
  | "LocalVariableTypeTable" => some (.localVariables true)
  | "InnerClasses" => some .innerClasses
  | "EnclosingMethod" => some .enclosingMethod
  | "RuntimeVisibleAnnotations" | "RuntimeInvisibleAnnotations" => some .annotations
  | "RuntimeVisibleParameterAnnotations" | "RuntimeInvisibleParameterAnnotations" =>
    some .parameterAnnotations
  | "AnnotationDefault" => some .annotationDefault
  | "Record" => some .recordComponents
  | "SourceFile" => some .sourceFile
  | _ => none

end AttributeKind

namespace RemapScope

/-- The slot of a signature after its classes are renamed. -/
def mapSignatureAt (scope : RemapScope) (index : UInt16) : PoolM UInt16 := do
  let signature ← scope.old.text index
  let mapped ← scope.renamer.mapSignature signature
  scope.keepText index mapped

def mapSignatureAttribute (scope : RemapScope) : AttributeM Bytes := do
  let index ← take u16
  let newIndex ← scope.mapSignatureAt index
  return u16Bytes newIndex

/-- The slot of a local variable's name. A name that is no identifier is replaced by one made of the
variable's number, if the options ask for it. -/
def mapLocalName (scope : RemapScope) (index number : UInt16) : PoolM UInt16 := do
  if !scope.options.renameInvalidLocals then return index
  else if isIdentifier (← scope.old.text index) then return index
  else scope.keepText index s!"lv{number.toNat}"

/-- Renews a table of local variables, whose types are signatures if it is `generic` and descriptors
otherwise. -/
def mapLocalVariables (scope : RemapScope) (generic : Bool) : AttributeM Bytes :=
  list do
    let start ← take u16
    let length ← take u16
    let nameIndex ← take u16
    let typeIndex ← take u16
    let number ← take u16
    let type ← scope.old.text typeIndex
    let mapped ← if generic then scope.renamer.mapSignature type else scope.renamer.mapDescriptor type
    let newNameIndex ← scope.mapLocalName nameIndex number
    let newTypeIndex ← scope.keepText typeIndex mapped
    return u16Bytes start ++ u16Bytes length ++ u16Bytes newNameIndex ++ u16Bytes newTypeIndex ++
      u16Bytes number

/-- The simple name that an inner class has by its full name: what follows the outer class and a `$`, or
else what follows the last `$`, or else what follows the last slash. -/
def simpleName (inner : String) (outer : Option String) : String :=
  let afterOuter := outer.bind fun outer => stripStart? (outer ++ "$") inner
  match afterOuter with
  | some name => name
  | none =>
    match cutLast? '$' inner.toList with
    | some (_, name) => String.ofList name
    | none => afterLast '/' inner

/-- The slot of an inner class's simple name. It follows the new name of the class if the old one followed
the old name in the same way. -/
def mapSimpleName (scope : RemapScope) (innerIndex outerIndex nameIndex : UInt16) :
    PoolM UInt16 := do
  if nameIndex = 0 then return 0
  else
    let oldInner ← scope.old.className innerIndex
    let pool ← get
    let newInner ← pool.className innerIndex
    if oldInner = newInner then return nameIndex
    else
      let oldOuter ← scope.old.className? outerIndex
      let newOuter ← pool.className? outerIndex
      if simpleName oldInner oldOuter ≠ (← scope.old.text nameIndex) then return nameIndex
      else scope.keepText nameIndex (simpleName newInner newOuter)

/-- Renews the list of inner classes. The classes in it are constants of the pool, which are remapped
there. -/
def mapInnerClasses (scope : RemapScope) : AttributeM Bytes :=
  list do
    let innerIndex ← take u16
    let outerIndex ← take u16
    let nameIndex ← take u16
    let flags ← take u16
    let newNameIndex ← scope.mapSimpleName innerIndex outerIndex nameIndex
    return u16Bytes innerIndex ++ u16Bytes outerIndex ++ u16Bytes newNameIndex ++ u16Bytes flags

/-- The slot of the method that encloses a class; zero stands for none. -/
def mapEnclosing (scope : RemapScope) (ownerIndex methodIndex : UInt16) : PoolM UInt16 := do
  if methodIndex = 0 then return 0
  else
    let owner ← scope.old.className ownerIndex
    let (name, descriptor) ← scope.old.nameAndType methodIndex
    let newName ← scope.renamer.mapMethod owner name descriptor
    let newDescriptor ← scope.renamer.mapDescriptor descriptor
    scope.keepNameAndType methodIndex newName newDescriptor

/-- Renews the attribute that names the enclosing method. -/
def mapEnclosingMethod (scope : RemapScope) : AttributeM Bytes := do
  let ownerIndex ← take u16
  let methodIndex ← take u16
  let newMethodIndex ← scope.mapEnclosing ownerIndex methodIndex
  return u16Bytes ownerIndex ++ u16Bytes newMethodIndex

/-- The source file of a class: its outermost simple name with the extension of the language. -/
def sourceFileOf (className : String) : String :=
  beforeFirst '$' (afterLast '/' className) ++ ".java"

def mapSourceFile (scope : RemapScope) : AttributeM Bytes := do
  let index ← take u16
  let newIndex ← scope.keepText index (sourceFileOf scope.newOwner)
  return u16Bytes newIndex

/-- Renews attributes one after another. `renew` gives the new content of an attribute, or nothing if
it stays. -/
def mapAttributesBy (scope : RemapScope) (renew : String → Bytes → PoolM (Option Bytes))
    (items : List Attribute) : PoolM (List Attribute) :=
  items.mapM fun item => do
    let name ← scope.old.text item.name
    match ← PoolM.within (.attribute name) (renew name item.info) with
    | some info => return { item with info }
    | none => return item

/-- Remaps a field, or a record component, which is named like its field. -/
def mapFieldBy (scope : RemapScope) (renew : String → Bytes → PoolM (Option Bytes))
    (member : Member) : PoolM Member := do
  let name ← scope.old.text member.name
  let descriptor ← scope.old.text member.descriptor
  let newName ← scope.renamer.mapField scope.owner name descriptor
  let newDescriptor ← scope.renamer.mapDescriptor descriptor
  let nameIndex ← scope.keepText member.name newName
  let descriptorIndex ← scope.keepText member.descriptor newDescriptor
  let attributes ← PoolM.within (.attributesOfField name descriptor)
    (scope.mapAttributesBy renew member.attributes)
  return { member with name := nameIndex, descriptor := descriptorIndex, attributes }

def mapRecord (scope : RemapScope) (renew : String → Bytes → PoolM (Option Bytes)) :
    AttributeM Bytes :=
  list do
    let name ← take u16
    let descriptor ← take u16
    let attributes ← take (list Attribute.read)
    let component ← scope.mapFieldBy renew { access := 0, name, descriptor, attributes }
    let written ← listBytes Attribute.toBytes component.attributes
    return u16Bytes component.name ++ u16Bytes component.descriptor ++ written

/-- The new content of an attribute, or nothing if it stays. -/
def mapInfo (scope : RemapScope) : (fuel : Nat) → String → Bytes → PoolM (Option Bytes)
  | 0, _, _ => PoolM.fail .nestingTooDeep
  | fuel + 1, name, info =>
    let depth := info.length + 1
    match AttributeKind.ofName? name with
    | none => return none
    | some .code => do
      let code ← Code.read info
      let attributes ← scope.mapAttributesBy (mapInfo scope fuel) code.attributes
      return some (← { code with attributes }.toBytes)
    | some .signature => some <$> all scope.mapSignatureAttribute info
    | some (.localVariables generic) => some <$> all (scope.mapLocalVariables generic) info
    | some .innerClasses => some <$> all scope.mapInnerClasses info
    | some .enclosingMethod => some <$> all scope.mapEnclosingMethod info
    | some .annotations => some <$> all (scope.mapAnnotations depth) info
    | some .parameterAnnotations => some <$> all (scope.mapParameterAnnotations depth) info
    | some .annotationDefault => some <$> all (scope.mapElementValue depth) info
    | some .recordComponents => some <$> all (scope.mapRecord (mapInfo scope fuel)) info
    | some .sourceFile =>
      if scope.options.rebuildSourceFile && scope.owner != scope.newOwner then
        some <$> all scope.mapSourceFile info
      else return none

/-- The new content of an attribute, or nothing if it stays. -/
def mapAttribute (scope : RemapScope) (name : String) (info : Bytes) : PoolM (Option Bytes) :=
  scope.mapInfo (info.length + 1) name info

def mapAttributes (scope : RemapScope) (items : List Attribute) : PoolM (List Attribute) :=
  scope.mapAttributesBy scope.mapAttribute items

end RemapScope

end JarRemap
