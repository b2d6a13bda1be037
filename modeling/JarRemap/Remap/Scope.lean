import JarRemap.ClassFile.Basic
import JarRemap.Naming.Descriptor
import JarRemap.Naming.Signature

/-!
# Renaming within a class file

While a class is remapped, all old names are read from the pool as it was, and new names are put into the
pool as it becomes. A text that does not change keeps its slot. This is why remapping that changes no
name gives back the same bytes.
-/
namespace JarRemap

open Reader

/-- Choices of a remapping. -/
structure RemapOptions where
  /-- Name the source file of a renamed class after its new outermost class. -/
  rebuildSourceFile : Bool := true
  /-- Rename local variables whose names are no identifiers. -/
  renameInvalidLocals : Bool := false
deriving DecidableEq

/-- An entry of the attribute that lists the bootstrap methods. -/
structure BootstrapMethod where
  handle : UInt16
  arguments : List UInt16
deriving DecidableEq

namespace BootstrapMethod

def read : Reader BootstrapMethod := do
  let handle ← u16
  let arguments ← list u16
  return { handle, arguments }

/-- The bootstrap methods of a class file; none if it has no such attribute. -/
def ofClassFile (file : ClassFile) : Outcome (List BootstrapMethod) := do
  match ← ClassFile.findAttribute? file.pool "BootstrapMethods" file.attributes with
  | none => return []
  | some item => Outcome.within .bootstrapMethods ((·.1) <$> list read item.info)

end BootstrapMethod

/-- What the renaming within one class refers to. -/
structure RemapScope where
  /-- The pool as it was. -/
  old : ConstantPool
  renamer : Renamer
  options : RemapOptions
  /-- The name of the class. -/
  owner : String
  /-- The new name of the class. -/
  newOwner : String
  bootstraps : List BootstrapMethod

namespace RemapScope

/-- The index itself if it held the text, or else the slot of the text. -/
def keepText (scope : RemapScope) (index : UInt16) (new : String) : PoolM UInt16 := do
  if (← scope.old.text index) = new then return index else ConstantPool.putText new

/-- The index itself if it held the name and the descriptor, or else the slot of the pair. -/
def keepNameAndType (scope : RemapScope) (index : UInt16) (name descriptor : String) :
    PoolM UInt16 := do
  let (oldName, oldDescriptor) ← scope.old.nameAndType index
  if oldName = name ∧ oldDescriptor = descriptor then return index
  else ConstantPool.putNameAndType name descriptor

/-- The slot of a descriptor after its classes are renamed. -/
def mapDescriptorAt (scope : RemapScope) (index : UInt16) : PoolM UInt16 := do
  let descriptor ← scope.old.text index
  let mapped ← scope.renamer.mapDescriptor descriptor
  scope.keepText index mapped

end RemapScope

/-- Goes through the bytes of an attribute from front to back, putting constants into the pool on the way. -/
abbrev AttributeM := StateT Bytes PoolM

namespace AttributeM

variable {α : Type}

def fail (cause : Cause) : AttributeM α := fun _ => PoolM.fail cause

def take (reader : Reader α) : AttributeM α := fun input => PoolM.ofOutcome (reader input)

/-- Runs `element` as often as told, after the results in `done`, which are held latest first. -/
def timesFrom (done : List α) (element : AttributeM α) : Nat → AttributeM (List α)
  | 0 => pure done.reverse
  | count + 1 => do
    let next ← element
    timesFrom (next :: done) element count

def list (element : AttributeM Bytes) : AttributeM Bytes := do
  let count ← take u16
  let written ← timesFrom [] element count.toNat
  return u16Bytes count ++ written.flatten

/-- Renews all bytes of an attribute. Bytes that are left over are a failure. -/
def all (act : AttributeM Bytes) (info : Bytes) : PoolM Bytes := do
  let (written, rest) ← act info
  if rest.isEmpty then return written else PoolM.fail (.attributeTrailingBytes rest.length)

end AttributeM

end JarRemap
