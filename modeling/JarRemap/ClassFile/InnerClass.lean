import JarRemap.ClassFile.Basic
import JarRemap.Failure.Message

/-!
# Inner classes

The attribute that lists the inner classes a class mentions, resolved to names.
-/
namespace JarRemap

open Reader

/-- An inner class, with its outer class and its simple name if they are known. -/
structure InnerClass where
  inner : String
  outer : Option String
  simpleName : Option String
  flags : UInt16
deriving DecidableEq

namespace InnerClass

/-- Reads one inner class and looks up its names in the pool. -/
def read (pool : ConstantPool) : Reader InnerClass := do
  let innerIndex ← u16
  let inner ← pool.className innerIndex
  let outerIndex ← u16
  let outer ← pool.className? outerIndex
  let nameIndex ← u16
  let simpleName ← if nameIndex = 0 then pure none else some <$> (pool.text nameIndex : Reader String)
  let flags ← u16
  return { inner, outer, simpleName, flags }

end InnerClass

namespace ClassFile

/-- A class's name as messages show it, whether or not it could be read. -/
def shownName : Outcome String → String
  | .ok name => s!"Ok({Text.quoted name})"
  | .error failure => s!"Err({failure.report})"

/-- The inner classes that the class file lists; none if it has no such attribute. -/
def innerClasses (file : ClassFile) : Outcome (List InnerClass) := do
  match ← findAttribute? file.pool "InnerClasses" file.attributes with
  | none => return []
  | some item =>
    Outcome.within (.innerClassesOf (shownName file.name))
      ((·.1) <$> list (InnerClass.read file.pool) item.info)

end ClassFile

end JarRemap
