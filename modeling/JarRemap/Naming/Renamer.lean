import JarRemap.Failure

/-!
# Renamers

A renamer answers what a symbol is called in another namespace. It is asked with names, owners and
descriptors of the namespace it renames from. A symbol it has no answer for keeps its name. Names of
classes are internal names, with slashes between packages.
-/
namespace JarRemap

/-- Answers questions about new names; `none` means that the symbol is not renamed. -/
structure Renamer where
  className? : (name : String) → Outcome (Option String)
  fieldName? : (owner name descriptor : String) → Outcome (Option String)
  methodName? : (owner name descriptor : String) → Outcome (Option String)
  /-- Annotations give only the name of an element, not its descriptor. -/
  elementName? : (owner name : String) → Outcome (Option String)

namespace Renamer

def keep : Renamer where
  className? _ := .ok none
  fieldName? _ _ _ := .ok none
  methodName? _ _ _ := .ok none
  elementName? _ _ := .ok none

def mapClass (renamer : Renamer) (name : String) : Outcome String := do
  return (← renamer.className? name).getD name

def mapField (renamer : Renamer) (owner name descriptor : String) : Outcome String := do
  return (← renamer.fieldName? owner name descriptor).getD name

def mapMethod (renamer : Renamer) (owner name descriptor : String) : Outcome String := do
  return (← renamer.methodName? owner name descriptor).getD name

end Renamer

end JarRemap
