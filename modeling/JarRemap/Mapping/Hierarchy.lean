import JarRemap.ClassFile.Basic
import JarRemap.Mapping.Table

/-!
# Class hierarchies and inherited members

A reference names the class it goes through, which need not be the class that declares the member. A
mapping table knows only the declaring class. The renamer of this module therefore looks for a member on
the class itself, then on its super class and interfaces, and so on upwards, depth first and left to
right. No class is looked at twice, so cycles do no harm.
-/
namespace JarRemap

structure ClassHierarchy where
  supers : OrderedMap String (List String)

namespace ClassHierarchy

def empty : ClassHierarchy := ⟨∅⟩

def size (hierarchy : ClassHierarchy) : Nat := hierarchy.supers.size

def insert (hierarchy : ClassHierarchy) (name : String) (superName : Option String)
    (interfaces : List String) : ClassHierarchy :=
  if hierarchy.supers.contains name then hierarchy
  else ⟨hierarchy.supers.insert name (superName.toList ++ interfaces).eraseDups⟩

def addClassFile (hierarchy : ClassHierarchy) (file : ClassFile) : Outcome ClassHierarchy := do
  let name ← file.name
  let superName ← file.superName?
  let interfaces ← file.interfaceNames
  return hierarchy.insert name superName interfaces

def supers? (hierarchy : ClassHierarchy) (name : String) : Option (List String) :=
  hierarchy.supers.get? name

/-- The answer of the first hierarchy that knows the class. -/
def firstSupers? (hierarchies : List ClassHierarchy) (name : String) : Option (List String) :=
  hierarchies.findSome? (·.supers? name)

/-- Looks for an answer on the waiting classes in order. A class without an answer of its own puts its
supers in front of the others. Each unit of `fuel` takes one class off. -/
def search (find? : String → Option String) (supersOf : String → List String) :
    (fuel : Nat) → (visited waiting : List String) → Option String
  | _, _, [] => none
  | 0, _, _ :: _ => none
  | fuel + 1, visited, name :: waiting =>
    if visited.contains name then search find? supersOf fuel visited waiting
    else
      match find? name with
      | some answer => some answer
      | none => search find? supersOf fuel (name :: visited) (supersOf name ++ waiting)

/-- How many classes a search can take off: the first one, and every super of a known class once. -/
def searchFuel (hierarchies : List ClassHierarchy) : Nat :=
  1 + (hierarchies.flatMap fun hierarchy => hierarchy.supers.values.flatten).length

/-- The first answer on a class or on the classes above it. -/
def findUpwards (hierarchies : List ClassHierarchy) (find? : String → Option String) (name : String) :
    Option String :=
  search find? (fun name => (firstSupers? hierarchies name).getD []) (searchFuel hierarchies) [] [name]

end ClassHierarchy

namespace MappingTable

/-- Looks members up on the class that is asked about and on the classes above it. -/
def inheritingRenamer (table : MappingTable) (hierarchies : List ClassHierarchy) : Renamer where
  className? name := .ok (table.class? name)
  fieldName? owner name descriptor := .ok (ClassHierarchy.findUpwards hierarchies
    (fun owner => table.member? .field owner name descriptor) owner)
  methodName? owner name descriptor := .ok (ClassHierarchy.findUpwards hierarchies
    (fun owner => table.member? .method owner name descriptor) owner)
  elementName? owner name := .ok (table.memberByName? .method owner name)

end MappingTable

end JarRemap
