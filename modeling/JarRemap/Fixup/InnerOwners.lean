import JarRemap.Archive.Image
import JarRemap.ClassFile.InnerClass

/-!
# Inner classes that follow their owners

An inner class that the mappings do not rename keeps its name, and so would leave the package of an owner
that is renamed. It is renamed along with its owner instead, to the owner's new name with the rest of its
own.

The owner of a class is found among the inner classes that the class files of an archive declare, or else
is what stands before the last dollar sign of the name. It counts only if the name continues it by a dollar
sign, so that every owner is shorter than what it owns.
-/
namespace JarRemap

/-- The classes of an archive and the owners that they declare. -/
structure InnerOwners where
  classes : List String
  owners : OrderedMap String String

namespace InnerOwners

/-- Adds an inner class, unless its owner is known already or it has none. -/
def addInner (owners : OrderedMap String String) (inner : InnerClass) : OrderedMap String String :=
  match inner.outer with
  | some outer => if owners.contains inner.inner then owners else owners.insert inner.inner outer
  | none => owners

/-- Adds a class with the inner classes that it declares. -/
def addClass (known : InnerOwners) (entry : ClassEntry) : Outcome InnerOwners := do
  let file ← Outcome.within (.readClass entry.path) (ClassFile.read entry.bytes)
  let name ← file.name
  let inner ← file.innerClasses
  return {
    classes := if known.classes.contains name then known.classes else known.classes ++ [name]
    owners := inner.foldl addInner known.owners }

def ofImage (image : ArchiveImage) : Outcome InnerOwners := image.classes.foldlM addClass ⟨[], ∅⟩

def ownerOf? (known : InnerOwners) (name : String) : Option String :=
  let byName := (Text.cutLast? '$' name.toList).map fun (before, _) => String.ofList before
  ((known.owners.get? name).or byName).filter (· ≠ "")

/-- The owner of a class with the rest of the name, which starts with a dollar sign. -/
def splitOwner? (known : InnerOwners) (name : String) : Option (String × String) := do
  let owner ← known.ownerOf? name
  let rest ← Text.stripStart? owner name
  if Text.startsWith '$' rest then some (owner, rest) else none

/-- The new name of a class that is renamed itself or has an owner that is. Each unit of fuel leads to an
owner. -/
def renamedWith (known : InnerOwners) (table : MappingTable) : (fuel : Nat) → String → Option String
  | fuel, name =>
    match table.class? name with
    | some newName => some newName
    | none =>
      match fuel, known.splitOwner? name with
      | fuel + 1, some (owner, rest) => (known.renamedWith table fuel owner).map (· ++ rest)
      | _, _ => none

/-- The new name of a class that is renamed itself or has an owner that is. Owners are shorter than what they
own, so there are fewer than the name has characters. -/
def renamed? (known : InnerOwners) (table : MappingTable) (name : String) : Option String :=
  known.renamedWith table name.length name

/-- The new names of all classes that only follow their owners. -/
def fixupTable (known : InnerOwners) (table : MappingTable) : MappingTable :=
  known.classes.foldl (fun fixups name =>
    if (table.class? name).isSome then fixups
    else
      match known.renamed? table name with
      | some newName => fixups.insertClass name newName
      | none => fixups) (.empty table.source table.target)

end InnerOwners

end JarRemap
