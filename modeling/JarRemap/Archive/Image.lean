import JarRemap.Files.Session
import JarRemap.Mapping.Hierarchy

/-!
# Archives in memory

The image of an archive holds its class entries, sorted by path. All other entries stay in the file that
the image was loaded from and are read again when they are needed.
-/
namespace JarRemap

open FileM

structure ClassEntry where
  path : String
  bytes : Bytes
  modified : Option Timestamp
deriving DecidableEq

namespace ClassEntry

def ofEntry (entry : ArchiveEntry) : Outcome ClassEntry := do
  return ⟨entry.name, ← entry.content, some entry.modified⟩

def ofEntries (entries : List ArchiveEntry) : Outcome (List ClassEntry) :=
  (entries.filter ArchiveEntry.isClass).mapM ofEntry

/-- The path of the entry once its class is renamed. Directories above the class name stay; a path that
does not end in the class name is kept. -/
def renamedPath (path oldName newName : String) : String :=
  match (Text.stripEnd? ".class" path).bind (Text.stripEnd? oldName) with
  | some above =>
    if above = "" || above.toList.getLast? = some '/' then above ++ newName ++ ".class" else path
  | none => path

/-- The entries sorted by path. Entries with the same path keep their order. -/
def sorted (classes : List ClassEntry) : List ClassEntry :=
  classes.mergeSort fun left right => left.path ≤ right.path

end ClassEntry

structure ArchiveImage where
  /-- The path of the archive. -/
  source : String
  classes : List ClassEntry

namespace ArchiveImage

def ofClasses (source : String) (classes : List ClassEntry) : ArchiveImage :=
  ⟨source, ClassEntry.sorted classes⟩

def load (path : String) : FileM ArchiveImage := do
  let content ← within (.readArchive path) (readContent path)
  let entries ← within (.openAsArchive path) (archiveEntries (.file content))
  let classes ← within (.readClassEntries path) (ClassEntry.ofEntries entries)
  return ofClasses path classes

/-- The data of the entry with the given name in the archive of the image, if there is one. -/
def readResource (image : ArchiveImage) (name : String) : FileM (Option Bytes) := do
  let file ← within (.openArchive image.source) (openPath image.source)
  let entries ← within (.openAsArchive image.source) (archiveEntries file)
  match entries.find? (·.name = name) with
  | some entry => some <$> within (.readEntryOf name image.source) entry.read
  | none => return none

def hierarchy (image : ArchiveImage) : Outcome ClassHierarchy :=
  image.classes.foldlM (fun hierarchy entry => do
    let file ← Outcome.within (.readClassOf entry.path image.source) (ClassFile.read entry.bytes)
    hierarchy.addClassFile file) .empty

end ArchiveImage

end JarRemap
