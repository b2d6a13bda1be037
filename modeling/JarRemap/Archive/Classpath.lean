import JarRemap.Files.Session
import JarRemap.Mapping.Hierarchy

/-!
# Classpaths

A classpath is a list of archives and directories with class files. Only the super classes and interfaces
of its classes are of interest. A class that is found twice is taken where it is found first.
-/
namespace JarRemap.Classpath

open FileM

/-- Adds the class of a class file. The path is shown if the file is refused. -/
def addClass (hierarchy : ClassHierarchy) (path : String) (bytes : Bytes) : Outcome ClassHierarchy :=
  Outcome.within (.inClassFile path) do
    let file ← ClassFile.read bytes
    hierarchy.addClassFile file

def addDirectory (hierarchy : ClassHierarchy) (path : String) : FileM ClassHierarchy := do
  let tree ← tree
  let place ← ofFault (tree.locate path)
  let files := (tree.filesBelow place).filter fun (names, _) => isClassPath (names.getLastD "")
  files.foldlM (fun hierarchy (names, content) =>
    addClass hierarchy (names.foldl Path.join path) content.data) hierarchy

def addArchive (hierarchy : ClassHierarchy) (path : String) : FileM ClassHierarchy := do
  let entries ← archiveEntries (← openPath path)
  (entries.filter fun entry => !entry.isDirectory && entry.isClass).foldlM
    (fun hierarchy entry => do addClass hierarchy entry.name (← entry.read)) hierarchy

def addPath (hierarchy : ClassHierarchy) (path : String) : FileM ClassHierarchy := do
  let tree ← tree
  if tree.isDirectory path then within (.indexEntry path) (addDirectory hierarchy path)
  else if tree.isFile path then within (.indexEntry path) (addArchive hierarchy path)
  else fail (.missingClasspathEntry path)

/-- The super classes and interfaces of all classes on a classpath. -/
def hierarchy (paths : List String) : FileM ClassHierarchy := paths.foldlM addPath .empty

end JarRemap.Classpath
