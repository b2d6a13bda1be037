import JarRemap.Archive.Classpath
import JarRemap.Fixup.AuxiliaryFiles
import JarRemap.Fixup.InnerOwners
import JarRemap.Fixup.PackageAccess
import JarRemap.Job.Profile
import JarRemap.Remap.Class

/-!
# Remapping archives along a chain

An engine remaps loaded archives from the first namespace of a chain to any other. It always starts from
the classes as they were loaded, never from what it wrote before, so each target can be done on its own.
The classpath is read when it is needed first, and then kept.
-/
namespace JarRemap

inductive EngineState where
  | idle
  | prepared (classpath : ClassHierarchy)
  | finished

/-- Remaps archives along a chain of namespaces. -/
structure RemapEngine where
  chain : NamespaceChain
  profile : Profile
  classpath : List String
  state : EngineState

structure LoadedArchive where
  role : String
  image : ArchiveImage
  hierarchy : ClassHierarchy

namespace LoadedArchive

def load (role path : String) : FileM LoadedArchive := do
  let image ← ArchiveImage.load path
  let hierarchy ← image.hierarchy
  return ⟨role, image, hierarchy⟩

end LoadedArchive

namespace RemapEngine

def create (chain : NamespaceChain) (profile : Profile) (classpath : List String) : RemapEngine :=
  ⟨chain, profile, classpath, .idle⟩

def classpathHierarchy (engine : RemapEngine) : FileM ClassHierarchy :=
  match engine.state with
  | .idle => FileM.within .indexClasspath (Classpath.hierarchy engine.classpath)
  | .prepared classpath => return classpath
  | .finished => FileM.fail .engineFinished

def prepare (engine : RemapEngine) : FileM RemapEngine := do
  let classpath ← engine.classpathHierarchy
  return { engine with state := .prepared classpath }

/-- The engine without its classpath, which it cannot read again. -/
def finish (engine : RemapEngine) : RemapEngine := { engine with state := .finished }

/-- The table from the first namespace to a target. The owners are those of inner classes without a
mapping, if they are known. -/
def tableFor (engine : RemapEngine) (target : String) (owners : Option InnerOwners) :
    Outcome MappingTable := do
  let source := engine.chain.first
  let table ← engine.chain.resolve source target
  let table ← Outcome.within .secondaryMappings (table.unite (engine.profile.extraTable source target))
  match owners with
  | some owners =>
    if (engine.profile.fixupsFor target).contains .innerClasses then
      table.unite (owners.fixupTable table)
    else return table
  | none => return table

def remapEntry (engine : RemapEngine) (renamer : Renamer) (target : String) (entry : ClassEntry) :
    Outcome ClassEntry := do
  let remapped ← Outcome.within (.remapClass entry.path engine.chain.first target)
    (remapClass renamer engine.profile.remapOptions entry.bytes)
  return {
    path := ClassEntry.renamedPath entry.path remapped.oldName remapped.newName
    bytes := remapped.bytes
    modified := entry.modified }

def remapClasses (engine : RemapEngine) (archive : LoadedArchive) (classpath : ClassHierarchy)
    (target : String) (owners : Option InnerOwners) : Outcome (List ClassEntry) := do
  let table ← engine.tableFor target owners
  let renamer := table.inheritingRenamer [archive.hierarchy, classpath]
  let classes ← archive.image.classes.mapM (engine.remapEntry renamer target)
  let classes := ClassEntry.sorted classes
  if engine.profile.fixPackageAccess then
    let (_, classes) ← Outcome.within (.packageAccess archive.role) (PackageAccess.fix classes)
    return classes
  else return classes

def editorsFor (engine : RemapEngine) (archive : LoadedArchive) (target : String) :
    FileM (List EntryEditor) := do
  if (engine.profile.fixupsFor target).contains .auxiliaryFiles then
    match engine.chain.penultimate? with
    | some source =>
      let table ← engine.chain.resolve source target
      return [(← AuxiliaryFiles.ofImage table archive.image).editor]
    | none => FileM.fail .chainTooShortForFixups
  else return []

/-- Remaps an archive to a target and writes it. Gives the engine with its classpath read. -/
def remapTo (engine : RemapEngine) (archive : LoadedArchive) (target output : String)
    (owners : Option InnerOwners) : FileM RemapEngine := do
  let classpath ← engine.classpathHierarchy
  let classes ← engine.remapClasses archive classpath target owners
  let editors ← engine.editorsFor archive target
  ArchiveWriter.write ⟨engine.profile.copyMode, editors⟩ output classes archive.image.source
  return { engine with state := .prepared classpath }

end RemapEngine

end JarRemap
