import JarRemap.Job.Cache
import JarRemap.Job.Config
import JarRemap.Job.Engine
import JarRemap.Mapping.TinyFile

/-!
# Running a job

A run remaps the primary archive of a job, and the secondary one if there is one, to every namespace of
the chain after the first. Archives whose outputs are up to date are left alone. If remapping fails, all
outputs of the job are deleted, so that the next run starts anew.
-/
namespace JarRemap

open FileM

structure RemapJob where
  identity : CacheIdentity
  mappings : String
  primary : InputArchive
  secondary : Option InputArchive
  classpath : List String
  cacheDirectory : String
  /-- Write all outputs again, even if they are there. -/
  force : Bool
  /-- The input archives are newer than the outputs. -/
  inputsChanged : Bool
  /-- How many workers load the archives. One per core if this is not told. -/
  threads : Option Nat
  /-- The answer of the system that is asked for workers. -/
  workers : Option Nat → Outcome Unit := fun _ => .ok ()

structure RunReport where
  /-- The path of the output for each role and namespace. -/
  outputs : OrderedMap (String × String) String
  /-- The number of archives that were written. -/
  hops : Nat

namespace TinyFile

def ofPath (path : String) : FileM MappingTree := do
  let file ← within (.openMappings path) (openPath path)
  within (.readMappings path) do
    let content ← content file
    read content.data

end TinyFile

namespace RemapJob

def ofConfig (config : JobConfig) (force inputsChanged : Bool) : RemapJob where
  identity := {
    version := config.version
    mappingName := config.mappings.name
    mappingVersion := config.mappings.version
    toolchain := config.toolchain
    jarSuffix := config.jarSuffix }
  mappings := config.mappings.path
  primary := config.primary
  secondary := config.secondary
  classpath := config.classpath
  cacheDirectory := config.cacheDirectory
  force := force
  inputsChanged := inputsChanged
  threads := config.threads

def archives (job : RemapJob) : List InputArchive := job.primary :: job.secondary.toList

def cache (job : RemapJob) : OutputCache := ⟨job.identity, job.cacheDirectory⟩

/-- The files and directories that must be there before the job starts. -/
def inputs (job : RemapJob) : List (InputKind × String) :=
  (.mappingFile, job.mappings) :: (job.archives.map fun archive => (.inputArchive, archive.path)) ++
    job.classpath.map fun path => (.classpathEntry, path)

def paths (job : RemapJob) (profile : Profile) : List String :=
  job.inputs.map (·.2) ++ job.archives.flatMap fun archive =>
    (job.cache.outputs archive.role (profile.namespaces.drop 1)).flatMap fun output =>
      [output.path, Path.temporary output.path]

def checkInputs (job : RemapJob) : FileM Unit := do
  let tree ← tree
  job.inputs.forM fun (kind, path) =>
    if tree.hasPath path then pure () else fail (.missingInput kind path)

/-- Reads the mappings and takes the namespaces of the profile from them. -/
def readChain (job : RemapJob) (profile : Profile) : FileM NamespaceChain := do
  let mappings ← TinyFile.ofPath job.mappings
  within (.mappingsFor job.mappings profile.toolchain) do
    NamespaceChain.ofTree mappings profile.namespaces

/-- Whether the outputs are written in any case. -/
def rebuilds (job : RemapJob) : Bool := job.force || job.inputsChanged

def isStale (job : RemapJob) (targets : List String) (archive : InputArchive) : FileM Bool := do
  let decision ← job.cache.check archive.role targets job.rebuilds
  return decision = .stale

/-- Starts the workers, unless there is no archive for them to load. -/
def startWorkers (job : RemapJob) (archives : List InputArchive) : FileM Unit :=
  if archives.isEmpty then pure () else within .startWorkers (job.workers job.threads)

/-- The archives to remap, which are cleared of their outputs, and for which workers are there. -/
def staleArchives (job : RemapJob) (targets : List String) : FileM (List InputArchive) := do
  let stale ← job.archives.filterM (job.isStale targets)
  job.startWorkers stale
  return stale

/-- The owners of inner classes, which are always those of the primary archive. -/
def ownersFrom (job : RemapJob) (archive : InputArchive) (loaded : LoadedArchive) : FileM InnerOwners := do
  if archive = job.primary then InnerOwners.ofImage loaded.image
  else
    let primary ← LoadedArchive.load job.primary.role job.primary.path
    InnerOwners.ofImage primary.image

/-- What is carried from one archive to the next: the engine, the owners of inner classes once they are
known, and the number of archives written so far. -/
structure Progress where
  engine : RemapEngine
  owners : Option InnerOwners
  hops : Nat

/-- Loads an archive, and reads the owners of inner classes if they are needed for the first time. -/
def loadArchive (job : RemapJob) (progress : Progress) (archive : InputArchive) :
    FileM (Progress × LoadedArchive) := do
  let loaded ← within (.loadArchive archive.role archive.path)
    (LoadedArchive.load archive.role archive.path)
  if progress.engine.profile.fixups.contains .innerClasses && progress.owners.isNone then
    let owners ← job.ownersFrom archive loaded
    return ({ progress with owners := some owners }, loaded)
  else return (progress, loaded)

def remapArchive (job : RemapJob) (targets : List String) (progress : Progress) (archive : InputArchive) :
    FileM Progress := do
  let (progress, loaded) ← job.loadArchive progress archive
  (job.cache.outputs archive.role targets).foldlM (fun progress output => do
    let engine ← within (.remapTo archive.role output.target)
      (progress.engine.remapTo loaded output.target output.path progress.owners)
    return { progress with engine, hops := progress.hops + 1 }) progress

/-- Remaps archives to all targets and gives the number of archives written. If this fails, the outputs of
all archives of the job are deleted. -/
def remapArchives (job : RemapJob) (engine : RemapEngine) (targets : List String)
    (archives : List InputArchive) : FileM Nat :=
  tryCatch
    (Progress.hops <$> archives.foldlM (job.remapArchive targets) ⟨engine, none, 0⟩)
    fun failure => do
      job.archives.forM fun archive => job.cache.invalidate archive.role targets
      throw failure

def reportedOutputs (job : RemapJob) (targets : List String) : OrderedMap (String × String) String :=
  job.archives.foldl (fun paths archive =>
    (job.cache.outputs archive.role targets).foldl (fun paths output =>
      paths.insert (archive.role, output.target) output.path) paths) ∅

/-- Fails if the primary archive has no output for the last target. -/
def checkFinal (job : RemapJob) (targets : List String) (outputs : OrderedMap (String × String) String) :
    FileM Unit := do
  match targets.getLast? with
  | none => fail .noTargets
  | some target =>
    let tree ← tree
    match outputs.get? (job.primary.role, target) with
    | some path => if tree.isFile path then pure () else fail (.outputNotCreated job.primary.role)
    | none => fail (.outputNotCreated job.primary.role)

def run (job : RemapJob) (profile : Profile) : FileM RunReport := do
  if job.identity.toolchain ≠ profile.toolchain then
    fail (.wrongToolchain job.identity.toolchain profile.toolchain)
  else
    job.checkInputs
    let chain ← job.readChain profile
    let targets := chain.targets
    let stale ← job.staleArchives targets
    let hops ← job.remapArchives (.create chain profile job.classpath) targets stale
    let outputs := job.reportedOutputs targets
    job.checkFinal targets outputs
    return { outputs, hops }

end RemapJob

end JarRemap
