import JarRemap.Files.Session

/-!
# Outputs and whether they are up to date

The outputs of a run have names that are made from what tells runs apart. Outputs that are all there are
up to date, unless the caller knows better. Otherwise all of them are deleted before any is written, so
that what is there always belongs together.
-/
namespace JarRemap

/-- What tells the outputs of runs apart. -/
structure CacheIdentity where
  version : String
  mappingName : String
  mappingVersion : String
  toolchain : Toolchain
  /-- Added at the end of the version. -/
  jarSuffix : String
deriving DecidableEq

namespace CacheIdentity

/-- The version of outputs of some kind. Only one of the toolchains is named in it. -/
def versionText (identity : CacheIdentity) (kind : String) : String :=
  let toolchain := match identity.toolchain with
    | .fabric => ""
    | .forge => "-forge"
  identity.version ++ "-" ++ kind ++ "-" ++ identity.mappingName ++ "-" ++ identity.mappingVersion ++
    toolchain ++ identity.jarSuffix

def fileName (identity : CacheIdentity) (role kind : String) : String :=
  role ++ "-" ++ identity.versionText kind ++ ".jar"

end CacheIdentity

/-- An archive that a run writes: the namespace it is remapped to, and its path. -/
structure OutputArchive where
  target : String
  path : String
deriving DecidableEq

/-- Whether outputs can be used as they are. -/
inductive CacheDecision where
  | fresh
  /-- The outputs have to be written, and none of them is there any more. -/
  | stale
deriving DecidableEq

/-- The outputs of runs with some identity in a directory. -/
structure OutputCache where
  identity : CacheIdentity
  directory : String
deriving DecidableEq

namespace OutputCache

/-- The path of the output for the last target, in a directory of its own. -/
def finalPath (cache : OutputCache) (role : String) : String :=
  Path.join (Path.join cache.directory (cache.identity.versionText "mapped"))
    (cache.identity.fileName role "mapped")

def pathFor (cache : OutputCache) (role target : String) : String :=
  Path.join cache.directory (cache.identity.fileName role target)

def outputs (cache : OutputCache) (role : String) : (targets : List String) → List OutputArchive
  | [] => []
  | [target] => [⟨target, cache.finalPath role⟩]
  | target :: rest => ⟨target, cache.pathFor role target⟩ :: cache.outputs role rest

def discard (path : String) : FileM Unit :=
  FileM.within (.deleteFile path) (FileM.deleteIfPresent path)

/-- Decides whether the outputs for an archive can be used, and deletes them if not. -/
def check (cache : OutputCache) (role : String) (targets : List String) (rebuild : Bool) :
    FileM CacheDecision := do
  let tree ← FileM.tree
  let outputs := cache.outputs role targets
  if outputs.all (fun output => tree.isFile output.path) && !rebuild then return .fresh
  else
    outputs.forM fun output => do
      discard output.path
      discard (Path.temporary output.path)
    return .stale

def tryDiscard (path : String) : FileM Unit := tryCatch (discard path) fun _ => return

/-- Deletes the outputs for an archive as far as that is possible. -/
def invalidate (cache : OutputCache) (role : String) (targets : List String) : FileM Unit :=
  (cache.outputs role targets).forM fun output => do
    tryDiscard (Path.temporary output.path)
    tryDiscard output.path

end OutputCache

end JarRemap
