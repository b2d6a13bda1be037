import JarRemap.Files.Session
import JarRemap.Json.Printer
import JarRemap.Json.Reader
import JarRemap.Text.Stream

/-!
# Job files

A job file says what is remapped, with which mappings and where to. Paths in it are relative to its own
directory.
-/
namespace JarRemap

open JsonValue

/-- A file of mappings, with the names that outputs are told apart by. -/
structure MappingsConfig where
  path : String
  name : String
  version : String
deriving DecidableEq

/-- An archive to remap. Its role names it in output files and messages. -/
structure InputArchive where
  role : String
  path : String
deriving DecidableEq

structure JobConfig where
  version : String
  toolchain : Toolchain
  mappings : MappingsConfig
  primary : InputArchive
  /-- An archive that depends on the primary one. -/
  secondary : Option InputArchive
  classpath : List String
  cacheDirectory : String
  threads : Option Nat
  jarSuffix : String
deriving DecidableEq

/-- A toolchain, by its name or as an object with that name and nothing in it. -/
def Toolchain.ofJson? : JsonValue → Option Toolchain
  | .string (some name) => Toolchain.ofKeyword? name
  | .object [(some name, .null)] => Toolchain.ofKeyword? name
  | _ => none

namespace MappingsConfig

def ofJson? (value : JsonValue) : Option MappingsConfig := do
  match ← value.fields? ["path", "name", "version"] with
  | [path, name, version] =>
    return {
      path := ← (← path).text?
      name := ← (← name).text?
      version := ← (← version).text? }
  | _ => none

def toJson (config : MappingsConfig) : JsonValue :=
  .object [(some "path", .ofText config.path), (some "name", .ofText config.name),
    (some "version", .ofText config.version)]

end MappingsConfig

namespace InputArchive

def ofJson? (value : JsonValue) : Option InputArchive := do
  match ← value.fields? ["role", "path"] with
  | [role, path] => return { role := ← (← role).text?, path := ← (← path).text? }
  | _ => none

def toJson (archive : InputArchive) : JsonValue :=
  .object [(some "role", .ofText archive.role), (some "path", .ofText archive.path)]

end InputArchive

namespace JobConfig

def nullable {α : Type} (decode : JsonValue → Option α) : Option JsonValue → Option (Option α)
  | none => some none
  | some .null => some none
  | some value => some <$> decode value

/-- A field that may be absent, with the value that it then has. -/
def defaulted {α : Type} (default : α) (decode : JsonValue → Option α) : Option JsonValue → Option α
  | none => some default
  | some value => decode value

def paths? (value : JsonValue) : Option (List String) := do
  (← value.elements?).mapM text?

def fieldNames : List String :=
  ["version", "toolchain", "mappings", "primary", "secondary", "classpath", "cache_dir", "threads",
    "jar_suffix"]

def ofJson? (value : JsonValue) : Option JobConfig := do
  match ← value.fields? fieldNames with
  | [version, toolchain, mappings, primary, secondary, classpath, cacheDirectory, threads, jarSuffix] =>
    return {
      version := ← (← version).text?
      toolchain := ← Toolchain.ofJson? (← toolchain)
      mappings := ← MappingsConfig.ofJson? (← mappings)
      primary := ← InputArchive.ofJson? (← primary)
      secondary := ← nullable InputArchive.ofJson? secondary
      classpath := ← defaulted [] paths? classpath
      cacheDirectory := ← (← cacheDirectory).text?
      threads := ← nullable word? threads
      jarSuffix := ← defaulted "" text? jarSuffix }
  | _ => none

def toJson (config : JobConfig) : JsonValue :=
  .object [(some "version", .ofText config.version),
    (some "toolchain", .ofText config.toolchain.keyword),
    (some "mappings", config.mappings.toJson), (some "primary", config.primary.toJson),
    (some "secondary", config.secondary.elim .null InputArchive.toJson),
    (some "classpath", .array (config.classpath.map .ofText)),
    (some "cache_dir", .ofText config.cacheDirectory),
    (some "threads", config.threads.elim .null fun threads => .number (toString threads)),
    (some "jar_suffix", .ofText config.jarSuffix)]

def ofBytes (data : Bytes) : Outcome JobConfig :=
  match (JsonText.read data).bind ofJson? with
  | some config => .ok config
  | none => Outcome.fail .badJson

def ofText (text : String) : Outcome JobConfig := ofBytes (Text.encodeUtf8 text)

def text (config : JobConfig) : String := JsonText.print config.toJson

def relativeTo (config : JobConfig) (base : String) : JobConfig :=
  let resolve := Path.relativeTo base
  { config with
    mappings := { config.mappings with path := resolve config.mappings.path }
    primary := { config.primary with path := resolve config.primary.path }
    secondary := config.secondary.map fun archive => { archive with path := resolve archive.path }
    classpath := config.classpath.map resolve
    cacheDirectory := resolve config.cacheDirectory }

def ofPath (path : String) : FileM JobConfig := do
  let text ← FileM.within (.readJob path) do
    let content ← FileM.readContent path
    Text.ofStream content.data
  let config ← FileM.within (.parseJob path) (ofText text)
  return config.relativeTo ((Path.parent? path).getD "")

end JobConfig

end JarRemap
