import JarRemap.Archive.Image
import JarRemap.Archive.Manifest

/-!
# Writing archives

An archive is written beside its final path, under a temporary name, and takes its place only when it is
complete. So whatever stands at the final path is a whole archive.

The classes come first. All entries of a source archive that are neither directories nor classes follow;
some of them are edited on the way.
-/
namespace JarRemap

open FileM Manifest

/-- How the other entries of the source archive are copied. -/
inductive CopyMode where
  | unchanged
  /-- Signature files are left out, and the manifest keeps its main section only. -/
  | unsigned
deriving DecidableEq

structure EntryEditor where
  handles : String → Bool
  edit : String → Bytes → Outcome Bytes

/-- How an archive is written. The first editor that handles an entry gets it. -/
structure ArchiveWriter where
  mode : CopyMode
  editors : List EntryEditor

namespace ArchiveWriter

def skips (writer : ArchiveWriter) (entry : ArchiveEntry) : Bool :=
  entry.isDirectory || entry.isClass ||
    (writer.mode = .unsigned && isSignaturePath entry.name)

/-- The main section of a manifest that is given as bytes. -/
def unsignManifest (path : String) (data : Bytes) : Outcome Bytes :=
  match Text.decodeUtf8 data with
  | .ok text => .ok (Text.encodeUtf8 (mainSection text))
  | .error fault => Outcome.within (.manifestNotUtf8 path) (Outcome.fail (.invalidUtf8 fault))

def copiedData (writer : ArchiveWriter) (entry : ArchiveEntry) : Outcome Bytes :=
  if writer.mode = .unsigned && entry.name = path then entry.content >>= unsignManifest entry.name
  else .ok entry.data

/-- What is copied for an entry. If it is not edited, this need not be read. -/
def contentOf (writer : ArchiveWriter) (entry : ArchiveEntry) : Outcome Bytes := do
  let data ← writer.copiedData entry
  match writer.editors.find? (·.handles entry.name) with
  | some editor =>
    let _ ← entry.content
    Outcome.within (.editEntry entry.name) (editor.edit entry.name data)
  | none => return data

def classEntry (entry : ClassEntry) : ArchiveEntry :=
  ⟨entry.path, entry.bytes, entry.modified.getD .earliest, none⟩

/-- Adds an entry to the archive that is being written, unless its name is taken. Gives the names taken
afterwards. -/
def addEntry (place : Place) (taken : List String) (name : String) (entry : Outcome ArchiveEntry) :
    FileM (List String) := do
  if taken.contains name then fail (.duplicateEntry name)
  else
    perform (.extend place (← entry))
    return name :: taken

def writeEntries (writer : ArchiveWriter) (place : Place) (classes : List ClassEntry)
    (source : String) : FileM Unit := do
  let taken ← classes.foldlM (fun taken entry =>
    addEntry place taken entry.path (.ok (classEntry entry))) []
  let file ← openPath source
  let entries ← within (.openAsArchive source) (archiveEntries file)
  let _ ← (entries.filter fun entry => !writer.skips entry).foldlM (fun taken entry =>
    addEntry place taken entry.name do
      let data ← writer.contentOf entry
      return { entry with data }) taken
  perform (.finish place)

/-- Writes an archive under its temporary name and moves it to its final path. -/
def writeAndMove (writer : ArchiveWriter) (output : String) (classes : List ClassEntry)
    (source : String) : FileM Unit := do
  let place ← create (Path.temporary output)
  writer.writeEntries place classes source
  rename (Path.temporary output) output

/-- Writes the classes and the other entries of the source archive to a path. If this fails, the temporary
file is deleted and nothing has changed at the path. -/
def write (writer : ArchiveWriter) (output : String) (classes : List ClassEntry) (source : String) :
    FileM Unit := do
  match Path.parent? output with
  | some directory => within (.createDirectory directory) (makeDirectories directory)
  | none => pure ()
  within (.writeArchive output) do
    tryCatch (writer.writeAndMove output classes source) fun failure => do
      tryCatch (delete (Path.temporary output)) fun _ => return
      throw failure

end ArchiveWriter

end JarRemap
