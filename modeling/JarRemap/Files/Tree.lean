import JarRemap.Archive.Entry
import JarRemap.Failure
import JarRemap.Files.Path
import JarRemap.OrderedMap

/-!
# File trees

A file tree holds directories and files. A place in it is the list of names that leads there from the
root; the root is always a directory. A path is followed part by part, and every part needs a directory to
be looked up in, also a single dot, which stays there, and two dots, which lead back. Names and paths have
a greatest length, counted in bytes.

A tree changes by steps. A step names places, not paths, and says all there is to say about the change, so
a run is known from the tree before it and its steps.
-/
namespace JarRemap

/-- The names that lead from the root to a file or a directory. -/
abbrev Place := List String

/-- What a file holds. The bytes of an archive are not modelled, only its entries, each of which can be opened. -/
inductive FileContent where
  | bytes (data : Bytes)
  | archive (entries : List ArchiveEntry)
  /-- An archive that is being written, with the entries so far, latest first. -/
  | unfinished (entries : List ArchiveEntry)
deriving DecidableEq

namespace FileContent

/-- The bytes of an archive without entries: the record that ends an archive, and nothing before it. -/
def emptyArchive : Bytes := [0x50, 0x4B, 0x05, 0x06] ++ List.replicate 18 0

/-- Stands for the bytes of an archive with entries: the mark it begins with, and then no text. -/
def archiveMark : Bytes := [0x50, 0x4B, 0x03, 0x04, 0xFF]

def data : FileContent → Bytes
  | .bytes data => data
  | .archive [] => emptyArchive
  | .archive (_ :: _) => archiveMark
  | .unfinished _ => archiveMark

def entries? : FileContent → Option (List ArchiveEntry)
  | .bytes data => if data = emptyArchive then some [] else none
  | .archive entries => some entries
  | .unfinished _ => none

end FileContent

inductive FileNode where
  | file (content : FileContent)
  | directory
deriving DecidableEq

/-- Files and directories, and the directory from which relative paths start. -/
structure FileTree where
  nodes : OrderedMap Place FileNode
  workingPlace : Place

/-- A change to a file tree. There is always room for what is written. -/
inductive FileStep where
  | makeDirectory (place : Place)
  /-- Makes an empty file, or empties the one that is there. -/
  | create (place : Place)
  | write (place : Place) (content : FileContent)
  /-- Adds an entry to an archive that is being written. -/
  | extend (place : Place) (entry : ArchiveEntry)
  /-- Completes an archive that was being written. -/
  | finish (place : Place)
  /-- Moves a file, which takes the place of any other file there. -/
  | rename (source target : Place)
  | delete (place : Place)
deriving DecidableEq

namespace FileTree

def empty : FileTree := ⟨∅, []⟩

def node? (tree : FileTree) (place : Place) : Option FileNode :=
  if place = [] then some .directory else tree.nodes.get? place

def put (tree : FileTree) (place : Place) (node : FileNode) : FileTree :=
  { tree with nodes := tree.nodes.insert place node }

def remove (tree : FileTree) (place : Place) : FileTree :=
  { tree with nodes := tree.nodes.erase place }

def longestName : Nat := 255

def longestPath : Nat := 4095

def follow (tree : FileTree) (place : Place) (part : String) : Except FileFault Place :=
  match tree.node? place with
  | none => .error .notFound
  | some (.file _) => .error .notDirectory
  | some .directory =>
    if longestName < part.utf8ByteSize then .error .nameTooLong
    else .ok (if part = "." then place else if part = ".." then place.dropLast else place ++ [part])

def checkPath (path : String) : Except FileFault Unit :=
  if path.toList.contains '\x00' then .error .nullInPath
  else if path = "" then .error .notFound
  else if longestPath < path.utf8ByteSize then .error .nameTooLong
  else .ok ()

def start (tree : FileTree) (path : String) : Place :=
  if Path.isRelative path then tree.workingPlace else []

/-- The place that parts lead to from where a path starts. -/
def walk (tree : FileTree) (path : String) (parts : List String) : Except FileFault Place := do
  checkPath path
  parts.foldlM tree.follow (tree.start path)

/-- The place that a path names, whether or not something is there. A slash at its end says nothing. -/
def placeOf (tree : FileTree) (path : String) : Except FileFault Place := tree.walk path (Path.parts path)

/-- The directory in which the last part of a path is looked up. -/
def directoryOf (tree : FileTree) (path : String) : Except FileFault Place :=
  tree.walk path ((Path.parts path).dropLast ++ ["."])

/-- The place that a path leads to, whether or not something is there. A slash at the end asks for a
directory. -/
def locate (tree : FileTree) (path : String) : Except FileFault Place :=
  tree.walk path (Path.parts path ++ if Path.endsInSlash path then ["."] else [])

def find (tree : FileTree) (path : String) : Except FileFault FileNode := do
  let place ← tree.locate path
  match tree.node? place with
  | some node => return node
  | none => .error .notFound

def hasPath (tree : FileTree) (path : String) : Bool := (tree.find path).toOption.isSome

def isFile (tree : FileTree) (path : String) : Bool :=
  match tree.find path with
  | .ok (.file _) => true
  | _ => false

def isDirectory (tree : FileTree) (path : String) : Bool :=
  match tree.find path with
  | .ok .directory => true
  | _ => false

/-- Whether one place comes before another when directories are walked depth first, their members in
order of name. -/
def placeBefore : Place → Place → Bool
  | [], _ => true
  | _ :: _, [] => false
  | name :: rest, other :: others => if name = other then placeBefore rest others else name < other

/-- The files below a place with the names that lead to them from there, depth first, the members of each
directory in order of name. -/
def filesBelow (tree : FileTree) (place : Place) : List (Place × FileContent) :=
  let found := tree.nodes.entries.filterMap fun (other, node) =>
    match node with
    | .file content =>
      if place.length < other.length && other.take place.length == place then
        some (other.drop place.length, content)
      else none
    | .directory => none
  found.mergeSort fun left right => placeBefore left.1 right.1

end FileTree

namespace FileStep

def apply (step : FileStep) (tree : FileTree) : FileTree :=
  match step with
  | .makeDirectory place => tree.put place .directory
  | .create place => tree.put place (.file (.bytes []))
  | .write place content => tree.put place (.file content)
  | .extend place entry =>
    match tree.node? place with
    | some (.file (.unfinished entries)) => tree.put place (.file (.unfinished (entry :: entries)))
    | _ => tree.put place (.file (.unfinished [entry]))
  | .finish place =>
    match tree.node? place with
    | some (.file (.unfinished entries)) => tree.put place (.file (.archive entries.reverse))
    | _ => tree.put place (.file (.archive []))
  | .rename source target =>
    match tree.node? source with
    | some node => (tree.remove source).put target node
    | none => tree
  | .delete place => tree.remove place

end FileStep

end JarRemap
