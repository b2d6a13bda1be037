import JarRemap.Archive.ZipFile
import JarRemap.CommandLine

/-!
# The program

The files that the arguments lead to are read from disk, the command is run on them, and what it did to
them is done on disk. All decisions are made by `JarRemap.CommandLine`.
-/
namespace JarRemap.Disk

def pathOf (place : Place) : String := "/" ++ "/".intercalate place

def contentOf (data : ByteArray) : FileContent :=
  match ZipFile.entries? data with
  | some entries => .archive entries
  | none => .bytes data.toList

/-- Adds what stands at a place, without what is below it. -/
def loadNode (tree : FileTree) (place : Place) : IO FileTree := do
  let path := (← IO.currentDir) / pathOf place
  if ← path.isDir then return tree.put place .directory
  else if ← path.pathExists then return tree.put place (.file (contentOf (← IO.FS.readBinFile path)))
  else return tree

/-- Adds what stands at a place and below it. -/
partial def loadAll (tree : FileTree) (place : Place) : IO FileTree := do
  let tree ← loadNode tree place
  let path := (← IO.currentDir) / pathOf place
  if ← path.isDir then
    (← path.readDir).foldlM (fun tree member => loadAll tree (place ++ [member.fileName])) tree
  else return tree

/-- Adds what the parts of a path lead to from a place, and what they lead through. -/
def loadAlong (tree : FileTree) (place : Place) : (parts : List String) → IO FileTree
  | [] => loadAll tree place
  | part :: rest => do
    let tree ← loadNode tree place
    match tree.follow place part with
    | .ok next => loadAlong tree next rest
    | .error _ => return tree

def load (tree : FileTree) (path : String) : IO FileTree :=
  loadAlong tree (tree.start path) (Path.parts path)

def save (tree : FileTree) (place : Place) : IO Unit :=
  match tree.node? place with
  | some (.file (.bytes data)) => IO.FS.writeBinFile (pathOf place) data.toByteArray
  | some (.file (.archive entries)) =>
    match ZipFile.bytes? entries with
    | some data => IO.FS.writeBinFile (pathOf place) data
    | none => throw (IO.userError s!"the archive at {pathOf place} is too large")
  | _ => return

/-- Takes a step on disk, and gives the tree after it. An archive is written when it is complete. -/
def take (tree : FileTree) (step : FileStep) : IO FileTree := do
  let tree := step.apply tree
  match step with
  | .makeDirectory place => IO.FS.createDir (pathOf place)
  | .create place | .write place _ | .finish place => save tree place
  | .extend _ _ => pure ()
  | .rename source target => IO.FS.rename (pathOf source) (pathOf target)
  | .delete place => IO.FS.removeFile (pathOf place)
  return tree

/-- The files that the arguments lead to. The second look follows what the first one found. -/
def files (arguments : List String) : IO FileTree := do
  let here := Path.parts (← IO.currentDir).toString
  let nothing : FileTree := { FileTree.empty with workingPlace := here }
  let found ← (CommandLine.paths arguments nothing).foldlM load nothing
  (CommandLine.paths arguments found).foldlM load found

end JarRemap.Disk

open JarRemap in
/-- Runs the program with the given arguments and gives its exit code. -/
def main (arguments : List String) : IO UInt32 := do
  let tree ← Disk.files arguments
  let (ending, _, steps) := CommandLine.run arguments tree
  let _ ← steps.foldlM Disk.take tree
  IO.print ending.printed
  match ending.failure with
  | some failure => IO.eprintln ("Error: " ++ failure.report)
  | none => if ending.code ≠ 0 then IO.eprint CommandLine.programPage.text
  return ending.code.toUInt32
