import JarRemap.Files.Tree

/-!
# Work on files

A session holds the file tree and the steps that made it what it is. Work on files may fail, and what it
did before stays done. Every operation looks its paths up first and takes at most one step.
-/
namespace JarRemap

/-- A file tree and the steps taken so far, latest first. -/
structure Session where
  tree : FileTree
  steps : List FileStep

abbrev FileM := ExceptT Failure (StateM Session)

namespace FileM

variable {α : Type}

def ofOutcome (outcome : Outcome α) : FileM α :=
  match outcome with
  | .ok value => return value
  | .error failure => throw failure

instance : MonadLift Outcome FileM := ⟨ofOutcome⟩

def fail (cause : Cause) : FileM α := throw (.of cause)

def within (context : Context) (act : FileM α) : FileM α :=
  tryCatch act fun failure => throw (failure.within context)

def ofFault : Except FileFault α → FileM α
  | .ok value => return value
  | .error fault => fail (.file fault)

def tree : FileM FileTree := return (← get).tree

def perform (step : FileStep) : FileM Unit :=
  modify fun session => { tree := step.apply session.tree, steps := step :: session.steps }

/-- Does the work on a tree, and gives the tree afterwards with the steps in order. -/
def runOn (act : FileM α) (tree : FileTree) : Outcome α × FileTree × List FileStep :=
  let (outcome, session) := act.run ⟨tree, []⟩
  (outcome, session.tree, session.steps.reverse)

/-- Opens what a path leads to. A directory can be opened, but it has no content. -/
def openPath (path : String) : FileM FileNode := do ofFault ((← tree).find path)

def content : FileNode → FileM FileContent
  | .file content => return content
  | .directory => fail (.file .isDirectory)

def readContent (path : String) : FileM FileContent := do content (← openPath path)

def archiveEntries : FileNode → FileM (List ArchiveEntry)
  | .file content =>
    match content.entries? with
    | some entries => return entries
    | none => fail .notAnArchive
  | .directory => fail .notAnArchive

def makeDirectory (path : String) : FileM Unit := do
  let tree ← tree
  let place ← ofFault (tree.placeOf path)
  match tree.node? place with
  | some _ => fail (.file .alreadyExists)
  | none => perform (.makeDirectory place)

/-- Makes a directory, or is content with the one that is there. -/
def makeOrKeepDirectory (path : String) : FileM Unit :=
  tryCatch (makeDirectory path) fun failure => do
    if (← tree).isDirectory path then return else throw failure

/-- Makes the first directory of the list. Where one above it is missing, the rest of the list is made
before. -/
def makeLineage : List String → FileM Unit
  | [] => return
  | path :: above =>
    tryCatch (makeOrKeepDirectory path) fun failure => do
      if failure.cause = .file .notFound then
        makeLineage above
        makeOrKeepDirectory path
      else throw failure

/-- Makes the directory at a path with all directories above it. -/
def makeDirectories (path : String) : FileM Unit := makeLineage (Path.lineage path)

def placeForFile (path : String) : FileM Place := do
  let tree ← tree
  if Path.endsInSlash path then
    let _ ← ofFault (tree.directoryOf path)
    fail (.file .isDirectory)
  else
    let place ← ofFault (tree.placeOf path)
    match tree.node? place with
    | some .directory => fail (.file .isDirectory)
    | _ => return place

/-- Makes an empty file, or empties the one that is there, and gives its place. -/
def create (path : String) : FileM Place := do
  let place ← placeForFile path
  perform (.create place)
  return place

def write (path : String) (content : FileContent) : FileM Unit := do
  let place ← placeForFile path
  perform (.write place content)

/-- Moves a file. Both paths must end in names, without a slash after them. -/
def rename (source target : String) : FileM Unit := do
  let tree ← tree
  let _ ← ofFault (tree.directoryOf source)
  let _ ← ofFault (tree.directoryOf target)
  if !(Path.endsInName source && Path.endsInName target) then fail (.file .busy)
  else
    let sourcePlace ← ofFault (tree.placeOf source)
    match tree.node? sourcePlace with
    | none => fail (.file .notFound)
    | some .directory => fail (.file .isDirectory)
    | some (.file _) =>
      let targetPlace ← ofFault (tree.placeOf target)
      if Path.endsInSlash source || Path.endsInSlash target then fail (.file .notDirectory)
      else
        match tree.node? targetPlace with
        | some .directory => fail (.file .isDirectory)
        | _ => perform (.rename sourcePlace targetPlace)

def delete (path : String) : FileM Unit := do
  let tree ← tree
  let place ← ofFault (tree.locate path)
  match tree.node? place with
  | none => fail (.file .notFound)
  | some .directory => fail (.file .isDirectory)
  | some (.file _) => perform (.delete place)

def deleteIfPresent (path : String) : FileM Unit :=
  tryCatch (delete path) fun failure => do
    if failure.cause = .file .notFound then return else throw failure

end FileM

end JarRemap
