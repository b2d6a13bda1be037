import JarRemap.Text.Cut

/-!
# Paths as text

A path is a text whose parts are separated by slashes. Paths stay as they were written, because messages
show them so; only the file tree gives them a meaning.
-/
namespace JarRemap.Path

def isRelative (path : String) : Bool := !Text.startsWith '/' path

def endsInSlash (path : String) : Bool := path.toList.getLast? == some '/'

/-- The path `path` as seen from `base`. An absolute path stays as it is. -/
def join (base path : String) : String :=
  if !isRelative path then path
  else if base = "" || endsInSlash base then base ++ path
  else base ++ "/" ++ path

def relativeTo (base path : String) : String := if isRelative path then join base path else path

/-- The path of the file that is written before it takes the place of `path`. -/
def temporary (path : String) : String := path ++ ".tmp"

/-- The parts of a path between its slashes, without empty ones. -/
def parts (path : String) : List String :=
  ((Text.parts '/' path.toList).filter (!·.isEmpty)).map String.ofList

/-- Whether the last part of the path is a name. Dots are no names, and the root has none. -/
def endsInName (path : String) : Bool :=
  match (parts path).getLast? with
  | some part => part != "." && part != ".."
  | none => false

/-- Whether a part at the given place counts as a component. A single dot counts only at the start. -/
def isComponent (offset : Nat) (part : List Char) : Bool := !part.isEmpty && (part != ['.'] || offset == 0)

/-- Where the components end, given the parts and the place of the first one. -/
def componentEnds : (offset : Nat) → List (List Char) → List Nat
  | _, [] => []
  | offset, part :: rest =>
    let later := componentEnds (offset + part.length + 1) rest
    if isComponent offset part then (offset + part.length) :: later else later

/-- The path without its last component, if it has one. Slashes and dots at its end go with it. -/
def parent? (path : String) : Option String :=
  match (componentEnds 0 (Text.parts '/' path.toList)).reverse with
  | [] => none
  | [_] => some (if isRelative path then "" else "/")
  | _ :: before :: _ => some (String.ofList (path.toList.take before))

/-- The path and the paths above it that have a component, longest first. -/
def lineage (path : String) : List String :=
  match (componentEnds 0 (Text.parts '/' path.toList)).reverse with
  | [] => []
  | _ :: above => path :: above.map fun before => String.ofList (path.toList.take before)

end JarRemap.Path
