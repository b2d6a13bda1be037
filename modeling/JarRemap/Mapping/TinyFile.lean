import JarRemap.Mapping.Tree
import JarRemap.Text.Stream

/-!
# Mapping files in the Tiny format, version 2

The first line names the format and the namespaces. Lines at depth one before the first class are
properties; one of them says that names are escaped. A class line at depth zero gives the names of a class,
and the lines at depth one after it those of its fields and methods. All other lines at depth one, and
everything below depth one, are comments and parameters, which are read over.

Lines that are no text count only when they are reached. They belong to the section before them, so a
section is a line at depth zero with everything up to the next one.
-/
namespace JarRemap.TinyFile

open Outcome

abbrev Lines := List (Outcome Line)

def lineOfBytes (number : Nat) (bytes : Bytes) : Outcome Line :=
  Line.ofText number <$> Text.ofStream bytes

def linesOf (bytes : Bytes) : Lines :=
  (Text.byteLines bytes).zipIdx.map fun (line, index) => lineOfBytes (index + 1) line

/-- The lines before the first one at depth zero, and the sections that follow. -/
def sections : Lines → Lines × List (Line × Lines)
  | [] => ([], [])
  | item :: rest =>
    let (body, later) := sections rest
    match item with
    | .ok line => if line.depth = 0 then ([], (line, body) :: later) else (item :: body, later)
    | .error _ => (item :: body, later)

def nextField (line : Line) : Outcome (String × Line) :=
  match line.fields with
  | [] => fail (.missingField line)
  | field :: fields => .ok (field, { line with fields })

/-- The fields that are left, if there is one for each namespace. -/
def namesOf (line : Line) (count : Nat) : Outcome (List String) :=
  if line.fields.length = count then .ok line.fields
  else fail (.nameCount line.number line.fields count)

def escaped? : Char → Option Char
  | '\\' => some '\\'
  | 'n' => some '\n'
  | 'r' => some '\r'
  | 't' => some '\t'
  | '0' => some '\x00'
  | _ => none

def unescapeChars (name : String) : List Char → Outcome (List Char)
  | [] => .ok []
  | '\\' :: [] => fail (.unknownEscape none name)
  | '\\' :: c :: rest =>
    match escaped? c with
    | some plain => (plain :: ·) <$> unescapeChars name rest
    | none => fail (.unknownEscape (some c) name)
  | c :: rest => (c :: ·) <$> unescapeChars name rest

def plainName (escapes : Bool) (name : String) : Outcome String :=
  if escapes then String.ofList <$> unescapeChars name name.toList else .ok name

def header (line : Line) : Outcome (List String) := do
  if line.first ≠ "tiny" then fail (.badHeader line)
  else
    let (major, line) ← nextField line
    if major ≠ "2" then fail (.badHeader line)
    else
      let (minor, line) ← nextField line
      if minor ≠ "0" then fail (.badHeader line) else return line.fields

/-- Whether one of the properties says that names are escaped. All of them must be at depth one. -/
def properties : Lines → Outcome Bool
  | [] => .ok false
  | item :: rest => do
    let line ← item
    if line.depth ≠ 1 then fail (.unexpectedDepth 1 line)
    else
      let later ← properties rest
      return line.first = "escaped-names" || later

def memberLine (escapes : Bool) (count : Nat) (kind : MemberKind) (owner : ClassNames) (line : Line) :
    Outcome ClassNames := do
  let (descriptor, line) ← nextField line
  let descriptor ← plainName escapes descriptor
  let names ← namesOf line count
  let names ← names.mapM (plainName escapes)
  let (_, owner) ← owner.addMember kind descriptor names
  return owner

def classLine (escapes : Bool) (count : Nat) (owner : ClassNames) (line : Line) : Outcome ClassNames :=
  if line.first = "f" then memberLine escapes count .field owner line
  else if line.first = "m" then memberLine escapes count .method owner line
  else .ok owner

/-- Reads the lines below a class. Lines below depth one are allowed once there was one at depth one. -/
def classLines (escapes : Bool) (count : Nat) : (below : Bool) → ClassNames → Lines → Outcome ClassNames
  | _, owner, [] => .ok owner
  | below, owner, item :: rest => do
    let line ← item
    if line.depth ≤ 1 then
      let owner ← within (.inLine line.number) (classLine escapes count owner line)
      classLines escapes count true owner rest
    else if below then classLines escapes count true owner rest
    else fail (.unexpectedDepth 1 line)

def classSection (escapes : Bool) (tree : MappingTree) (line : Line) (body : Lines) :
    Outcome MappingTree := do
  if line.first ≠ "c" then fail (.unknownTopLevel line.first)
  else
    let count := tree.namespaces.length
    let names ← namesOf line count
    let names ← names.mapM (plainName escapes)
    let (names, tree) ← tree.addClass names
    let owner ← nameAt names 0
    let classNames ← within .classSections (classLines escapes count false ⟨names, ∅, ∅⟩ body)
    return { tree with classes := tree.classes.insert owner classNames }

def readSections (tree : MappingTree) (lines : Lines) : Outcome MappingTree := do
  let (start, classes) := sections lines
  let escapes ← within .headerProperties (properties start)
  within .mappingLines
    (classes.foldlM (fun tree (line, body) =>
      within (.inLine line.number) (classSection escapes tree line body)) tree)

def read (bytes : Bytes) : Outcome MappingTree := do
  match linesOf bytes with
  | [] => fail .noHeaderLine
  | first :: rest =>
    let line ← first
    let namespaces ← header line
    let tree ← within (.inLine line.number) (MappingTree.create namespaces)
    readSections tree rest

end JarRemap.TinyFile
