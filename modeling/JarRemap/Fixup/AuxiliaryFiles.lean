import JarRemap.Access.TransformerLine
import JarRemap.Archive.Writer
import JarRemap.Json.Reader

/-!
# Names in other files of an archive

Two kinds of files name classes and members: the access transformer of an archive, and the scripts that
patch classes when they are loaded, which are listed in a file of their own. Lines of the access
transformer are remapped one by one. In a script, a string literal that is the name of a class is replaced.
-/
namespace JarRemap

open Text Outcome

/-- The names to replace, and the scripts to replace them in. -/
structure AuxiliaryFiles where
  table : MappingTable
  scripts : List String

namespace AuxiliaryFiles

def transformerPath : String := "META-INF/accesstransformer.cfg"

def scriptListPath : String := "META-INF/coremods.json"

/-- The symbol of an access transform under its new names. A member that is not found by its descriptor is
looked for by name alone. -/
def mapTarget (table : MappingTable) : AccessTarget → Outcome AccessTarget
  | .ofClass owner => .ok (.ofClass (table.className owner))
  | .ofMethod owner name descriptor => do
    let newName := ((table.member? .method owner name descriptor).or
      (table.memberByName? .method owner name)).getD name
    let newDescriptor ← table.mapDescriptor descriptor
    return .ofMethod (table.className owner) newName newDescriptor
  | .ofField owner name =>
    .ok (.ofField (table.className owner) ((table.memberByName? .field owner name).getD name))

/-- The comment of a line with its mark, if there is one. -/
def comment (line : String) : String :=
  match cutFirst? '#' line.toList with
  | some (_, rest) => " #" ++ String.ofList rest
  | none => ""

/-- The line with the given number of an access transformer under the new names. Comments stay, and so do
lines without an entry. -/
def mapTransformerLine (table : MappingTable) (number : Nat) (line : String) : Outcome String := do
  match ← within (.inLine number) (TransformerLine.ofText (beforeFirst '#' line)) with
  | some entry =>
    let target ← mapTarget table entry.target
    return { entry with target := target : TransformerLine }.text ++ comment line
  | none => return line

def mapTransformer (table : MappingTable) (text : String) : Outcome String := do
  let lines ← (lines text).zipIdx.mapM fun (line, index) => mapTransformerLine table (index + 1) line
  return String.join (lines.map (· ++ "\n"))

/-- The literal with the new name of the class that it names, with slashes or with dots. -/
def mapLiteral (table : MappingTable) (literal : String) : String :=
  match table.class? literal with
  | some newName => newName
  | none =>
    if literal.toList.contains '.' then
      match table.class? (replaceChar '.' '/' literal) with
      | some newName => replaceChar '/' '.' newName
      | none => literal
    else literal

/-- The characters of a script with its literals replaced. `literal` is the quote of the literal that is
being read with its characters, latest first. A literal without an end is left alone. -/
def mapScriptFrom (table : MappingTable) : (literal : Option (Char × List Char)) → List Char → List Char
  | none, [] => []
  | some (quote, content), [] => quote :: content.reverse
  | none, c :: rest =>
    if c = '"' || c = '\'' then mapScriptFrom table (some (c, [])) rest
    else c :: mapScriptFrom table none rest
  | some (quote, content), c :: rest =>
    if c = quote then
      quote :: (mapLiteral table (String.ofList content.reverse)).toList ++
        quote :: mapScriptFrom table none rest
    else mapScriptFrom table (some (quote, c :: content)) rest

def mapScript (table : MappingTable) (script : String) : String :=
  String.ofList (mapScriptFrom table none script.toList)

def handles (files : AuxiliaryFiles) (path : String) : Bool :=
  path = transformerPath || files.scripts.contains path

def edit (files : AuxiliaryFiles) (path : String) (data : Bytes) : Outcome Bytes := do
  match decodeUtf8 data with
  | .error fault => within (.entryNotUtf8 path) (fail (.invalidUtf8 fault))
  | .ok text =>
    if path = transformerPath then
      return encodeUtf8 (← mapTransformer files.table text)
    else return encodeUtf8 (mapScript files.table text)

def editor (files : AuxiliaryFiles) : EntryEditor := ⟨files.handles, files.edit⟩

/-- The paths in a list of scripts, which gives one for each name. The last one counts for a repeated
name. -/
def scriptsOf? (value : JsonValue) : Option (List String) := do
  match value with
  | .object members =>
    let named ← members.foldlM (fun (named : OrderedMap String String) (name, path) => do
      return named.insert (← name) (← path.text?)) ∅
    return (named.values.mergeSort fun left right => left ≤ right).eraseDups
  | _ => none

def readScripts (data : Bytes) : Outcome (List String) :=
  match (JsonText.read data).bind scriptsOf? with
  | some scripts => .ok scripts
  | none => fail .badJson

def ofImage (table : MappingTable) (image : ArchiveImage) : FileM AuxiliaryFiles := do
  match ← image.readResource scriptListPath with
  | some data => return ⟨table, ← FileM.within (.parseEntry scriptListPath) (readScripts data)⟩
  | none => return ⟨table, []⟩

end AuxiliaryFiles

end JarRemap
