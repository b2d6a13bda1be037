import JarRemap.Naming.Renamer

/-!
# Descriptors

A descriptor spells the types of a field or a method. The names in it stand between an `L` and the next
semicolon; everything else is kept as it is. An `L` without a semicolon after it makes the descriptor
unusable, but the names before it are looked up first.
-/
namespace JarRemap

namespace Descriptor

/-- A part of a descriptor: the name of a class, or any other character. -/
inductive Piece where
  | char (c : Char)
  | name (chars : List Char)
deriving DecidableEq

/-- The pieces of a descriptor and whether its last name is complete. If a name is being read, `name`
holds its characters, latest first. -/
def piecesFrom : (name : Option (List Char)) → List Char → List Piece × Bool
  | none, [] => ([], true)
  | some _, [] => ([], false)
  | none, c :: rest =>
    if c = 'L' then piecesFrom (some []) rest
    else
      let (pieces, complete) := piecesFrom none rest
      (.char c :: pieces, complete)
  | some name, c :: rest =>
    if c = ';' then
      let (pieces, complete) := piecesFrom none rest
      (.name name.reverse :: pieces, complete)
    else piecesFrom (some (c :: name)) rest

/-- The pieces of a descriptor and whether its last name is complete. -/
def pieces (descriptor : List Char) : List Piece × Bool := piecesFrom none descriptor

def Piece.toChars : Piece → List Char
  | .char c => [c]
  | .name chars => 'L' :: chars ++ [';']

def Piece.map (renamer : Renamer) : Piece → Outcome Piece
  | .char c => .ok (.char c)
  | .name chars => do return .name (← renamer.mapClass (String.ofList chars)).toList

/-- The class that a descriptor of the form `Lname;` names, or else the descriptor itself. -/
def className (descriptor : String) : String :=
  match Text.stripStart? "L" descriptor with
  | none => descriptor
  | some rest => (Text.stripEnd? ";" rest).getD descriptor

end Descriptor

namespace Renamer

def mapDescriptor (renamer : Renamer) (descriptor : String) : Outcome String :=
  Outcome.within (.mapDescriptor descriptor) do
    let (pieces, complete) := Descriptor.pieces descriptor.toList
    let mapped ← pieces.mapM (Descriptor.Piece.map renamer)
    if complete then return Text.joined (mapped.map Descriptor.Piece.toChars)
    else Outcome.fail (.missingSemicolon descriptor)

/-- The new name of a class that may be an array, which is named by its descriptor. -/
def mapClassOrArray (renamer : Renamer) (name : String) : Outcome String :=
  if Text.startsWith '[' name then renamer.mapDescriptor name else renamer.mapClass name

end Renamer

end JarRemap
