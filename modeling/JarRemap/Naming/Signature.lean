import JarRemap.Naming.Renamer

/-!
# Generic signatures

A signature spells generic types. Names of classes in it are looked up; an inner class that follows a dot
is looked up under the full name with a `$` in place of the dot, and written as the part of its new name
after its enclosing class. Type variables, primitive types and marks are kept.

The grammar is read loosely: a signature is a sequence of types and of the marks for parameters and
thrown types, in any order, after optional type parameters. All functions give what they write and the
characters they leave. Each step of nesting or repetition uses up a unit of `fuel`; twice the number of
characters is enough, because every second step takes a character.
-/
namespace JarRemap.Signature

open Outcome

/-- The characters before the first one in `stops`, and the rest from that one on. -/
def identifier (stops text : List Char) : Outcome (List Char × List Char) :=
  let (name, rest) := text.span (! stops.contains ·)
  if rest.isEmpty then fail (.signature (.endInIdentifier (String.ofList name)))
  else .ok (name, rest)

/-- The characters that can follow a part of a class name. -/
def namePartStops : List Char := ['<', '.', ';']

def primitives : List Char := ['B', 'C', 'D', 'F', 'I', 'J', 'S', 'Z', 'V']

/-- What a new name adds to the new name of its enclosing class: the part after that name and a `$`, or
else the part after the last `$`, or else all of it. -/
def innerPart (enclosing name : List Char) : List Char :=
  match Text.dropStart? (enclosing ++ ['$']) name with
  | some rest => rest
  | none =>
    match Text.cutLast? '$' name with
    | some (_, rest) => rest
    | none => name

mutual

def type (renamer : Renamer) : Nat → List Char → Outcome (List Char × List Char)
  | 0, _ => fail .nestingTooDeep
  | _ + 1, [] => fail (.signature .endOfText)
  | fuel + 1, c :: rest =>
    if primitives.contains c then .ok ([c], rest)
    else if c = '[' then do
      let (element, rest) ← type renamer fuel rest
      return ('[' :: element, rest)
    else if c = 'T' then do
      let (name, rest) ← identifier [';'] rest
      return ('T' :: name ++ [';'], rest.tail)
    else if c = 'L' then do
      let (name, rest) ← identifier namePartStops rest
      let mapped := (← renamer.mapClass (String.ofList name)).toList
      let (further, rest) ← classParts renamer fuel name mapped rest
      return ('L' :: mapped ++ further, rest)
    else fail (.signature (.badStart c))

/-- What follows the first name of a class type, up to its semicolon: type arguments and inner classes.
`name` is the name read so far and `mapped` its new name. -/
def classParts (renamer : Renamer) :
    Nat → (name mapped : List Char) → List Char → Outcome (List Char × List Char)
  | 0, _, _, _ => fail .nestingTooDeep
  | _ + 1, _, _, [] => fail (.signature .endOfText)
  | fuel + 1, name, mapped, c :: rest =>
    if c = '<' then do
      let (inside, rest) ← typeArguments renamer fuel rest
      let (further, rest) ← classParts renamer fuel name mapped rest
      return ('<' :: inside ++ further, rest)
    else if c = '.' then do
      let (inner, rest) ← identifier namePartStops rest
      let name := name ++ '$' :: inner
      let newName := (← renamer.mapClass (String.ofList name)).toList
      let (further, rest) ← classParts renamer fuel name newName rest
      return ('.' :: innerPart mapped newName ++ further, rest)
    else if c = ';' then .ok ([';'], rest)
    else fail (.signature (.badClassPart c))

def typeArguments (renamer : Renamer) : Nat → List Char → Outcome (List Char × List Char)
  | 0, _ => fail .nestingTooDeep
  | _ + 1, [] => fail (.signature .endInArguments)
  | fuel + 1, c :: rest =>
    if c = '>' then .ok (['>'], rest)
    else if c = '*' then do
      let (further, rest) ← typeArguments renamer fuel rest
      return ('*' :: further, rest)
    else if c = '+' || c = '-' then do
      let (bound, rest) ← type renamer fuel rest
      let (further, rest) ← typeArguments renamer fuel rest
      return (c :: bound ++ further, rest)
    else do
      let (argument, rest) ← type renamer fuel (c :: rest)
      let (further, rest) ← typeArguments renamer fuel rest
      return (argument ++ further, rest)

end

/-- The bounds of a type parameter: colons, each with an optional type after it. -/
def typeBounds (renamer : Renamer) : Nat → List Char → Outcome (List Char × List Char)
  | 0, _ => fail .nestingTooDeep
  | fuel + 1, ':' :: rest => do
    let hasType := match rest with
      | c :: _ => c = 'L' || c = 'T' || c = '['
      | [] => false
    let (bound, rest) ← if hasType then type renamer fuel rest else .ok ([], rest)
    let (further, rest) ← typeBounds renamer fuel rest
    return (':' :: bound ++ further, rest)
  | _ + 1, text => .ok ([], text)

/-- Type parameters after the opening bracket, up to and with the closing one. -/
def typeParameters (renamer : Renamer) : Nat → List Char → Outcome (List Char × List Char)
  | 0, _ => fail .nestingTooDeep
  | _ + 1, [] => fail (.signature .endOfText)
  | fuel + 1, c :: rest =>
    if c = '>' then .ok (['>'], rest)
    else do
      let (name, rest) ← identifier [':'] (c :: rest)
      let (bounds, rest) ← typeBounds renamer fuel rest
      let (further, rest) ← typeParameters renamer fuel rest
      return (name ++ bounds ++ further, rest)

/-- A sequence of types and of the marks for parameters and thrown types. -/
def sequence (renamer : Renamer) : Nat → List Char → Outcome (List Char)
  | _, [] => .ok []
  | 0, _ :: _ => fail .nestingTooDeep
  | fuel + 1, c :: rest =>
    if c = '(' || c = ')' || c = '^' then do
      let further ← sequence renamer fuel rest
      return c :: further
    else do
      let (written, rest) ← type renamer fuel (c :: rest)
      let further ← sequence renamer fuel rest
      return written ++ further

def fuelFor (text : List Char) : Nat := 2 * text.length + 2

def map (renamer : Renamer) : List Char → Outcome (List Char)
  | '<' :: rest => do
    let fuel := fuelFor rest
    let (written, rest) ← typeParameters renamer fuel rest
    let further ← sequence renamer fuel rest
    return '<' :: written ++ further
  | text => sequence renamer (fuelFor text) text

end JarRemap.Signature

namespace JarRemap.Renamer

def mapSignature (renamer : Renamer) (signature : String) : Outcome String :=
  Outcome.within (.mapSignature signature)
    (String.ofList <$> Signature.map renamer signature.toList)

end JarRemap.Renamer
