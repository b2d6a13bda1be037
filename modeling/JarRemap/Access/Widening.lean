import JarRemap.Access.TransformerLine

/-!
# Access widenings

A line of an access widener makes one class, method or field accessible, extendable or mutable. What
follows a `#` is a comment.

As an access transform, accessible and extendable both mean public; extendable and mutable remove the
final modifier. The descriptor of a field plays no part in its transform.
-/
namespace JarRemap

open SymbolKind

inductive Opening where
  | accessible
  | extendable
deriving DecidableEq

inductive FieldOpening where
  | accessible
  | mutable
deriving DecidableEq

inductive Widening where
  | ofClass (opening : Opening) (name : String)
  | ofMethod (opening : Opening) (owner name descriptor : String)
  | ofField (opening : FieldOpening) (owner name descriptor : String)
deriving DecidableEq

namespace Opening

def keyword : Opening → String
  | .accessible => "accessible"
  | .extendable => "extendable"

/-- The opening that a word names, for the given kind of symbol. -/
def ofKeyword (kind : SymbolKind) (word : String) : Except WidenerFault Opening :=
  if word = "accessible" then .ok .accessible
  else if word = "extendable" then .ok .extendable
  else .error (.unknownAccess kind word)

def transform : Opening → AccessTransform
  | .accessible => .publish
  | .extendable => .publishOpen

end Opening

namespace FieldOpening

def keyword : FieldOpening → String
  | .accessible => "accessible"
  | .mutable => "mutable"

def ofKeyword (word : String) : Except WidenerFault FieldOpening :=
  if word = "accessible" then .ok .accessible
  else if word = "mutable" then .ok .mutable
  else .error (.unknownAccess .isField word)

def transform : FieldOpening → AccessTransform
  | .accessible => .publish
  | .mutable => .unlock

end FieldOpening

namespace Widening

/-- Reads the words of a line, of which there is at least one. The second word decides what the line is
for, then the number of words is checked, and the first word last. -/
def ofWords (words : List String) : Except WidenerFault Widening :=
  let entryType := (words[1]?).getD ""
  if entryType = "class" then
    match words with
    | [access, _, name] => do return .ofClass (← Opening.ofKeyword .isClass access) name
    | _ => .error (.fieldCount .isClass 3 words.length)
  else if entryType = "method" then
    match words with
    | [access, _, owner, name, descriptor] => do
      return .ofMethod (← Opening.ofKeyword .isMethod access) owner name descriptor
    | _ => .error (.fieldCount .isMethod 5 words.length)
  else if entryType = "field" then
    match words with
    | [access, _, owner, name, descriptor] => do
      return .ofField (← FieldOpening.ofKeyword access) owner name descriptor
    | _ => .error (.fieldCount .isField 5 words.length)
  else .error (.unknownEntryType entryType)

/-- Reads a line; blank lines and comments give nothing. -/
def ofText (line : String) : Except WidenerFault (Option Widening) :=
  match Text.words (Text.beforeFirst '#' line) with
  | [] => .ok none
  | words => some <$> ofWords words

def words : Widening → List String
  | .ofClass opening name => [opening.keyword, isClass.keyword, name]
  | .ofMethod opening owner name descriptor =>
    [opening.keyword, isMethod.keyword, owner, name, descriptor]
  | .ofField opening owner name descriptor =>
    [opening.keyword, isField.keyword, owner, name, descriptor]

def target : Widening → AccessTarget
  | .ofClass _ name => .ofClass name
  | .ofMethod _ owner name descriptor => .ofMethod owner name descriptor
  | .ofField _ owner name _ => .ofField owner name

def transform : Widening → AccessTransform
  | .ofClass opening _ => opening.transform
  | .ofMethod opening _ _ _ => opening.transform
  | .ofField opening _ _ _ => opening.transform

end Widening

end JarRemap
