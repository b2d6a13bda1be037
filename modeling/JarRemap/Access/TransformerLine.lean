import JarRemap.Access.Transform
import JarRemap.Text.Blank

/-!
# Lines of access transformer files

A line gives a transform and the symbol it is for: a class in dotted form, and after it the name of a
field, or the name and the descriptor of a method. What follows a `#` is a comment.
-/
namespace JarRemap

open Text

/-- The symbol that an access transform is for. Fields are told apart by name only. -/
inductive AccessTarget where
  | ofClass (owner : String)
  | ofMethod (owner name descriptor : String)
  | ofField (owner name : String)
deriving DecidableEq

namespace AccessTarget

def owner : AccessTarget → String
  | .ofClass owner => owner
  | .ofMethod owner _ _ => owner
  | .ofField owner _ => owner

def text : AccessTarget → String
  | .ofClass owner => replaceChar '/' '.' owner
  | .ofMethod owner name descriptor => replaceChar '/' '.' owner ++ " " ++ name ++ descriptor
  | .ofField owner name => replaceChar '/' '.' owner ++ " " ++ name

def context : AccessTarget → Context
  | .ofClass owner => .forClass owner
  | .ofMethod owner name descriptor => .forMethod owner name descriptor
  | .ofField owner name => .forField owner name

/-- The member of a class that a word names: a method if it has an opening parenthesis. -/
def ofMember (owner member : String) : AccessTarget :=
  match cutFirst? '(' member.toList with
  | some (name, descriptor) => .ofMethod owner (String.ofList name) (String.ofList ('(' :: descriptor))
  | none => .ofField owner member

end AccessTarget

structure TransformerLine where
  target : AccessTarget
  transform : AccessTransform
deriving DecidableEq

namespace TransformerLine

def text (line : TransformerLine) : String := line.transform.text ++ " " ++ line.target.text

/-- Reads a line; blank lines and comments give nothing. -/
def ofText (line : String) : Outcome (Option TransformerLine) :=
  match words (beforeFirst '#' line) with
  | [] => .ok none
  | [modifier, owner] => do
    let transform ← AccessTransform.ofText modifier
    return some ⟨.ofClass (replaceChar '.' '/' owner), transform⟩
  | [modifier, owner, member] => do
    let transform ← AccessTransform.ofText modifier
    return some ⟨.ofMember (replaceChar '.' '/' owner) member, transform⟩
  | fields => Outcome.fail (.transformFieldCount fields)

end TransformerLine

end JarRemap
