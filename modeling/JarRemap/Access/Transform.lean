import JarRemap.Failure

/-!
# Access transforms

An access transform raises the visibility of a symbol to at least some level and adds or removes its
final modifier. Two transforms merge into one that does both, unless one adds and the other removes.
-/
namespace JarRemap

open Visibility

namespace FinalChange

def merge : FinalChange → FinalChange → Outcome FinalChange
  | .keep, second => .ok second
  | first, .keep => .ok first
  | first, second =>
    if first = second then .ok first else Outcome.fail (.conflictingChanges first second)

def mark : FinalChange → String
  | .keep => ""
  | .remove => "-f"
  | .add => "+f"

def apply (change : FinalChange) (flags : UInt16) : UInt16 :=
  match change with
  | .keep => flags
  | .remove => flags &&& ~~~0x0010
  | .add => flags ||| 0x0010

end FinalChange

structure AccessTransform where
  /-- The least visibility afterwards, if it matters. -/
  visibility : Option Visibility
  finalChange : FinalChange
deriving DecidableEq

namespace AccessTransform

def idle : AccessTransform := ⟨none, .keep⟩

def publish : AccessTransform := ⟨some .isPublic, .keep⟩

/-- Makes a symbol public and removes the final modifier. -/
def publishOpen : AccessTransform := ⟨some .isPublic, .remove⟩

def unlock : AccessTransform := ⟨none, .remove⟩

def isIdle (transform : AccessTransform) : Bool := transform = idle

/-- The transform that does both. The wider visibility wins. -/
def merge (first second : AccessTransform) : Outcome AccessTransform := do
  let finalChange ← first.finalChange.merge second.finalChange
  return ⟨wider first.visibility second.visibility, finalChange⟩

/-- The access flags with the visibility raised to at least `level`. -/
def raise (level : Visibility) (flags : UInt16) : UInt16 :=
  if (ofFlags flags).rank < level.rank then (flags &&& ~~~0x0007) ||| level.flag else flags

def apply (transform : AccessTransform) (flags : UInt16) : UInt16 :=
  let raised := match transform.visibility with
    | some level => raise level flags
    | none => flags
  transform.finalChange.apply raised

def text (transform : AccessTransform) : String :=
  let level := match transform.visibility with
    | some level => level.keyword
    | none => ""
  level ++ transform.finalChange.mark

/-- The word of a modifier without the mark at its end, and the change that the mark stands for. -/
def splitMark (modifier : String) : String × FinalChange :=
  match Text.stripEnd? "-f" modifier with
  | some word => (word, .remove)
  | none =>
    match Text.stripEnd? "+f" modifier with
    | some word => (word, .add)
    | none => (modifier, .keep)

def ofText (modifier : String) : Outcome AccessTransform :=
  let (word, finalChange) := splitMark modifier
  if word = "" then
    if finalChange = .keep then Outcome.fail (.idleModifier modifier) else .ok ⟨none, finalChange⟩
  else
    match ofKeyword? word with
    | some level => .ok ⟨some level, finalChange⟩
    | none => Outcome.fail (.unknownModifier modifier)

end AccessTransform

end JarRemap
