import JarRemap.Failure
import JarRemap.OrderedMap

/-!
# Mapping trees

A mapping tree gives every class, field and method one name for each of its namespaces. Descriptors are
kept in the first namespace only. Classes are found by their first name, members by their first name and
descriptor.

A name that is left empty is the same as the name in the namespace before.
-/
namespace JarRemap

open Outcome

inductive MemberKind where
  | field
  | method
deriving DecidableEq

namespace MemberKind

def symbol : MemberKind → SymbolKind
  | .field => .isField
  | .method => .isMethod

end MemberKind

/-- A member of a class, by name and descriptor. -/
structure MemberKey where
  name : String
  descriptor : String
deriving DecidableEq

structure MemberNames where
  descriptor : String
  names : List String
deriving DecidableEq

structure ClassNames where
  names : List String
  fields : OrderedMap MemberKey MemberNames
  methods : OrderedMap MemberKey MemberNames

/-- The names of classes and their members in several namespaces. -/
structure MappingTree where
  namespaces : List String
  classes : OrderedMap String ClassNames

/-- Replaces every empty name by the name before it, which is `last` for the first one. -/
def completeAfter (last : String) : List String → List String
  | [] => []
  | name :: rest =>
    let name := if name = "" then last else name
    name :: completeAfter name rest

/-- Replaces every empty name by the name before it. The first name must not be empty. -/
def completeNames : List String → Outcome (List String)
  | [] => .ok []
  | first :: rest =>
    if first = "" then fail .emptyFirstName else .ok (first :: completeAfter first rest)

def nameAt (names : List String) (index : Nat) : Outcome String :=
  match names[index]? with
  | some name => .ok name
  | none => fail (.noNameAt index names.length)

namespace ClassNames

def members (owner : ClassNames) : MemberKind → OrderedMap MemberKey MemberNames
  | .field => owner.fields
  | .method => owner.methods

def setMembers (owner : ClassNames) (kind : MemberKind)
    (members : OrderedMap MemberKey MemberNames) : ClassNames :=
  match kind with
  | .field => { owner with fields := members }
  | .method => { owner with methods := members }

def addMember (owner : ClassNames) (kind : MemberKind) (descriptor : String) (names : List String) :
    Outcome (List String × ClassNames) := do
  let names ← completeNames names
  let first ← nameAt names 0
  let key : MemberKey := ⟨first, descriptor⟩
  match (owner.members kind).get? key with
  | some existing => fail (.duplicateMember kind.symbol names descriptor existing.names)
  | none => return (names, owner.setMembers kind ((owner.members kind).insert key ⟨descriptor, names⟩))

end ClassNames

namespace MappingTree

/-- The first namespace that stands in the list a second time. -/
def repeated? : (before : List String) → List String → Option String
  | _, [] => none
  | before, name :: rest => if before.contains name then some name else repeated? (name :: before) rest

def create (namespaces : List String) : Outcome MappingTree :=
  if namespaces.length < 2 then fail (.tooFewNamespaces namespaces)
  else
    match repeated? [] namespaces with
    | some name => fail (.duplicateNamespace name namespaces)
    | none => .ok { namespaces, classes := ∅ }

def position (tree : MappingTree) (name : String) : Outcome Nat :=
  match tree.namespaces.idxOf? name with
  | some index => .ok index
  | none => fail (.unknownNamespace name tree.namespaces)

/-- Fails at the first of the namespaces that the tree does not have. -/
def checkNamespaces (tree : MappingTree) (names : List String) : Outcome Unit :=
  names.forM fun name => do let _ ← tree.position name

def addClass (tree : MappingTree) (names : List String) : Outcome (List String × MappingTree) := do
  if names.length ≠ tree.namespaces.length then
    fail (.wrongNameCount tree.namespaces.length names)
  else
    let names ← completeNames names
    let first ← nameAt names 0
    match tree.classes.get? first with
    | some existing => fail (.duplicateClass names existing.names)
    | none =>
      return (names, { tree with classes := tree.classes.insert first ⟨names, ∅, ∅⟩ })

/-- Adds a member to the class with the given first name, which the caller knows to be there, and gives
the member's completed names. -/
def addMember (tree : MappingTree) (owner : String) (classNames : ClassNames) (kind : MemberKind)
    (descriptor : String) (names : List String) : Outcome (List String × MappingTree) := do
  let (names, classNames) ← classNames.addMember kind descriptor names
  return (names, { tree with classes := tree.classes.insert owner classNames })

end MappingTree

end JarRemap
