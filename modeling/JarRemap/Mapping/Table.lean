import JarRemap.Mapping.Tree
import JarRemap.Naming.Descriptor

/-!
# Mapping tables

A mapping table renames classes, fields and methods from one namespace to another. Classes are found by
name, members by owner, name and descriptor, all in the namespace that the table starts from. What is not
in the table keeps its name.
-/
namespace JarRemap

open MemberKind

structure MemberTable where
  fields : OrderedMap MemberKey String
  methods : OrderedMap MemberKey String

namespace MemberTable

def empty : MemberTable := ⟨∅, ∅⟩

def ofKind (members : MemberTable) : MemberKind → OrderedMap MemberKey String
  | .field => members.fields
  | .method => members.methods

def setKind (members : MemberTable) (kind : MemberKind) (entries : OrderedMap MemberKey String) :
    MemberTable :=
  match kind with
  | .field => { members with fields := entries }
  | .method => { members with methods := entries }

def isEmpty (members : MemberTable) : Bool := members.fields.isEmpty && members.methods.isEmpty

/-- Whether two tables rename the same members to the same names, in any order. -/
def same (left right : MemberTable) : Bool :=
  left.fields.sameEntries (· == ·) right.fields && left.methods.sameEntries (· == ·) right.methods

end MemberTable

structure MemberEntry where
  owner : String
  kind : MemberKind
  key : MemberKey
  newName : String
deriving DecidableEq

/-- Renames from the namespace `source` to the namespace `target`. -/
structure MappingTable where
  source : String
  target : String
  classes : OrderedMap String String
  members : OrderedMap String MemberTable

namespace MappingTable

def empty (source target : String) : MappingTable := ⟨source, target, ∅, ∅⟩

def isEmpty (table : MappingTable) : Bool :=
  table.classes.isEmpty && table.members.values.all MemberTable.isEmpty

/-- Whether two tables join the same namespaces and rename alike. Owners without members count. -/
def same (left right : MappingTable) : Bool :=
  left.source == right.source && left.target == right.target &&
    left.classes.sameEntries (· == ·) right.classes &&
    left.members.sameEntries MemberTable.same right.members

/-- Renames a class; an earlier entry for it is replaced. -/
def insertClass (table : MappingTable) (name newName : String) : MappingTable :=
  { table with classes := table.classes.insert name newName }

/-- Renames a member; an earlier entry for it is replaced. -/
def insertMember (table : MappingTable) (entry : MemberEntry) : MappingTable :=
  { table with
    members := table.members.update entry.owner .empty fun members =>
      members.setKind entry.kind ((members.ofKind entry.kind).insert entry.key entry.newName) }

def class? (table : MappingTable) (name : String) : Option String := table.classes.get? name

def className (table : MappingTable) (name : String) : String := (table.class? name).getD name

def member? (table : MappingTable) (kind : MemberKind) (owner name descriptor : String) :
    Option String := do
  let members ← table.members.get? owner
  (members.ofKind kind).get? ⟨name, descriptor⟩

/-- The new name of the first member that was added for the owner under the name, whatever its
descriptor. -/
def memberByName? (table : MappingTable) (kind : MemberKind) (owner name : String) :
    Option String := do
  let members ← table.members.get? owner
  let (_, newName) ← (members.ofKind kind).entries.find? fun (key, _) => key.name == name
  return newName

/-- All renamed members: owner by owner, the fields of each before its methods. -/
def memberEntries (table : MappingTable) : List MemberEntry :=
  table.members.entries.flatMap fun (owner, members) =>
    [field, method].flatMap fun kind =>
      (members.ofKind kind).entries.map fun (key, newName) => ⟨owner, kind, key, newName⟩

/-- Looks members up on the class that is asked about, and annotation elements by name. -/
def renamer (table : MappingTable) : Renamer where
  className? name := .ok (table.class? name)
  fieldName? owner name descriptor := .ok (table.member? .field owner name descriptor)
  methodName? owner name descriptor := .ok (table.member? .method owner name descriptor)
  elementName? owner name := .ok (table.memberByName? .method owner name)

def mapDescriptor (table : MappingTable) (descriptor : String) : Outcome String :=
  table.renamer.mapDescriptor descriptor

/-- Adds the members of one class of a mapping tree, with the names at two positions. Descriptors go
through `descriptors`, which leads from the first namespace to the one that the table starts from. -/
def insertMembersOf (table : MappingTable) (descriptors : MappingTable) (sourceIndex targetIndex : Nat)
    (owner : String) (classNames : ClassNames) : Outcome MappingTable :=
  [field, method].foldlM (fun table kind =>
    (classNames.members kind).values.foldlM (fun table member => do
      let descriptor ← descriptors.mapDescriptor member.descriptor
      let name ← nameAt member.names sourceIndex
      let newName ← nameAt member.names targetIndex
      return table.insertMember ⟨owner, kind, ⟨name, descriptor⟩, newName⟩) table) table

/-- The table between two namespaces of a mapping tree. -/
def ofTree (tree : MappingTree) (source target : String) : Outcome MappingTable := do
  let sourceIndex ← tree.position source
  let targetIndex ← tree.position target
  let first := tree.namespaces.headD ""
  let descriptors ← tree.classes.values.foldlM (fun table classNames => do
    return table.insertClass (← nameAt classNames.names 0) (← nameAt classNames.names sourceIndex))
    (empty first source)
  tree.classes.values.foldlM (fun table classNames => do
    let owner ← nameAt classNames.names sourceIndex
    let table := table.insertClass owner (← nameAt classNames.names targetIndex)
    table.insertMembersOf descriptors sourceIndex targetIndex owner classNames) (empty source target)

def invert (table : MappingTable) : Outcome MappingTable := do
  let classes := table.classes.entries.foldl (fun back (name, newName) => back.insertClass newName name)
    (empty table.target table.source)
  table.memberEntries.foldlM (fun back entry => do
    let descriptor ← table.mapDescriptor entry.key.descriptor
    return back.insertMember
      ⟨table.className entry.owner, entry.kind, ⟨entry.newName, descriptor⟩, entry.key.name⟩) classes

/-- The classes of two tables in a row: those of the first table followed through the second one, then
those that only the second one renames. -/
def composeClasses (first next : MappingTable) : MappingTable :=
  let images := first.classes.values
  let followed := first.classes.entries.foldl
    (fun table (name, middle) => table.insertClass name (next.className middle))
    (empty first.source next.target)
  next.classes.entries.foldl (fun table (middle, newName) =>
    if first.classes.contains middle || images.contains middle then table
    else table.insertClass middle newName) followed

/-- A member of the first of two tables with its place in the middle namespace. -/
def middleMember (first : MappingTable) (entry : MemberEntry) :
    Outcome (String × String × String) := do
  let descriptor ← first.mapDescriptor entry.key.descriptor
  return (first.className entry.owner, entry.newName, descriptor)

/-- Follows one member of the first table through the second one. The places of the members in the middle
namespace are collected. -/
def followMember (first next : MappingTable)
    (state : MappingTable × List (String × String × String)) (entry : MemberEntry) :
    Outcome (MappingTable × List (String × String × String)) := do
  let (table, covered) := state
  let (owner, name, descriptor) ← first.middleMember entry
  let newName := (next.member? entry.kind owner name descriptor).getD name
  return (table.insertMember { entry with newName }, (owner, name, descriptor) :: covered)

/-- Adds a member that only the second table renames, with its owner and descriptor led back through
`back`. A member that the first table covers, or that has an entry already, is left out. -/
def carryMember (back : MappingTable) (covered : List (String × String × String))
    (table : MappingTable) (entry : MemberEntry) : Outcome MappingTable := do
  if covered.contains (entry.owner, entry.key.name, entry.key.descriptor) then return table
  else
    let owner := back.className entry.owner
    let descriptor ← back.mapDescriptor entry.key.descriptor
    if (table.member? entry.kind owner entry.key.name descriptor).isSome then return table
    else return table.insertMember { entry with owner, key := ⟨entry.key.name, descriptor⟩ }

/-- The table that renames as the first table and then the second one do. -/
def compose (first next : MappingTable) : Outcome MappingTable := do
  if first.target ≠ next.source then
    Outcome.fail (.cannotCompose first.source first.target next.source next.target)
  else
    let back ← first.invert
    let (table, covered) ← first.memberEntries.foldlM (first.followMember next)
      (first.composeClasses next, [])
    next.memberEntries.foldlM (carryMember back covered) table

/-- Adds the members of `others` to those of an owner, unless a member is renamed differently. -/
def uniteMembers (kind : MemberKind) (owner : String) (others : OrderedMap MemberKey String)
    (entries : OrderedMap MemberKey String) : Outcome (OrderedMap MemberKey String) :=
  others.entries.foldlM (fun entries (key, newName) =>
    match entries.get? key with
    | some existing =>
      if existing = newName then .ok entries
      else Outcome.fail
        (.conflictingMember kind.symbol owner key.name key.descriptor existing newName)
    | none => .ok (entries.insert key newName)) entries

/-- The table with the entries of `other` added. Fails if the two rename a symbol differently. -/
def unite (table other : MappingTable) : Outcome MappingTable := do
  let table ← other.classes.entries.foldlM (fun table (name, newName) =>
    match table.class? name with
    | some existing =>
      if existing = newName then .ok table
      else Outcome.fail (.conflictingClass name existing newName)
    | none => .ok (table.insertClass name newName)) table
  other.members.entries.foldlM (fun table (owner, others) => do
    let members := (table.members.get? owner).getD .empty
    let fields ← uniteMembers .field owner others.fields members.fields
    let methods ← uniteMembers .method owner others.methods members.methods
    return { table with members := table.members.insert owner ⟨fields, methods⟩ }) table

end MappingTable

end JarRemap
