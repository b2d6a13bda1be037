import JarRemap.Access.Transform
import JarRemap.Archive.Image

/-!
# Package access across packages

Renaming moves classes into other packages. A symbol that can be seen in its package only may then be used
from outside it, and is made public. Nothing else changes, and if a class cannot be read, nothing at all.

Symbols are named by positions: the class in the list, and the member in the class.
-/
namespace JarRemap.PackageAccess

/-- The place of the access flags of a symbol. -/
inductive AccessSite where
  | ofClass (index : Nat)
  | ofMember (kind : MemberKind) (index position : Nat)
deriving DecidableEq

namespace AccessSite

def index : AccessSite → Nat
  | .ofClass index => index
  | .ofMember _ index _ => index

end AccessSite

/-- The classes of an archive, found by position and by name. Of several classes with one name the last one
is found. -/
structure ClassTable where
  files : Array ClassFile
  names : Array String
  positions : Std.TreeMap String Nat

namespace ClassTable

def read (classes : List ClassEntry) : Outcome ClassTable := do
  let files ← classes.mapM fun entry =>
    Outcome.within (.readClass entry.path) (ClassFile.read entry.bytes)
  let names ← files.mapM ClassFile.name
  return {
    files := files.toArray
    names := names.toArray
    positions := names.zipIdx.foldl (fun positions (name, index) => positions.insert name index) ∅ }

end ClassTable

def packageOf (name : String) : String :=
  match Text.cutLast? '/' name.toList with
  | some (package, _) => String.ofList package
  | none => ""

/-- The class that a class name, or the name of an array, is about. There is none for arrays of numbers and
the like. -/
def elementClass? (name : String) : Option String :=
  if Text.startsWith '[' name then do
    let element ← Text.dropStart? ['L'] (name.toList.dropWhile (· == '['))
    String.ofList <$> Text.dropEnd? [';'] element
  else some name

def isPackageOnly (flags : UInt16) : Bool := Visibility.ofFlags flags = .isDefault

namespace ClassTable

def crosses (table : ClassTable) (user target : Nat) : Bool :=
  packageOf (table.names[user]?.getD "") ≠ packageOf (table.names[target]?.getD "")

/-- The position of the first member with a name and a descriptor, and its access flags. -/
def memberOf? (pool : ConstantPool) (name descriptor : String) :
    (position : Nat) → List Member → Outcome (Option (Nat × UInt16))
  | _, [] => .ok none
  | position, member :: rest => do
    if (← pool.text member.name) = name then
      if (← pool.text member.descriptor) = descriptor then return some (position, member.access)
      else memberOf? pool name descriptor (position + 1) rest
    else memberOf? pool name descriptor (position + 1) rest

/-- The declaration of a member, on a class or the closest class above it. Each unit of fuel allows one
class, so that a class above itself does no harm. -/
def findMember (table : ClassTable) (kind : MemberKind) (name descriptor : String) :
    (fuel : Nat) → (owner : Option Nat) → Outcome (Option (AccessSite × UInt16))
  | 0, _ => .ok none
  | fuel + 1, owner => do
    match owner with
    | none => return none
    | some index =>
      match table.files[index]? with
      | none => return none
      | some file =>
        let members := match kind with
          | .field => file.fields
          | .method => file.methods
        match ← memberOf? file.pool name descriptor 0 members with
        | some (position, flags) => return some (.ofMember kind index position, flags)
        | none =>
          let above := (← file.superName?).bind table.positions.get?
          findMember table kind name descriptor fuel above

/-- The symbol that a reference of a class needs to be public, if there is one. -/
def memberSite (table : ClassTable) (user : Nat) (pool : ConstantPool) (kind : MemberKind)
    (owner nameAndType : UInt16) : Outcome (Option AccessSite) := do
  let owner ← pool.className owner
  let (name, descriptor) ← pool.nameAndType nameAndType
  match ← table.findMember kind name descriptor (table.files.size + 1) (table.positions.get? owner) with
  | some (site, flags) =>
    return if table.crosses user site.index && isPackageOnly flags then some site else none
  | none => return none

/-- The class that a constant of a class needs to be public, if there is one. -/
def classSite (table : ClassTable) (user : Nat) (pool : ConstantPool) (name : UInt16) :
    Outcome (Option AccessSite) := do
  let name ← pool.text name
  match (elementClass? name).bind table.positions.get? with
  | none => return none
  | some target =>
    match table.files[target]? with
    | none => return none
    | some file =>
      return if table.crosses user target && isPackageOnly file.access then some (.ofClass target)
        else none

/-- The symbol that a constant of a class needs to be public, if there is one. -/
def siteOf (table : ClassTable) (user : Nat) (pool : ConstantPool) : Constant → Outcome (Option AccessSite)
  | .classRef name => table.classSite user pool name
  | .fieldRef owner nameAndType => table.memberSite user pool .field owner nameAndType
  | .methodRef owner nameAndType => table.memberSite user pool .method owner nameAndType
  | .interfaceMethodRef owner nameAndType => table.memberSite user pool .method owner nameAndType
  | _ => .ok none

/-- All symbols that have to be public, some of them perhaps more than once. -/
def sites (table : ClassTable) : Outcome (List AccessSite) := do
  let found ← table.files.toList.zipIdx.mapM fun (file, user) =>
    file.pool.constants.filterMapM fun (_, constant) => table.siteOf user file.pool constant
  return found.flatten

end ClassTable

def publishMembers (members : List Member) (chosen : Nat → Bool) : List Member :=
  members.zipIdx.map fun (member, position) =>
    if chosen position then { member with access := AccessTransform.publish.apply member.access } else member

/-- The class file at a position with the given symbols of it made public. -/
def publish (file : ClassFile) (index : Nat) (sites : List AccessSite) : ClassFile :=
  { file with
    access := if sites.contains (.ofClass index) then AccessTransform.publish.apply file.access
      else file.access
    fields := publishMembers file.fields fun position => sites.contains (.ofMember .field index position)
    methods := publishMembers file.methods fun position => sites.contains (.ofMember .method index position) }

/-- The entry at a position with the given symbols of it made public. Other entries keep their bytes. -/
def publishEntry (table : ClassTable) (sites : List AccessSite) (entry : ClassEntry) (index : Nat) :
    Outcome ClassEntry :=
  if sites.any (·.index = index) then
    match table.files[index]? with
    | some file => do
      let bytes ← Outcome.within (.writeClass entry.path) (publish file index sites).toBytes
      return { entry with bytes }
    | none => .ok entry
  else .ok entry

/-- Makes public what other packages use, and gives the number of classes that changed. -/
def fix (classes : List ClassEntry) : Outcome (Nat × List ClassEntry) := do
  let table ← ClassTable.read classes
  let sites ← table.sites
  let changed := (List.range classes.length).countP fun index => sites.any (·.index = index)
  let classes ← classes.zipIdx.mapM fun (entry, index) => publishEntry table sites entry index
  return (changed, classes)

/-- Writes classes back at their places in the list, one after another. Where one cannot be written, those before it
have been. -/
def writeBack (table : ClassTable) (sites : List AccessSite) :
    List Nat → List ClassEntry → Outcome Unit × List ClassEntry
  | [], classes => (.ok (), classes)
  | index :: indices, classes =>
    match classes[index]?.map fun entry => publishEntry table sites entry index with
    | none => writeBack table sites indices classes
    | some (.error failure) => (.error failure, classes)
    | some (.ok entry) => writeBack table sites indices (classes.set index entry)

/-- The repair, with each changed class written back once, in the order in which symbols of them were found. -/
def fixInPlace (classes : List ClassEntry) : Outcome Nat × List ClassEntry :=
  match (do let table ← ClassTable.read classes; return (table, ← table.sites) : Outcome _) with
  | .error failure => (.error failure, classes)
  | .ok (table, sites) =>
    let changed := (sites.map AccessSite.index).eraseDups
    let (outcome, classes) := writeBack table sites changed classes
    (outcome.map fun _ => changed.length, classes)

end JarRemap.PackageAccess
