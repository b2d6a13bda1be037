import JarRemap.Failure
import JarRemap.Text.Cut

/-!
# Entries of archives

An archive is a list of named entries. How it is laid out in bytes is a matter of `JarRemap.Archive.ZipFile`.
-/
namespace JarRemap

/-- When an entry was changed last. Seconds are even. -/
structure Timestamp where
  year : Nat
  month : Nat
  day : Nat
  hour : Nat
  minute : Nat
  second : Nat
deriving DecidableEq

namespace Timestamp

def earliest : Timestamp := ⟨1980, 1, 1, 0, 0, 0⟩

def parts (time : Timestamp) : List Nat :=
  [time.year, time.month, time.day, time.hour, time.minute, time.second]

def ofParts? : List Nat → Option Timestamp
  | [year, month, day, hour, minute, second] => some ⟨year, month, day, hour, minute, second⟩
  | _ => none

end Timestamp

def isClassPath (path : String) : Bool := (Text.stripEnd? ".class" path).isSome

structure ArchiveEntry where
  name : String
  data : Bytes
  modified : Timestamp
  /-- What is wrong with the data, if they cannot be read. -/
  damage : Option String := none
deriving DecidableEq

namespace ArchiveEntry

def read (entry : ArchiveEntry) : Outcome Bytes :=
  match entry.damage with
  | none => .ok entry.data
  | some fault => Outcome.fail (.other fault)

/-- The data. The entry is named if they cannot be read. -/
def content (entry : ArchiveEntry) : Outcome Bytes := Outcome.within (.readEntry entry.name) entry.read

def isDirectory (entry : ArchiveEntry) : Bool :=
  entry.name.toList.getLast? == some '/' || entry.name.toList.getLast? == some '\\'

def isClass (entry : ArchiveEntry) : Bool := isClassPath entry.name

end ArchiveEntry

end JarRemap
