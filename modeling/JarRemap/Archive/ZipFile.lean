import JarRemap.Archive.Checksum
import JarRemap.Archive.Entry
import JarRemap.Archive.Inflate
import JarRemap.Text.Utf8

/-!
# Archives as bytes

An archive is a sequence of entries, each with a header of its own, followed by a directory with one record
for each entry and a record that ends it. Only the directory is trusted to say where entries are. Entries
are read whether they are compressed or not, and written uncompressed.

The numbers in the records are as wide as the format has them: an archive with 65536 entries or more, or
with sizes that need more than 32 bits, is not written.
-/
namespace JarRemap

open Text

namespace Timestamp

def ofNumbers (date time : Nat) : Timestamp where
  year := 1980 + date / 512
  month := date / 32 % 16
  day := date % 32
  hour := time / 2048
  minute := time / 32 % 64
  second := time % 32 * 2

def dateNumber (time : Timestamp) : Nat := (time.year - 1980) * 512 + time.month * 32 + time.day

def timeNumber (time : Timestamp) : Nat := time.hour * 2048 + time.minute * 32 + time.second / 2

end Timestamp

namespace ZipFile

def entryMark : Nat := 0x04034B50

def recordMark : Nat := 0x02014B50

def endMark : Nat := 0x06054B50

def numberAt (data : ByteArray) (offset width : Nat) : Option Nat :=
  let bytes := (data.extract offset (offset + width)).toList
  if bytes.length = width then some (littleEndian bytes) else none

def blockAt (data : ByteArray) (offset size : Nat) : Option Bytes :=
  let bytes := (data.extract offset (offset + size)).toList
  if bytes.length = size then some bytes else none

/-- Whether the record that ends the directory, with its comment, reaches from an offset to the end. -/
def endsFrom (data : ByteArray) (offset : Nat) : Bool :=
  numberAt data offset 4 == some endMark &&
    (numberAt data (offset + 20) 2).map (offset + 22 + ·) == some data.size

/-- The last offset up to the given one at which the record that ends the directory can start. -/
def findEnd (data : ByteArray) : (offset : Nat) → Option Nat
  | 0 => if endsFrom data 0 then some 0 else none
  | offset + 1 => if endsFrom data (offset + 1) then some (offset + 1) else findEnd data offset

/-- The data of an entry, from the bytes in the archive and the number of the method they are packed by. -/
def unpack (method : Nat) (packed : Bytes) : Option Bytes :=
  if method = 0 then some packed else if method = 8 then Inflate.data? packed else none

/-- Reads the entry that the record of the directory at an offset is about, and gives the offset of the next
record. -/
def entryAt (data : ByteArray) (offset : Nat) : Option (ArchiveEntry × Nat) := do
  let mark ← numberAt data offset 4
  let method ← numberAt data (offset + 10) 2
  let time ← numberAt data (offset + 12) 2
  let date ← numberAt data (offset + 14) 2
  let checksum ← numberAt data (offset + 16) 4
  let packedSize ← numberAt data (offset + 20) 4
  let nameLength ← numberAt data (offset + 28) 2
  let extraLength ← numberAt data (offset + 30) 2
  let commentLength ← numberAt data (offset + 32) 2
  let start ← numberAt data (offset + 42) 4
  let name ← (decodeUtf8 (← blockAt data (offset + 46) nameLength)).toOption
  let ownMark ← numberAt data start 4
  let ownNameLength ← numberAt data (start + 26) 2
  let ownExtraLength ← numberAt data (start + 28) 2
  let packed ← blockAt data (start + 30 + ownNameLength + ownExtraLength) packedSize
  let content := unpack method packed
  let sound := content.any fun content => (Checksum.of content).toNat = checksum
  if mark = recordMark ∧ ownMark = entryMark then
    return (⟨name, content.getD packed, .ofNumbers date time, if sound then none else some "Invalid checksum"⟩,
      offset + 46 + nameLength + extraLength + commentLength)
  else none

/-- Reads `count` entries by the records of the directory from an offset on. -/
def entriesFrom (data : ByteArray) : (count offset : Nat) → Option (List ArchiveEntry)
  | 0, _ => some []
  | count + 1, offset => do
    let (entry, next) ← entryAt data offset
    let rest ← entriesFrom data count next
    return entry :: rest

def entries? (data : ByteArray) : Option (List ArchiveEntry) := do
  let ending ← findEnd data data.size
  let count ← numberAt data (ending + 10) 2
  let offset ← numberAt data (ending + 16) 4
  entriesFrom data count offset

/-- What the header of an entry and its record in the directory have in common: that the name is in UTF-8
and the data not compressed, the time, the checksum, and the sizes. -/
def description (entry : ArchiveEntry) : Bytes :=
  littleEndianBytes 2 20 ++ littleEndianBytes 2 0x0800 ++ littleEndianBytes 2 0 ++
    littleEndianBytes 2 entry.modified.timeNumber ++ littleEndianBytes 2 entry.modified.dateNumber ++
    littleEndianBytes 4 (Checksum.of entry.data).toNat ++
    littleEndianBytes 4 entry.data.length ++ littleEndianBytes 4 entry.data.length ++
    littleEndianBytes 2 (encodeUtf8 entry.name).length ++ littleEndianBytes 2 0

def entryBytes (entry : ArchiveEntry) : Bytes :=
  littleEndianBytes 4 entryMark ++ description entry ++ encodeUtf8 entry.name ++ entry.data

/-- The record of the directory for an entry that starts at an offset. -/
def recordBytes (entry : ArchiveEntry) (start : Nat) : Bytes :=
  littleEndianBytes 4 recordMark ++ littleEndianBytes 2 20 ++ description entry ++
    littleEndianBytes 8 0 ++ littleEndianBytes 2 0 ++ littleEndianBytes 4 start ++
    encodeUtf8 entry.name

def endBytes (count size start : Nat) : Bytes :=
  littleEndianBytes 4 endMark ++ littleEndianBytes 4 0 ++ littleEndianBytes 2 count ++
    littleEndianBytes 2 count ++ littleEndianBytes 4 size ++ littleEndianBytes 4 start ++
    littleEndianBytes 2 0

/-- The bytes of an archive, unless it is too large for the numbers in its records. -/
def bytes? (entries : List ArchiveEntry) : Option ByteArray :=
  let (body, directory) := entries.foldl (fun (body, directory) entry =>
    (body ++ (entryBytes entry).toByteArray, directory ++ (recordBytes entry body.size).toByteArray))
    (ByteArray.empty, ByteArray.empty)
  let namesFit := entries.all fun entry => (encodeUtf8 entry.name).length < 65536
  if entries.length < 65536 && namesFit && body.size + directory.size < 4294967296 then
    some (body ++ directory ++ (endBytes entries.length directory.size body.size).toByteArray)
  else none

end ZipFile

end JarRemap
