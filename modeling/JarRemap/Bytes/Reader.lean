import JarRemap.Bytes.Number
import JarRemap.Failure

/-!
# Reading bytes

A reader takes bytes from the front of its input and leaves the rest. It fails as soon as the input
is too short for what it wants; a block of bytes also tells how many there were.
-/
namespace JarRemap

abbrev Reader := StateT Bytes Outcome

namespace Reader

variable {α : Type}

def fail (cause : Cause) : Reader α := fun _ => Outcome.fail cause

def within (context : Context) (reader : Reader α) : Reader α :=
  fun input => Outcome.within context (reader input)

def number (width : Nat) : Reader Nat := fun input =>
  let taken := input.take width
  if taken.length < width then Outcome.fail (.endOfData width)
  else .ok (bigEndian taken, input.drop width)

def u8 : Reader UInt8 := Nat.toUInt8 <$> number 1

def u16 : Reader UInt16 := Nat.toUInt16 <$> number 2

def u32 : Reader UInt32 := Nat.toUInt32 <$> number 4

def u64 : Reader UInt64 := Nat.toUInt64 <$> number 8

def block (size : Nat) : Reader Bytes := fun input =>
  let taken := input.take size
  if taken.length < size then Outcome.fail (.shortData size taken.length)
  else .ok (taken, input.drop size)

/-- Reads `count` elements, after those in `read`, which are held latest first. -/
def timesFrom (read : List α) (element : Reader α) : Nat → Reader (List α)
  | 0 => pure read.reverse
  | count + 1 => do
    let next ← element
    timesFrom (next :: read) element count

def times (count : Nat) (element : Reader α) : Reader (List α) := timesFrom [] element count

def list (element : Reader α) : Reader (List α) := do
  let count ← u16
  times count.toNat element

end Reader

end JarRemap
