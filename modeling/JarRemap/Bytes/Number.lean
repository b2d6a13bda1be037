import JarRemap.ClassFile.Constant

/-!
# Numbers in big-endian order

The most significant byte stands first. Writing a number into too few bytes drops its upper part, so a
length is checked before it is written.
-/
namespace JarRemap

/-- The number that the bytes spell, after the more significant part `high`. -/
def bigEndianFrom (high : Nat) : Bytes → Nat
  | [] => high
  | byte :: rest => bigEndianFrom (high * 256 + byte.toNat) rest

def bigEndian (bytes : Bytes) : Nat := bigEndianFrom 0 bytes

def bigEndianBytes : (width number : Nat) → Bytes
  | 0, _ => []
  | width + 1, number => bigEndianBytes width (number / 256) ++ [number.toUInt8]

def u8Bytes (number : UInt8) : Bytes := [number]

def u16Bytes (number : UInt16) : Bytes := bigEndianBytes 2 number.toNat

def u32Bytes (number : UInt32) : Bytes := bigEndianBytes 4 number.toNat

def u64Bytes (number : UInt64) : Bytes := bigEndianBytes 8 number.toNat

end JarRemap
