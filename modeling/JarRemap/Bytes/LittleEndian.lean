import JarRemap.ClassFile.Constant

/-!
# Numbers in little-endian order

The least significant byte stands first. Archives write their numbers so.
-/
namespace JarRemap

def littleEndian : Bytes → Nat
  | [] => 0
  | byte :: rest => byte.toNat + 256 * littleEndian rest

def littleEndianBytes : (width number : Nat) → Bytes
  | 0, _ => []
  | width + 1, number => number.toUInt8 :: littleEndianBytes width (number / 256)

end JarRemap
