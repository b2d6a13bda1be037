import JarRemap.ClassFile.Constant

/-!
# Checksums of archive entries

The checksum is a remainder of polynomials over the field with two elements: the bytes, least significant
bits first, are divided by a fixed polynomial of degree 32. The remainder starts with all bits set and is
inverted at the end.
-/
namespace JarRemap.Checksum

/-- The coefficients of the divisor below its highest one, the constant coefficient in the highest bit. -/
def divisor : UInt32 := 0xEDB88320

def shift (remainder : UInt32) : UInt32 :=
  if remainder &&& 1 = 1 then (remainder >>> 1) ^^^ divisor else remainder >>> 1

def shifts : (count : Nat) → UInt32 → UInt32
  | 0, remainder => remainder
  | count + 1, remainder => shifts count (shift remainder)

def add (remainder : UInt32) (byte : UInt8) : UInt32 := shifts 8 (remainder ^^^ byte.toUInt32)

def of (bytes : Bytes) : UInt32 := ~~~(bytes.foldl add 0xFFFFFFFF)

end JarRemap.Checksum
