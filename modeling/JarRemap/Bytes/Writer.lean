import JarRemap.Bytes.Number
import JarRemap.Failure

/-!
# Writing bytes

What is written is a list of bytes. Writing can only fail on a length: a list or a block that is longer
than the number in front of it can tell.
-/
namespace JarRemap

def lengthBytes16 (length : Nat) : Outcome Bytes :=
  if length < 65536 then .ok (u16Bytes length.toUInt16) else Outcome.fail (.lengthTooLarge length 16)

def lengthBytes32 (length : Nat) : Outcome Bytes :=
  if length < 4294967296 then .ok (u32Bytes length.toUInt32)
  else Outcome.fail (.lengthTooLarge length 32)

/-- The elements of a list one after another, each written by `write`. -/
def concatBytes {α : Type} (write : α → Outcome Bytes) (elements : List α) : Outcome Bytes := do
  let written ← elements.mapM write
  pure written.flatten

def listBytes {α : Type} (write : α → Outcome Bytes) (elements : List α) : Outcome Bytes := do
  let length ← lengthBytes16 elements.length
  let content ← concatBytes write elements
  pure (length ++ content)

end JarRemap
