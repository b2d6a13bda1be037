import JarRemap.Failure
import JarRemap.Text.Lines

/-!
# Bytes that are meant as text

Text arrives as bytes, line by line or as a whole. Bytes that are no text fail only where they are looked
at, so the lines of a file are kept as bytes until each one is reached.
-/
namespace JarRemap.Text

/-- The text that the bytes of a line or a file stand for. -/
def ofStream (bytes : Bytes) : Outcome String :=
  match decodeUtf8 bytes with
  | .ok text => .ok text
  | .error _ => Outcome.fail .streamNotUtf8

end JarRemap.Text
