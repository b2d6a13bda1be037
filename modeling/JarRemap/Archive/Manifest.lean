import JarRemap.Text.Cut
import JarRemap.Text.Lines

/-!
# Signed archives

The manifest of a signed archive has a section for each entry, and signature files stand beside it. Both
are wrong as soon as an entry changes.
-/
namespace JarRemap.Manifest

def path : String := "META-INF/MANIFEST.MF"

/-- Whether a path names a signature file, which stands directly beside the manifest. -/
def isSignaturePath (path : String) : Bool :=
  match Text.stripStart? "META-INF/" path with
  | some name =>
    !name.toList.contains '/' &&
      [".SF", ".RSA", ".DSA", ".EC"].any fun ending => (Text.stripEnd? ending name).isSome
  | none => false

/-- The main section of a manifest: the lines before the first empty one, each with its full line end,
and an empty line after them. -/
def mainSection (manifest : String) : String :=
  let lines := (Text.lines manifest).takeWhile (· ≠ "")
  String.join (lines.map (· ++ "\r\n")) ++ "\r\n"

end JarRemap.Manifest
