import JarRemap.Text.Numeric

/-!
# Identifiers of the Java language

The names that a local variable can have in source code. The receiver's name is a reserved word, but
tables of local variables use it, so it counts as an identifier here.
-/
namespace JarRemap

/-- The reserved words that cannot name a local variable. -/
def reservedWords : List String := [
  "abstract", "assert", "boolean", "break", "byte", "case", "catch", "char", "class", "const",
  "continue", "default", "do", "double", "else", "enum", "extends", "final", "finally", "float",
  "for", "goto", "if", "implements", "import", "instanceof", "int", "interface", "long", "native",
  "new", "package", "private", "protected", "public", "return", "short", "static", "strictfp",
  "super", "switch", "synchronized", "throw", "throws", "transient", "try", "void", "volatile",
  "while", "true", "false", "null", "_"]

def startsIdentifier (c : Char) : Bool := Text.isAlphabetic c || c == '_' || c == '$'

/-- Whether the character can stand inside an identifier. -/
def continuesIdentifier (c : Char) : Bool := Text.isAlphanumeric c || c == '_' || c == '$'

def isIdentifier (name : String) : Bool :=
  match name.toList with
  | [] => false
  | first :: rest =>
    startsIdentifier first && rest.all continuesIdentifier && !reservedWords.contains name

end JarRemap
