import JarRemap.Text.Printable

/-!
# Quoted text

Messages show names between quotes, so that blanks and invisible characters in them can be seen. A
backslash introduces an escape: a letter for the common control characters, and the code point in
braces for every other character that has no visible form or would attach to the character before.
The quote that encloses the text is escaped inside it, the other kind of quote is not.
-/
namespace JarRemap.Text

/-- The hexadecimal digits of a number, in lower case and without padding. -/
def hexDigits (n : Nat) : String := String.ofList (Nat.toDigits 16 n)

/-- The quoted form of one character inside the quote `mark`. -/
def quotedChar (mark c : Char) : List Char :=
  if c = '\x00' then ['\\', '0']
  else if c = '\t' then ['\\', 't']
  else if c = '\r' then ['\\', 'r']
  else if c = '\n' then ['\\', 'n']
  else if c = '\\' || c = mark then ['\\', c]
  else if extendsGrapheme c || !isPrintable c then
    ['\\', 'u', '\x7b'] ++ Nat.toDigits 16 c.toNat ++ ['\x7d']
  else [c]

def quoted (text : String) : String :=
  String.ofList ('"' :: text.toList.flatMap (quotedChar '"') ++ ['"'])

def quotedSingle (c : Char) : String :=
  String.ofList ('\'' :: quotedChar '\'' c ++ ['\''])

def bracketed (members : List String) : String :=
  "[" ++ ", ".intercalate members ++ "]"

/-- A list of texts, each one quoted, between brackets. -/
def quotedList (texts : List String) : String := bracketed (texts.map quoted)

end JarRemap.Text
