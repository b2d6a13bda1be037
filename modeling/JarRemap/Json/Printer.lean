import JarRemap.Json.Value

/-!
# Writing JSON

Values are written without blanks. Quotes, backslashes and control characters in strings are escaped.
-/
namespace JarRemap.JsonText

def writtenChar (c : Char) : List Char :=
  match c with
  | '"' => ['\\', '"']
  | '\\' => ['\\', '\\']
  | '\n' => ['\\', 'n']
  | '\r' => ['\\', 'r']
  | '\t' => ['\\', 't']
  | c =>
    if c.toNat < 0x20 then
      ['\\', 'u', '0', '0', Nat.digitChar (c.toNat / 16), Nat.digitChar (c.toNat % 16)]
    else [c]

def writtenText (text : String) : List Char := '"' :: text.toList.flatMap writtenChar ++ ['"']

mutual

/-- A value. A string that is no text is written as the empty one. -/
def written : JsonValue → List Char
  | .null => "null".toList
  | .bool true => "true".toList
  | .bool false => "false".toList
  | .number literal => literal.toList
  | .string text => writtenText (text.getD "")
  | .array elements => '[' :: writtenElements elements ++ [']']
  | .object members => '\x7b' :: writtenMembers members ++ ['\x7d']

/-- The elements of an array, with a comma between any two. -/
def writtenElements : List JsonValue → List Char
  | [] => []
  | [element] => written element
  | element :: rest => written element ++ ',' :: writtenElements rest

/-- The members of an object, with a comma between any two. -/
def writtenMembers : List (Option String × JsonValue) → List Char
  | [] => []
  | [(name, value)] => writtenText (name.getD "") ++ ':' :: written value
  | (name, value) :: rest =>
    writtenText (name.getD "") ++ ':' :: written value ++ ',' :: writtenMembers rest

end

def print (value : JsonValue) : String := String.ofList (written value)

end JarRemap.JsonText
