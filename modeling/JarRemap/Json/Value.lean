/-!
# JSON values

A number keeps the text it was written as. A string that holds half of a surrogate pair, or bytes that
encode nothing, is no text; it may stand where nobody looks at it.
-/
namespace JarRemap

/-- A value of the JSON format. The members of an object keep their order and may repeat a name. -/
inductive JsonValue where
  | null
  | bool (value : Bool)
  | number (literal : String)
  | string (text : Option String)
  | array (elements : List JsonValue)
  | object (members : List (Option String × JsonValue))

namespace JsonValue

def ofText (text : String) : JsonValue := .string (some text)

def text? : JsonValue → Option String
  | .string text => text
  | _ => none

def elements? : JsonValue → Option (List JsonValue)
  | .array elements => some elements
  | _ => none

/-- The number that digits stand for, latest digit last. -/
def ofDigits (digits : List Char) : Nat :=
  digits.foldl (fun number digit => number * 10 + (digit.toNat - '0'.toNat)) 0

/-- A number that is written with digits only and fits 64 bits. -/
def word? : JsonValue → Option Nat
  | .number literal =>
    let number := ofDigits literal.toList
    if literal.toList.all (fun c => '0' ≤ c && c ≤ '9') && number < 18446744073709551616 then some number
    else none
  | _ => none

/-- The value of the member with the given name, if there is one. Fails if there are several. -/
def member? (members : List (Option String × JsonValue)) (name : String) : Option (Option JsonValue) :=
  match members.filter fun entry => entry.1 = some name with
  | [] => some none
  | [(_, value)] => some (some value)
  | _ => none

/-- The values of the named fields of a record, which is written as an object, or as an array of its
fields in order. Members with other names are ignored, but all names must be text. -/
def fields? (names : List String) : JsonValue → Option (List (Option JsonValue))
  | .object members => if members.all (·.1.isSome) then names.mapM (member? members) else none
  | .array elements =>
    if elements.length ≤ names.length then some (names.zipIdx.map fun (_, index) => elements[index]?)
    else none
  | _ => none

end JsonValue

end JarRemap
