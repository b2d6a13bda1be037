import JarRemap.Json.Value
import JarRemap.Text.Utf8

/-!
# Reading JSON

All marks of the format are single bytes, so it is read byte by byte, each byte seen as the character with
its number. Only the content of a string is decoded as a whole; one that is no text is a value all the same.

A reader takes what it needs from the front and gives the rest. The format is taken strictly: no
blanks other than space, tab and line ends, no control characters in strings, no zeros before a number.
Nesting may be as deep as the data allows.
-/
namespace JarRemap.JsonText

def isGap (c : Char) : Bool := c == ' ' || c == '\n' || c == '\t' || c == '\r'

def afterGaps (text : List Char) : List Char := text.dropWhile isGap

def isDigit (c : Char) : Bool := '0' ≤ c && c ≤ '9'

/-- The digits at the start, of which there must be one, and the rest. -/
def digits (text : List Char) : Option (List Char × List Char) :=
  match text.span isDigit with
  | ([], _) => none
  | found => some found

/-- The whole part of a number. Only the number zero starts with a zero. -/
def wholePart (text : List Char) : Option (List Char × List Char) := do
  let (whole, rest) ← digits text
  if whole.head? = some '0' && whole.length ≠ 1 then none else some (whole, rest)

def fractionPart : List Char → Option (List Char × List Char)
  | '.' :: text => (digits text).map fun (fraction, rest) => ('.' :: fraction, rest)
  | text => some ([], text)

def signPart : List Char → List Char × List Char
  | '+' :: rest => (['+'], rest)
  | '-' :: rest => (['-'], rest)
  | rest => ([], rest)

def exponentPart (text : List Char) : Option (List Char × List Char) :=
  match text with
  | c :: rest =>
    if c = 'e' || c = 'E' then
      let (sign, rest) := signPart rest
      (digits rest).map fun (exponent, rest) => (c :: sign ++ exponent, rest)
    else some ([], text)
  | [] => some ([], [])

def number (text : List Char) : Option (JsonValue × List Char) := do
  let (minus, rest) := match text with
    | '-' :: rest => (['-'], rest)
    | rest => ([], rest)
  let (whole, rest) ← wholePart rest
  let (fraction, rest) ← fractionPart rest
  let (exponent, rest) ← exponentPart rest
  return (.number (String.ofList (minus ++ whole ++ fraction ++ exponent)), rest)

def hexValue? (c : Char) : Option Nat :=
  if '0' ≤ c && c ≤ '9' then some (c.toNat - '0'.toNat)
  else if 'a' ≤ c && c ≤ 'f' then some (c.toNat - 'a'.toNat + 10)
  else if 'A' ≤ c && c ≤ 'F' then some (c.toNat - 'A'.toNat + 10)
  else none

/-- The code unit that four hexadecimal digits stand for. -/
def codeUnit (a b c d : Char) : Option Nat := do
  return (((← hexValue? a) * 16 + (← hexValue? b)) * 16 + (← hexValue? c)) * 16 + (← hexValue? d)

def escape? : Char → Option Char
  | '"' => some '"'
  | '\\' => some '\\'
  | '/' => some '/'
  | 'b' => some '\x08'
  | 'f' => some '\x0c'
  | 'n' => some '\n'
  | 'r' => some '\r'
  | 't' => some '\t'
  | _ => none

/-- A part of a string's content: a byte, or an escaped code unit, which may be half of a surrogate pair. -/
inductive StringPart where
  | byte (value : UInt8)
  | unit (code : Nat)

/-- The parts of a string up to its closing quote, and the rest. -/
def stringParts : List Char → Option (List StringPart × List Char)
  | [] => none
  | '"' :: rest => some ([], rest)
  | '\\' :: 'u' :: a :: b :: c :: d :: rest => do
    let code ← codeUnit a b c d
    let (later, rest) ← stringParts rest
    return (.unit code :: later, rest)
  | '\\' :: e :: rest => do
    let plain ← escape? e
    let (later, rest) ← stringParts rest
    return (.unit plain.toNat :: later, rest)
  | c :: rest =>
    if c.toNat < 0x20 || c = '\\' then none
    else do
      let (later, rest) ← stringParts rest
      return (.byte c.toNat.toUInt8 :: later, rest)

def isHighHalf (code : Nat) : Bool := 0xD800 ≤ code && code ≤ 0xDBFF

def isLowHalf (code : Nat) : Bool := 0xDC00 ≤ code && code ≤ 0xDFFF

def bytesOfCode (code : Nat) : List UInt8 := String.utf8EncodeChar (Char.ofNat code)

/-- The bytes that parts of a string stand for, if no half of a surrogate pair stands alone. -/
def bytesOfParts : List StringPart → Option (List UInt8)
  | [] => some []
  | .byte value :: rest => (value :: ·) <$> bytesOfParts rest
  | .unit code :: rest =>
    if isHighHalf code then
      match rest with
      | .unit low :: rest =>
        if isLowHalf low then
          (bytesOfCode (0x10000 + (code - 0xD800) * 0x400 + (low - 0xDC00)) ++ ·) <$> bytesOfParts rest
        else none
      | _ => none
    else if isLowHalf code then none
    else (bytesOfCode code ++ ·) <$> bytesOfParts rest

def textOfParts? (parts : List StringPart) : Option String := do
  (Text.decodeUtf8 (← bytesOfParts parts)).toOption

def string (text : List Char) : Option (Option String × List Char) := do
  let (parts, rest) ← stringParts text
  return (textOfParts? parts, rest)

mutual

/-- Reads a value with anything after it. Every call of a reader takes one unit of fuel. -/
def value : (fuel : Nat) → List Char → Option (JsonValue × List Char)
  | 0, _ => none
  | fuel + 1, text =>
    match afterGaps text with
    | 'n' :: 'u' :: 'l' :: 'l' :: rest => some (.null, rest)
    | 't' :: 'r' :: 'u' :: 'e' :: rest => some (.bool true, rest)
    | 'f' :: 'a' :: 'l' :: 's' :: 'e' :: rest => some (.bool false, rest)
    | '"' :: rest => (string rest).map fun (text, rest) => (.string text, rest)
    | '[' :: rest =>
      match afterGaps rest with
      | ']' :: rest => some (.array [], rest)
      | rest => (elements fuel rest).map fun (found, rest) => (.array found, rest)
    | '\x7b' :: rest =>
      match afterGaps rest with
      | '\x7d' :: rest => some (.object [], rest)
      | rest => (members fuel rest).map fun (found, rest) => (.object found, rest)
    | rest => number rest

def elements : (fuel : Nat) → List Char → Option (List JsonValue × List Char)
  | 0, _ => none
  | fuel + 1, text => do
    let (first, rest) ← value fuel text
    match afterGaps rest with
    | ']' :: rest => return ([first], rest)
    | ',' :: rest =>
      let (later, rest) ← elements fuel rest
      return (first :: later, rest)
    | _ => none

def members : (fuel : Nat) → List Char → Option (List (Option String × JsonValue) × List Char)
  | 0, _ => none
  | fuel + 1, text =>
    match afterGaps text with
    | '"' :: rest => do
      let (name, rest) ← string rest
      match afterGaps rest with
      | ':' :: rest =>
        let (first, rest) ← value fuel rest
        match afterGaps rest with
        | '\x7d' :: rest => return ([(name, first)], rest)
        | ',' :: rest =>
          let (later, rest) ← members fuel rest
          return ((name, first) :: later, rest)
        | _ => none
      | _ => none
    | _ => none

end

/-- Reads data that is one value. Between two bytes that are taken there are at most two calls. -/
def read (data : List UInt8) : Option JsonValue := do
  let (found, rest) ← value (2 * data.length + 2) (data.map fun byte => Char.ofNat byte.toNat)
  if (afterGaps rest).isEmpty then some found else none

end JarRemap.JsonText
