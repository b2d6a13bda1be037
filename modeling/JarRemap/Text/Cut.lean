/-!
# Cutting texts

A text is cut at a character, which belongs to neither part, or relieved of a known beginning or end.
Every function works on the characters of the text, so its meaning is a statement about lists.
-/
namespace JarRemap.Text

/-- The parts before and after the first `mark`, if there is one. -/
def cutFirst? (mark : Char) : List Char → Option (List Char × List Char)
  | [] => none
  | c :: rest =>
    if c = mark then some ([], rest)
    else (cutFirst? mark rest).map fun (before, after) => (c :: before, after)

/-- The parts before and after the last `mark`, if there is one. -/
def cutLast? (mark : Char) : List Char → Option (List Char × List Char)
  | [] => none
  | c :: rest =>
    match cutLast? mark rest with
    | some (before, after) => some (c :: before, after)
    | none => if c = mark then some ([], rest) else none

/-- The parts between the marks; a text without any mark is its own only part. -/
def parts (mark : Char) : List Char → List (List Char)
  | [] => [[]]
  | c :: rest =>
    if c = mark then [] :: parts mark rest
    else
      match parts mark rest with
      | [] => [[c]]
      | part :: later => (c :: part) :: later

def dropStart? : (start text : List Char) → Option (List Char)
  | [], text => some text
  | _ :: _, [] => none
  | s :: start, c :: text => if s = c then dropStart? start text else none

def dropEnd? (finish text : List Char) : Option (List Char) :=
  (dropStart? finish.reverse text.reverse).map List.reverse

def startsWith (c : Char) (text : String) : Bool := text.toList.head? == some c

/-- The part of `text` before the first `mark`, or all of it. -/
def beforeFirst (mark : Char) (text : String) : String :=
  match cutFirst? mark text.toList with
  | some (before, _) => String.ofList before
  | none => text

/-- The part of `text` after the last `mark`, or all of it. -/
def afterLast (mark : Char) (text : String) : String :=
  match cutLast? mark text.toList with
  | some (_, after) => String.ofList after
  | none => text

/-- What follows `start` in `text`, if `text` begins with it. -/
def stripStart? (start text : String) : Option String :=
  (dropStart? start.toList text.toList).map String.ofList

/-- What precedes `finish` in `text`, if `text` ends with it. -/
def stripEnd? (finish text : String) : Option String :=
  (dropEnd? finish.toList text.toList).map String.ofList

def replaceChar (old new : Char) (text : String) : String :=
  String.ofList (text.toList.map fun c => if c = old then new else c)

def joined (pieces : List (List Char)) : String := String.ofList pieces.flatten

end JarRemap.Text
