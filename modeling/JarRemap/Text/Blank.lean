/-!
# Blanks and words

A blank is a character with the property White_Space. A line falls into words at its blanks; blanks
at the ends and repeated ones between two words make no empty words.
-/
namespace JarRemap.Text

/-- Whether the character has the property White_Space. -/
def isBlank (c : Char) : Bool :=
  let point := c.toNat
  (9 ≤ point && point ≤ 13) || point == 0x20 || point == 0x85 || point == 0xA0 || point == 0x1680 ||
    (0x2000 ≤ point && point ≤ 0x200A) || point == 0x2028 || point == 0x2029 || point == 0x202F ||
    point == 0x205F || point == 0x3000

/-- The words of a text, where `word` holds the characters of the word being read, latest first. -/
def wordsFrom (word : List Char) : List Char → List String
  | [] => if word.isEmpty then [] else [String.ofList word.reverse]
  | c :: rest =>
    if isBlank c then
      if word.isEmpty then wordsFrom [] rest
      else String.ofList word.reverse :: wordsFrom [] rest
    else wordsFrom (c :: word) rest

/-- The maximal runs of characters that are not blanks, in order. -/
def words (text : String) : List String := wordsFrom [] text.toList

end JarRemap.Text
