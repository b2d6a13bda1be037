/-!
# Lines

A line ends at a newline. A carriage return right before that newline belongs to the line's end and
not to its content. What follows the last newline is a line only if it is not empty, and it keeps a
carriage return at its end. The same rule serves text and bytes.
-/
namespace JarRemap.Text

variable {α : Type} [DecidableEq α]

/-- Removes one `return` at the end of a line that is held latest symbol first, and turns it round. -/
def finishLine (ret : α) : List α → List α
  | [] => []
  | c :: line => if c = ret then line.reverse else (c :: line).reverse

/-- The lines of the symbols, where `line` holds the line being read, latest symbol first. -/
def linesFrom (newline ret : α) (line : List α) : List α → List (List α)
  | [] => if line.isEmpty then [] else [line.reverse]
  | c :: rest =>
    if c = newline then finishLine ret line :: linesFrom newline ret [] rest
    else linesFrom newline ret (c :: line) rest

def lines (text : String) : List String :=
  (linesFrom '\n' '\r' [] text.toList).map String.ofList

def byteLines (bytes : List UInt8) : List (List UInt8) := linesFrom 10 13 [] bytes

end JarRemap.Text
