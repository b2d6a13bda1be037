import JarRemap.Text.Cut
import JarRemap.Text.Quoted

/-!
# Lines of a mapping file

The tabs at the start of a line give its depth. The tabs after that separate its fields; the first
field names what the line declares.
-/
namespace JarRemap

/-- A line of a mapping file, with the fields after the first that have not been taken yet. -/
structure Line where
  number : Nat
  depth : Nat
  first : String
  fields : List String
deriving DecidableEq

namespace Line

def ofText (number : Nat) (text : String) : Line :=
  let content := text.toList.dropWhile (· == '\t')
  let depth := (text.toList.takeWhile (· == '\t')).length
  match Text.parts '\t' content with
  | [] => { number, depth, first := "", fields := [] }
  | first :: fields =>
    { number, depth, first := String.ofList first, fields := fields.map String.ofList }

/-- The line as messages show it: only the fields that are left. -/
def shown (line : Line) : String :=
  "TinyLine \x7b line_number: " ++ toString line.number ++ ", idents: " ++ toString line.depth ++
    ", first_field: " ++ Text.quoted line.first ++ ", fields: IntoIter(" ++
    Text.quotedList line.fields ++ ") \x7d"

end Line

end JarRemap
