import JarRemap.Access.Widening
import JarRemap.Text.Stream

/-!
# Access widener files

The first line of an access widener names the format, its version and a namespace. Every later line is a
widening, or blank. Nothing is read beyond the first line that is refused.
-/
namespace JarRemap

open Outcome

/-- An access widener whose header was read. The last widening may be a refused line. -/
structure WidenerFile where
  space : String
  widenings : List (Outcome Widening)

/-- What a reader of an access widener meets, in order. -/
inductive WidenerEvent where
  | header (space : String)
  | widening (widening : Widening)
deriving DecidableEq

namespace WidenerFile

def header (line : String) : Except WidenerFault String :=
  match Text.words line with
  | [marker, version, space] =>
    if marker ≠ "accessWidener" then .error (.notAWidener marker)
    else if version ≠ "v1" then .error (.unsupportedVersion version)
    else .ok space
  | fields => .error (.headerFieldCount fields)

def ofFault {α : Type} : Except WidenerFault α → Outcome α
  | .ok value => .ok value
  | .error fault => fail (.widener fault)

def lineAt (number : Nat) (bytes : Bytes) : Outcome (Option Widening) :=
  within (.inLine number) do
    let text ← Text.ofStream bytes
    ofFault (Widening.ofText text)

/-- The widenings of the lines from the given number on. -/
def widenFrom : (number : Nat) → List Bytes → List (Outcome Widening)
  | _, [] => []
  | number, line :: rest =>
    match lineAt number line with
    | .ok none => widenFrom (number + 1) rest
    | .ok (some widening) => .ok widening :: widenFrom (number + 1) rest
    | .error failure => [.error failure]

def read (bytes : Bytes) : Outcome WidenerFile := do
  match Text.byteLines bytes with
  | [] => fail (.widener .missingHeader)
  | first :: rest =>
    let text ← Text.ofStream first
    let space ← within (.inLine 1) (ofFault (header text))
    return { space, widenings := widenFrom 2 rest }

/-- Gives the header and then every widening to a visitor that carries a state, until one of them fails.
The state is what the visitor made of the events before. -/
def visit {σ : Type} (file : WidenerFile) (visitor : WidenerEvent → σ → Outcome σ) (start : σ) :
    σ × Outcome Unit :=
  go start (.ok (.header file.space) :: file.widenings.map (WidenerEvent.widening <$> ·))
where
  /-- Visits the events that are left. -/
  go (state : σ) : List (Outcome WidenerEvent) → σ × Outcome Unit
    | [] => (state, .ok ())
    | .error failure :: _ => (state, .error failure)
    | .ok event :: rest =>
      match visitor event state with
      | .ok state => go state rest
      | .error failure => (state, .error failure)

end WidenerFile

end JarRemap
