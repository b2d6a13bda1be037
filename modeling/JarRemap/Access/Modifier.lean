/-!
# Visibility and the final modifier

Access flags give a symbol's visibility and whether it is final. Visibilities are ordered from the
narrowest to the widest.
-/
namespace JarRemap

/-- How far a symbol can be seen, from least to most. -/
inductive Visibility where
  | isPrivate
  | isDefault
  | isProtected
  | isPublic
deriving DecidableEq

namespace Visibility

def rank : Visibility → Nat
  | .isPrivate => 0
  | .isDefault => 1
  | .isProtected => 2
  | .isPublic => 3

def keyword : Visibility → String
  | .isPrivate => "private"
  | .isDefault => "default"
  | .isProtected => "protected"
  | .isPublic => "public"

def ofKeyword? (word : String) : Option Visibility :=
  if word = "public" then some .isPublic
  else if word = "protected" then some .isProtected
  else if word = "default" then some .isDefault
  else if word = "private" then some .isPrivate
  else none

/-- The visibility that access flags declare. If several are declared, the public bit decides first,
then the protected one. -/
def ofFlags (flags : UInt16) : Visibility :=
  if flags &&& 0x0001 != 0 then .isPublic
  else if flags &&& 0x0004 != 0 then .isProtected
  else if flags &&& 0x0002 != 0 then .isPrivate
  else .isDefault

def flag : Visibility → UInt16
  | .isPrivate => 0x0002
  | .isDefault => 0
  | .isProtected => 0x0004
  | .isPublic => 0x0001

/-- The wider of two demands, where no demand is narrower than any. -/
def wider : Option Visibility → Option Visibility → Option Visibility
  | none, b => b
  | a, none => a
  | some a, some b => if a.rank ≤ b.rank then some b else some a

end Visibility

inductive FinalChange where
  | keep
  | remove
  | add
deriving DecidableEq

namespace FinalChange

def shown : FinalChange → String
  | .keep => "None"
  | .remove => "Remove"
  | .add => "Add"

end FinalChange

inductive SymbolKind where
  | isClass
  | isMethod
  | isField
deriving DecidableEq

namespace SymbolKind

def keyword : SymbolKind → String
  | .isClass => "class"
  | .isMethod => "method"
  | .isField => "field"

end SymbolKind

end JarRemap
