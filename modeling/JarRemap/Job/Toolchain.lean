/-!
# Toolchains

A toolchain is the family of tools that an archive is remapped for.
-/
namespace JarRemap

inductive Toolchain where
  | fabric
  | forge
deriving DecidableEq

namespace Toolchain

def title : Toolchain → String
  | .fabric => "Fabric"
  | .forge => "Forge"

def keyword : Toolchain → String
  | .fabric => "fabric"
  | .forge => "forge"

def ofKeyword? (name : String) : Option Toolchain :=
  if name = "fabric" then some .fabric
  else if name = "forge" then some .forge
  else none

end Toolchain

end JarRemap
