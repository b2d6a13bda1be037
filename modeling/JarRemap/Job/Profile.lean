import JarRemap.Archive.Writer
import JarRemap.Mapping.Chain
import JarRemap.Remap.Scope

/-!
# Profiles

A profile holds all that differs between toolchains.
-/
namespace JarRemap

/-- Extra work for every target but the last namespace but one. -/
inductive Fixup where
  /-- Names in other files of the archive are replaced too. -/
  | auxiliaryFiles
  /-- Inner classes without a mapping follow their owners. -/
  | innerClasses
deriving DecidableEq

/-- What a toolchain asks for. -/
structure Profile where
  toolchain : Toolchain
  /-- The chain of namespaces, from that of the input archives on. -/
  namespaces : List String
  fixups : List Fixup
  /-- Classes that are renamed for every target. -/
  extraClasses : List (String × String)
  copyMode : CopyMode
  renameInvalidLocals : Bool
  fixPackageAccess : Bool
deriving DecidableEq

namespace Profile

def ofToolchain : Toolchain → Profile
  | .fabric => {
      toolchain := .fabric
      namespaces := ["official", "intermediary", "named"]
      fixups := []
      extraClasses := [
        ("javax/annotation/Nullable", "org/jetbrains/annotations/Nullable"),
        ("javax/annotation/Nonnull", "org/jetbrains/annotations/NotNull"),
        ("javax/annotation/concurrent/Immutable", "org/jetbrains/annotations/Unmodifiable")]
      copyMode := .unchanged
      renameInvalidLocals := true
      fixPackageAccess := false }
  | .forge => {
      toolchain := .forge
      namespaces := ["official", "intermediary", "srg", "named"]
      fixups := [.auxiliaryFiles, .innerClasses]
      extraClasses := []
      copyMode := .unsigned
      renameInvalidLocals := true
      fixPackageAccess := true }

def remapOptions (profile : Profile) : RemapOptions :=
  { renameInvalidLocals := profile.renameInvalidLocals }

def fixupsFor (profile : Profile) (target : String) : List Fixup :=
  if NamespaceChain.beforeLast? profile.namespaces = some target then [] else profile.fixups

/-- The table of the classes that are renamed for every target. -/
def extraTable (profile : Profile) (source target : String) : MappingTable :=
  profile.extraClasses.foldl (fun table (name, newName) => table.insertClass name newName)
    (.empty source target)

end Profile

end JarRemap
