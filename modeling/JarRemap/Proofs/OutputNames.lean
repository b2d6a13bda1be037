import JarRemap.Proofs.OutputClearing

/-!
# The names of outputs

The name of an output is joined from several parts, partly with dashes, so it can sometimes be read in two ways. It
can be read in one way only if the parts that a dash follows have no dash, and the suffix begins with one but does
not look like the mark of a toolchain; or if all but one of the parts are known. If no part has a slash, outputs
with different names are at different places, in every tree.
-/
namespace JarRemap

open List JarRemap.Path Text FileTree

namespace Text

theorem parts_append_mark (mark : Char) (first rest : List Char) :
    parts mark (first ++ mark :: rest) = parts mark first ++ parts mark rest := by
  induction first with
  | nil => simp [parts]
  | cons c first ih =>
    obtain ⟨part, later, shape⟩ : ∃ part later, parts mark first = part :: later := by
      obtain ⟨front, last, appended⟩ := exists_parts_append mark first
      have shape := appended [] not_mem_nil
      rw [append_nil] at shape
      cases front with
      | nil | cons part front => exact ⟨_, _, shape⟩
    rw [cons_append, parts, parts, ih, shape]
    split <;> rfl

end Text

namespace CacheIdentity

variable {identity other : CacheIdentity} {role otherRole kind otherKind : String}

def mark : Toolchain → List Char
  | .fabric => []
  | .forge => "-forge".toList

/-- What stands in a name after the version of the mappings. -/
def ending (identity : CacheIdentity) : List Char := mark identity.toolchain ++ identity.jarSuffix.toList

def afterKind (identity : CacheIdentity) : List Char :=
  identity.mappingName.toList ++ '-' :: (identity.mappingVersion.toList ++ identity.ending)

/-- The names of outputs can be read in one way only: there is no dash in the parts that a dash follows, and
the suffix is empty or begins with a dash, but not like the mark of a toolchain that is left out. -/
structure Legible (identity : CacheIdentity) : Prop where
  version : '-' ∉ identity.version.toList
  mappingName : '-' ∉ identity.mappingName.toList
  mappingVersion : '-' ∉ identity.mappingVersion.toList
  jarSuffix : identity.jarSuffix = "" ∨ startsWith '-' identity.jarSuffix = true
  unmarked : identity.toolchain = .fabric → stripStart? "-forge" identity.jarSuffix = none

/-- The identities are the same but for at most one of their parts. -/
def DifferInOnePart (identity other : CacheIdentity) : Prop :=
  other = { identity with version := other.version } ∨
  other = { identity with mappingName := other.mappingName } ∨
  other = { identity with mappingVersion := other.mappingVersion } ∨
  other = { identity with toolchain := other.toolchain } ∨
  other = { identity with jarSuffix := other.jarSuffix }

instance (identity other : CacheIdentity) : Decidable (DifferInOnePart identity other) := by
  unfold DifferInOnePart
  infer_instance

theorem toList_fileName (identity : CacheIdentity) (role kind : String) : (identity.fileName role kind).toList =
      role.toList ++ '-' :: (identity.version.toList ++ '-' :: (kind.toList ++ '-' ::
        (identity.afterKind ++ ".jar".toList))) := by
  rw [fileName, versionText, afterKind, ending, mark.eq_def]
  cases identity.toolchain <;> simp [String.toList_append]

theorem Legible.head?_ending (legible : identity.Legible) : ∀ c ∈ identity.ending.head?, c = '-' := by
  rw [ending]
  cases identity.toolchain with
  | fabric =>
    rcases legible.jarSuffix with empty | dash
    · simp [mark, empty]
    · rw [startsWith, beq_iff_eq] at dash
      simp [mark, dash]
  | forge => simp [mark]

theorem Legible.eq_of_ending (legible : identity.Legible) (legibleToo : other.Legible)
    (same : identity.ending = other.ending) :
    identity.toolchain = other.toolchain ∧ identity.jarSuffix = other.jarSuffix := by
  have marked : ∀ {plain forged : CacheIdentity}, plain.Legible → plain.toolchain = .fabric →
      forged.toolchain = .forge → plain.ending ≠ forged.ending := by
    intro plain forged plainLegible fabric forge sameEnding
    rw [ending, ending, fabric, forge] at sameEnding
    change plain.jarSuffix.toList = "-forge".toList ++ forged.jarSuffix.toList at sameEnding
    have found : stripStart? "-forge" plain.jarSuffix = some forged.jarSuffix := by
      rw [stripStart?, dropStart?_eq_some.mpr sameEnding, Option.map_some, String.ofList_toList]
    rw [plainLegible.unmarked fabric] at found
    cases found
  cases chain : identity.toolchain <;> cases otherChain : other.toolchain
  case fabric.forge => exact absurd same (marked legible chain otherChain)
  case forge.fabric => exact absurd same.symm (marked legibleToo otherChain chain)
  all_goals
    rw [ending, ending, chain, otherChain] at same
    exact ⟨rfl, String.toList_injective (append_cancel_left same)⟩

theorem Legible.eq_of_fileName (legible : identity.Legible) (legibleToo : other.Legible)
    (plainRole : '-' ∉ role.toList) (plainOtherRole : '-' ∉ otherRole.toList) (plainKind : '-' ∉ kind.toList)
    (plainOtherKind : '-' ∉ otherKind.toList)
    (same : identity.fileName role kind = other.fileName otherRole otherKind) : identity = other := by
  have letters := congrArg String.toList same
  rw [toList_fileName, toList_fileName] at letters
  obtain ⟨_, letters⟩ := cons_append_inj_of_absent plainRole plainOtherRole letters
  obtain ⟨sameVersion, letters⟩ := cons_append_inj_of_absent legible.version legibleToo.version letters
  obtain ⟨_, letters⟩ := cons_append_inj_of_absent plainKind plainOtherKind letters
  obtain ⟨sameName, letters⟩ := cons_append_inj_of_absent legible.mappingName legibleToo.mappingName
    (append_cancel_right letters)
  obtain ⟨sameMappingVersion, sameEnding⟩ := append_inj_of_absent legible.mappingVersion
    legibleToo.mappingVersion legible.head?_ending legibleToo.head?_ending letters
  obtain ⟨sameToolchain, sameSuffix⟩ := legible.eq_of_ending legibleToo sameEnding
  cases identity
  cases other
  simp_all [String.toList_inj]

theorem DifferInOnePart.eq_of_afterKind (differ : DifferInOnePart identity other)
    (sameVersion : identity.version = other.version) (same : identity.afterKind = other.afterKind) :
    identity = other := by
  rw [afterKind, afterKind, ending, ending] at same
  rcases differ with differ | differ | differ | differ | differ <;> rw [differ] at same ⊢
  · rw [← sameVersion]
  · rw [← String.toList_inj.mp (append_cancel_right same)]
  · have sameRest := tail_eq_of_cons_eq (append_cancel_left same)
    rw [← String.toList_inj.mp (append_cancel_right sameRest)]
  · have sameRest := append_cancel_left (tail_eq_of_cons_eq (append_cancel_left same))
    have sameMark : mark identity.toolchain = mark other.toolchain := append_cancel_right sameRest
    have sameToolchain : identity.toolchain = other.toolchain := by
      cases chain : identity.toolchain <;> cases otherChain : other.toolchain <;>
        simp [chain, otherChain, mark] at sameMark ⊢
    rw [← sameToolchain]
  · have sameRest := append_cancel_left (tail_eq_of_cons_eq (append_cancel_left same))
    rw [← String.toList_inj.mp (append_cancel_left sameRest)]

theorem DifferInOnePart.eq_of_fileName (differ : DifferInOnePart identity other)
    (plainKind : '-' ∉ kind.toList) (plainOtherKind : '-' ∉ otherKind.toList)
    (same : identity.fileName role kind = other.fileName role otherKind) : identity = other := by
  have letters := congrArg String.toList same
  rw [toList_fileName, toList_fileName] at letters
  have letters := tail_eq_of_cons_eq (append_cancel_left letters)
  by_cases sameVersion : identity.version = other.version
  · -- The kind goes from the version to the next dash.
    rw [sameVersion] at letters
    have letters := tail_eq_of_cons_eq (append_cancel_left letters)
    obtain ⟨_, letters⟩ := cons_append_inj_of_absent plainKind plainOtherKind letters
    exact differ.eq_of_afterKind sameVersion (append_cancel_right letters)
  · -- All that follows the kind is the same, and the kind goes back from there to the last dash.
    have sameAfter : identity.afterKind = other.afterKind := by
      rcases differ with differ | differ | differ | differ | differ
      · rw [differ]
        rfl
      all_goals exact absurd (by rw [differ]) sameVersion
    rw [sameAfter] at letters
    have cut : ∀ version kind : List Char, version ++ '-' :: (kind ++ '-' :: (other.afterKind ++ ".jar".toList)) =
        (version ++ '-' :: kind) ++ '-' :: (other.afterKind ++ ".jar".toList) := by simp
    rw [cut, cut] at letters
    obtain ⟨letters, _⟩ := append_cons_inj_of_absent plainKind plainOtherKind (append_cancel_right letters)
    exact absurd (String.toList_inj.mp letters) sameVersion

/-- What is needed to tell the identity from a name: it can be read in one way only, or the roles are the same
and the identities differ in one part. -/
def Distinguishable (identity other : CacheIdentity) (role otherRole : String) : Prop :=
  (identity.Legible ∧ other.Legible ∧ '-' ∉ role.toList ∧ '-' ∉ otherRole.toList) ∨
    (identity.DifferInOnePart other ∧ role = otherRole)

theorem Distinguishable.eq_of_fileName (told : identity.Distinguishable other role otherRole)
    (plainKind : '-' ∉ kind.toList) (plainOtherKind : '-' ∉ otherKind.toList)
    (same : identity.fileName role kind = other.fileName otherRole otherKind) : identity = other := by
  rcases told with ⟨legible, legibleToo, plainRole, plainOtherRole⟩ | ⟨differ, rfl⟩
  · exact legible.eq_of_fileName legibleToo plainRole plainOtherRole plainKind plainOtherKind same
  · exact differ.eq_of_fileName plainKind plainOtherKind same

end CacheIdentity

namespace Path

/-- A name that leads down into a directory: it has no slash, and it is longer than two dots. -/
structure IsName (name : String) : Prop where
  noSlash : '/' ∉ name.toList
  long : 2 < name.length

variable {name inner : String}

section

variable (isName : IsName name)
include isName

theorem IsName.ne_empty : name ≠ "" := by
  rintro rfl
  exact absurd isName.long (by decide)

theorem IsName.isRelative (rest : String) : isRelative (name ++ rest) = true := by
  rw [isRelative_append isName.ne_empty, Path.isRelative, startsWith, Bool.not_eq_true', beq_eq_false_iff_ne]
  intro slash
  exact isName.noSlash (mem_of_head? slash)

theorem IsName.endsInSlash (base : String) : endsInSlash (base ++ name) = false := by
  have filled : name.toList ≠ [] := by simpa using isName.ne_empty
  rw [Path.endsInSlash, String.toList_append, getLast?_append_of_ne_nil _ filled, beq_eq_false_iff_ne]
  intro slash
  exact isName.noSlash (mem_of_getLast? slash)

/-- What a name is put after when it is joined to a path. -/
def withSlash (base : String) : String := if base = "" || endsInSlash base then base else base ++ "/"

theorem IsName.join_eq (base : String) : join base name = withSlash base ++ name := by
  have relative : Path.isRelative name = true := by simpa using isName.isRelative ""
  rw [join, withSlash, relative]
  split
  · contradiction
  · split <;> rfl

theorem IsName.join_join_eq (isInner : IsName inner) (base : String) :
    join (join base name) inner = withSlash base ++ name ++ "/" ++ inner := by
  have filled : withSlash base ++ name ≠ "" := by simp [isName.ne_empty]
  rw [isInner.join_eq, isName.join_eq, withSlash, isName.endsInSlash, if_neg (by simpa using filled)]

end

theorem parts_append_slash (first rest : String) : parts (first ++ "/" ++ rest) = parts first ++ parts rest := by
  have shape : (first ++ "/" ++ rest).toList = first.toList ++ '/' :: rest.toList := by simp
  rw [parts, shape, parts_append_mark, filter_append, map_append]
  rfl

theorem IsName.parts_eq (isName : IsName name) : parts name = [name] := by
  have filled : name.toList.isEmpty = false := by simpa using isName.ne_empty
  rw [parts, parts_of_absent isName.noSlash]
  simp [filled]

end Path

namespace FileTree

/-- Names that are joined to one path lead to different places in one directory, and names that are joined to
those lead into these places. -/
theorem exists_spot_join (tree : FileTree) (base : String) : ∃ folder stem, ∀ name, IsName name →
      tree.spot (join base name) = folder ++ [stem ++ name] ∧
      ∀ inner, IsName inner → tree.spot (join (join base name) inner) = folder ++ [stem ++ name, inner] := by
  obtain ⟨folders, stem, _, appended⟩ := exists_parts_append (withSlash base)
  obtain ⟨start, starts⟩ : ∃ start, ∀ name rest, IsName name →
      tree.start (withSlash base ++ (name ++ rest)) = start := by
    by_cases empty : withSlash base = ""
    · refine ⟨tree.workingPlace, fun name rest isName => ?_⟩
      rw [empty, String.empty_append, start, isName.isRelative, if_pos rfl]
    · refine ⟨tree.start (withSlash base), fun name rest isName => ?_⟩
      rw [start, start, isRelative_append empty]
  refine ⟨folders.foldl turn start, stem, fun name isName => ⟨?_, fun inner isInner => ?_⟩⟩
  · rw [isName.join_eq, spot, appended name isName.ne_empty isName.noSlash, foldl_append, foldl_cons,
      foldl_nil, turn_jar _ _ _ isName.long, ← String.append_empty (s := name), starts name "" isName]
  · have started := starts name ("/" ++ inner) isName
    rw [← String.append_assoc, ← String.append_assoc] at started
    rw [isName.join_join_eq isInner, spot, parts_append_slash, started,
      appended name isName.ne_empty isName.noSlash, isInner.parts_eq, append_assoc, foldl_append]
    have turned : turn (folders.foldl turn start ++ [stem ++ name]) inner =
        folders.foldl turn start ++ [stem ++ name, inner] := by
      have turned := turn_jar (folders.foldl turn start ++ [stem ++ name]) "" inner isInner.long
      rwa [String.empty_append, append_assoc] at turned
    rw [singleton_append, foldl_cons, foldl_cons, foldl_nil, turn_jar _ _ _ isName.long, turned]

end FileTree

namespace CacheIdentity

variable {identity : CacheIdentity} {role kind : String}

def Unbroken (identity : CacheIdentity) : Prop :=
  ∀ text ∈ [identity.version, identity.mappingName, identity.mappingVersion, identity.jarSuffix], '/' ∉ text.toList

instance (identity : CacheIdentity) : Decidable identity.Unbroken := by
  unfold Unbroken
  infer_instance

theorem Unbroken.isName_versionText (unbroken : identity.Unbroken) (noSlash : '/' ∉ kind.toList)
    (long : 2 < kind.length) :
    IsName (identity.versionText kind) := by
  simp only [Unbroken, forall_mem_cons, not_mem_nil, false_implies, implies_true, and_true] at unbroken
  obtain ⟨version, mappingName, mappingVersion, jarSuffix⟩ := unbroken
  constructor
  · rw [versionText]
    cases identity.toolchain <;> simp [version, mappingName, mappingVersion, jarSuffix, noSlash]
  · simp only [versionText, String.length_append]
    omega

theorem Unbroken.isName_fileName (unbroken : identity.Unbroken) (roleNoSlash : '/' ∉ role.toList)
    (kindNoSlash : '/' ∉ kind.toList) : IsName (identity.fileName role kind) := by
  simp only [Unbroken, forall_mem_cons, not_mem_nil, false_implies, implies_true, and_true] at unbroken
  obtain ⟨version, mappingName, mappingVersion, jarSuffix⟩ := unbroken
  constructor
  · rw [toList_fileName, afterKind, ending, mark.eq_def]
    cases identity.toolchain <;> simp [version, mappingName, mappingVersion, jarSuffix, roleNoSlash, kindNoSlash]
  · have ending : ".jar".length = 4 := rfl
    simp only [fileName, String.length_append, ending]
    omega

end CacheIdentity

namespace OutputCache

variable {cache other : OutputCache} {role otherRole : String} {targets otherTargets : List String}
  {output otherOutput : OutputArchive} {tree : FileTree}

/-- The names of namespaces have neither a slash nor a dash. -/
def PlainTargets (targets : List String) : Prop := ∀ target ∈ targets, '/' ∉ target.toList ∧ '-' ∉ target.toList

instance (targets : List String) : Decidable (PlainTargets targets) := by
  unfold PlainTargets
  infer_instance

theorem path_of_mem (listed : output ∈ cache.outputs role targets) :
    output.target ∈ targets ∧ (output.path = cache.pathFor role output.target ∨
      output.path = cache.finalPath role ∧ targets.getLast? = some output.target) := by
  induction targets with
  | nil => cases listed
  | cons target rest ih =>
    cases rest with
    | nil =>
      obtain rfl := mem_singleton.mp listed
      exact ⟨mem_singleton_self _, .inr ⟨rfl, rfl⟩⟩
    | cons next rest =>
      rcases mem_cons.mp listed with rfl | later
      · exact ⟨mem_cons_self, .inl rfl⟩
      · obtain ⟨named, placed⟩ := ih later
        rw [getLast?_cons_cons]
        exact ⟨mem_cons_of_mem _ named, placed⟩

/-- Outputs at the same place have the same name, and are both for the last target or both for others. -/
theorem fileName_eq_of_spot_eq (unbroken : cache.identity.Unbroken) (unbrokenToo : other.identity.Unbroken)
    (roleNoSlash : '/' ∉ role.toList) (otherRoleNoSlash : '/' ∉ otherRole.toList)
    (plain : PlainTargets targets) (plainToo : PlainTargets otherTargets)
    (listed : output ∈ cache.outputs role targets) (otherListed : otherOutput ∈ other.outputs otherRole otherTargets)
    (sameDirectory : cache.directory = other.directory) (same : tree.spot output.path = tree.spot otherOutput.path) :
    cache.identity.fileName role output.target = other.identity.fileName otherRole otherOutput.target ∨
      cache.identity.fileName role "mapped" = other.identity.fileName otherRole "mapped" ∧
        targets.getLast? = some output.target ∧ otherTargets.getLast? = some otherOutput.target := by
  obtain ⟨folder, stem, places⟩ := tree.exists_spot_join cache.directory
  obtain ⟨named, placed⟩ := path_of_mem listed
  obtain ⟨otherNamed, otherPlaced⟩ := path_of_mem otherListed
  have mappedNoSlash : '/' ∉ "mapped".toList := by decide
  have isName := unbroken.isName_fileName roleNoSlash (plain _ named).1
  have isOtherName := unbrokenToo.isName_fileName otherRoleNoSlash (plainToo _ otherNamed).1
  have isFinal := unbroken.isName_fileName roleNoSlash mappedNoSlash
  have isOtherFinal := unbrokenToo.isName_fileName otherRoleNoSlash mappedNoSlash
  have isFolder := unbroken.isName_versionText mappedNoSlash (by decide)
  have isOtherFolder := unbrokenToo.isName_versionText mappedNoSlash (by decide)
  rcases placed with placed | ⟨placed, last⟩ <;> rcases otherPlaced with otherPlaced | ⟨otherPlaced, otherLast⟩ <;>
    rw [placed, otherPlaced] at same
  · rw [pathFor, pathFor, ← sameDirectory, (places _ isName).1, (places _ isOtherName).1] at same
    have sameName := cons.inj (append_cancel_left same)
    exact .inl (String.append_right_inj _ |>.mp sameName.1)
  · rw [pathFor, finalPath, ← sameDirectory, (places _ isName).1, (places _ isOtherFolder).2 _ isOtherFinal] at same
    simp at same
  · rw [finalPath, pathFor, ← sameDirectory, (places _ isFolder).2 _ isFinal, (places _ isOtherName).1] at same
    simp at same
  · rw [finalPath, finalPath, ← sameDirectory, (places _ isFolder).2 _ isFinal,
      (places _ isOtherFolder).2 _ isOtherFinal] at same
    have sameNames := append_cancel_left same
    rw [cons.injEq, cons.injEq] at sameNames
    exact .inr ⟨sameNames.2.1, last, otherLast⟩

/-- Outputs of different identities are at different places in every tree, and so have different paths, if
the identities can be told from their names and no part of a name has a slash. So where there is nothing but
outputs of one identity, those of another one are never up to date. -/
theorem other_identities_have_other_outputs {identity different : CacheIdentity} {directory : String}
    (unequal : identity ≠ different) (told : identity.Distinguishable different role otherRole)
    (unbroken : identity.Unbroken) (unbrokenToo : different.Unbroken)
    (roleNoSlash : '/' ∉ role.toList) (otherRoleNoSlash : '/' ∉ otherRole.toList)
    (plain : PlainTargets targets) (plainToo : PlainTargets otherTargets) :
    (∀ output ∈ outputs ⟨identity, directory⟩ role targets,
      ∀ otherOutput ∈ outputs ⟨different, directory⟩ otherRole otherTargets,
        output.path ≠ otherOutput.path ∧ ∀ tree : FileTree, tree.spot output.path ≠ tree.spot otherOutput.path) ∧
    ∀ tree : FileTree,
      (∀ place content, tree.node? place = some (.file content) →
        ∃ output ∈ outputs ⟨identity, directory⟩ role targets, tree.spot output.path = place) →
      otherTargets ≠ [] → ¬ Present ⟨different, directory⟩ otherRole otherTargets tree := by
  have apart : ∀ output ∈ outputs ⟨identity, directory⟩ role targets,
      ∀ otherOutput ∈ outputs ⟨different, directory⟩ otherRole otherTargets,
        ∀ tree : FileTree, tree.spot output.path ≠ tree.spot otherOutput.path := by
    intro output listed otherOutput otherListed tree same
    have plainKind := (plain _ (path_of_mem listed).1).2
    have plainOtherKind := (plainToo _ (path_of_mem otherListed).1).2
    rcases fileName_eq_of_spot_eq unbroken unbrokenToo roleNoSlash otherRoleNoSlash plain plainToo listed
      otherListed rfl same with sameName | ⟨sameName, _⟩
    · exact unequal (told.eq_of_fileName plainKind plainOtherKind sameName)
    · exact unequal (told.eq_of_fileName (by decide) (by decide) sameName)
  refine ⟨fun output listed otherOutput otherListed => ⟨fun same => ?_, ?_⟩, fun tree only filled present => ?_⟩
  · exact apart output listed otherOutput otherListed .empty (by rw [same])
  · exact apart output listed otherOutput otherListed
  · obtain ⟨otherOutput, otherListed⟩ : ∃ output, output ∈ outputs ⟨different, directory⟩ otherRole otherTargets :=
      exists_mem_outputs filled
    obtain ⟨_, content, standing⟩ := FileTree.isFile_iff.mp (present otherOutput otherListed)
    obtain ⟨output, listed, same⟩ := only _ content standing
    exact apart output listed otherOutput otherListed tree same

def patchedIdentity : CacheIdentity where
  version := "1.16.5"
  mappingName := "yarn"
  mappingVersion := "1.16.5+build.10"
  toolchain := .forge
  jarSuffix := "-36.2.0"

/-- The same game without patches. It differs in the toolchain and in the suffix. -/
theorem other_identities_have_other_outputs_patched :
    patchedIdentity ≠ { patchedIdentity with toolchain := .fabric, jarSuffix := "" } ∧
    ∀ output ∈ outputs ⟨patchedIdentity, "cache"⟩ "minecraft" ["intermediary", "srg", "named"],
      ∀ otherOutput ∈ outputs ⟨{ patchedIdentity with toolchain := .fabric, jarSuffix := "" }, "cache"⟩ "minecraft"
        ["intermediary", "named"],
        output.path ≠ otherOutput.path ∧ ∀ tree : FileTree, tree.spot output.path ≠ tree.spot otherOutput.path := by
  have unequal : patchedIdentity ≠ { patchedIdentity with toolchain := .fabric, jarSuffix := "" } := by decide
  have legible : patchedIdentity.Legible := by
    constructor <;> decide +kernel
  have legibleToo : ({ patchedIdentity with toolchain := .fabric, jarSuffix := "" } : CacheIdentity).Legible := by
    constructor <;> decide +kernel
  exact ⟨unequal, (other_identities_have_other_outputs unequal
    (.inl ⟨legible, legibleToo, by decide, by decide⟩) (by decide) (by decide) (by decide) (by decide) (by decide)
    (by decide)).1⟩

/-- A suffix that looks like the mark of a toolchain leads to the outputs of that toolchain: all outputs that
are looked for are among those of another identity, and are taken as up to date where these are. -/
theorem suffix_like_toolchain_shares_outputs :
    let forge : CacheIdentity := ⟨"1.16.5", "yarn", "1", .forge, ""⟩
    let fabric : CacheIdentity := ⟨"1.16.5", "yarn", "1", .fabric, "-forge"⟩
    fabric ≠ forge ∧
      (∀ output ∈ outputs ⟨fabric, "cache"⟩ "minecraft" ["intermediary", "named"],
        output ∈ outputs ⟨forge, "cache"⟩ "minecraft" ["intermediary", "srg", "named"]) ∧
      ∀ tree : FileTree, Present ⟨forge, "cache"⟩ "minecraft" ["intermediary", "srg", "named"] tree →
        Present ⟨fabric, "cache"⟩ "minecraft" ["intermediary", "named"] tree := by
  intro forge fabric
  have shared : ∀ output ∈ outputs ⟨fabric, "cache"⟩ "minecraft" ["intermediary", "named"],
      output ∈ outputs ⟨forge, "cache"⟩ "minecraft" ["intermediary", "srg", "named"] := by decide
  exact ⟨by decide, shared, fun tree present output listed => present output (shared output listed)⟩

end OutputCache

end JarRemap
