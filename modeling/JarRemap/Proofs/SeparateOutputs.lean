import JarRemap.Proofs.FailedRebuilds
import JarRemap.Proofs.WrittenArchives

/-!
# Outputs of their own

Nothing keeps the second archive of a job from replacing what was written for the first. If no two outputs of a job
are at the same place, then a run that is asked to rebuild leaves each archive its own outputs. So it is if the
roles are different and the parts of the names are plain.
-/
namespace JarRemap

open Session FileM FileTree List OutputCache

namespace NamespaceChain

theorem nodup_of_checkHops {visited : List String} {hops : List MappingTable}
    (passed : checkHops visited hops = .ok ()) (distinct : visited.Nodup) :
    (visited ++ hops.map MappingTable.target).Nodup := by
  induction hops generalizing visited with
  | nil => simpa using distinct
  | cons hop hops ih =>
    rw [checkHops] at passed
    split at passed
    · cases passed
    split at passed
    · cases passed
    case isFalse new =>
      have extended : (visited ++ [hop.target]).Nodup := by
        rw [nodup_append]
        refine ⟨distinct, nodup_singleton _, ?_⟩
        rintro name listed _ single rfl
        rw [mem_singleton] at single
        subst single
        exact new (contains_iff_mem.mpr listed)
      have further := ih passed extended
      rwa [append_assoc] at further

theorem nodup_targets_of_ofTree {tree : MappingTree} {namespaces : List String} {chain : NamespaceChain}
    (built : ofTree tree namespaces = .ok chain) : chain.targets.Nodup := by
  obtain ⟨-, hop, -, -, -, passed⟩ := hops_of_ofTree built
  exact (nodup_of_checkHops passed (nodup_singleton _)).of_append_right

end NamespaceChain

namespace CacheIdentity

theorem eq_of_fileName {identity : CacheIdentity} {role otherRole kind otherKind : String}
    (plainKind : '-' ∉ kind.toList) (plainOtherKind : '-' ∉ otherKind.toList)
    (same : identity.fileName role kind = identity.fileName otherRole otherKind) :
    role = otherRole ∧ kind = otherKind := by
  have letters := congrArg String.toList same
  rw [toList_fileName, toList_fileName] at letters
  have cut : ∀ role kind : List Char,
      role ++ '-' :: (identity.version.toList ++ '-' :: (kind ++ '-' :: (identity.afterKind ++ ".jar".toList))) =
        (role ++ '-' :: identity.version.toList) ++ '-' :: kind ++ '-' :: (identity.afterKind ++ ".jar".toList) := by
    simp
  rw [cut, cut] at letters
  obtain ⟨sameFront, sameKind⟩ := Text.append_cons_inj_of_absent plainKind plainOtherKind (append_cancel_right letters)
  exact ⟨String.toList_inj.mp (append_cancel_right sameFront), String.toList_inj.mp sameKind⟩

end CacheIdentity

namespace RemapJob

variable {job : RemapJob} {profile : Profile} {targets : List String} {archives stale : List InputArchive}
  {archive other : InputArchive} {tree final : FileTree} {before after : Session} {chain : NamespaceChain}
  {output otherOutput : OutputArchive}

/-- The parts of the names of outputs have no slash, the targets no dash either, and the roles are different. -/
structure PlainlyNamed (job : RemapJob) (targets : List String) : Prop where
  identity : job.identity.Unbroken
  roles : ∀ archive ∈ job.archives, '/' ∉ archive.role.toList
  distinct : (job.archives.map InputArchive.role).Nodup
  targets : OutputCache.PlainTargets targets

theorem PlainlyNamed.eq_of_spot_eq (plain : job.PlainlyNamed targets) (listed : archive ∈ job.archives)
    (otherListed : other ∈ job.archives) (outputListed : output ∈ job.cache.outputs archive.role targets)
    (otherOutputListed : otherOutput ∈ job.cache.outputs other.role targets)
    (same : tree.spot output.path = tree.spot otherOutput.path) :
    archive.role = other.role ∧ output.target = otherOutput.target := by
  have named := path_of_mem outputListed
  have otherNamed := path_of_mem otherOutputListed
  rcases fileName_eq_of_spot_eq plain.identity plain.identity (plain.roles _ listed)
    (plain.roles _ otherListed) plain.targets plain.targets outputListed otherOutputListed rfl same with
    sameName | ⟨sameName, last, otherLast⟩
  · exact CacheIdentity.eq_of_fileName (plain.targets _ named.1).2 (plain.targets _ otherNamed.1).2 sameName
  · obtain ⟨sameRole, _⟩ := CacheIdentity.eq_of_fileName (by decide) (by decide) sameName
    exact ⟨sameRole, Option.mem_unique last otherLast⟩

theorem PlainlyNamed.outputsSeparate (plain : job.PlainlyNamed targets) (distinct : targets.Nodup)
    (tree : FileTree) : job.OutputsSeparate targets tree := by
  rw [OutputsSeparate, nodup_flatMap]
  constructor
  · intro archive listed
    have separate : (job.cache.outputs archive.role targets).Pairwise fun first second =>
        first.target ≠ second.target := by
      rw [← pairwise_map, map_target_outputs]
      exact distinct
    refine pairwise_map.mpr (separate.imp_of_mem fun firstListed secondListed different same => ?_)
    exact different (plain.eq_of_spot_eq listed listed firstListed secondListed same).2
  · refine (pairwise_map.mp plain.distinct).imp_of_mem fun listed otherListed different => ?_
    intro place placed placedToo
    obtain ⟨output, outputListed, rfl⟩ := mem_map.mp placed
    obtain ⟨otherOutput, otherOutputListed, same⟩ := mem_map.mp placedToo
    exact different (plain.eq_of_spot_eq listed otherListed outputListed otherOutputListed same.symm).1

section runs

variable {report : RunReport} {steps : List FileStep}

theorem Checked.eq_of_asked (checked : Checked job targets archives before stale after)
    (asked : job.rebuilds = true) : stale = archives := by
  induction checked with
  | nil => rfl
  | fresh _ unforced _ _ =>
    rw [asked] at unforced
    cases unforced
  | stale _ _ _ _ ih => rw [ih]

theorem eq_archives_of_plan (asked : job.rebuilds = true)
    (planned : ((job.plan profile).runOn tree).1 = .ok (chain, stale)) : stale = job.archives := by
  obtain ⟨outcome, after, ended⟩ := (job.plan profile).exists_ends ⟨tree, []⟩
  rw [runOn_of_ends ended] at planned
  obtain rfl : outcome = .ok (chain, stale) := planned
  obtain ⟨_, checked⟩ := phases_of_plan ended
  exact (ends_staleArchives_ok checked).eq_of_asked asked

theorem exists_reported (listed : archive ∈ job.archives) {target : String} (named : target ∈ targets) :
    ∃ output ∈ job.cache.outputs archive.role targets, output.target = target ∧
      (job.reportedOutputs targets).get? (archive.role, target) = some output.path := by
  obtain ⟨output, outputListed, rfl⟩ := exists_mem_of_target job.cache archive.role named
  have entered : ∃ path, ((archive.role, output.target), path) ∈ job.listedOutputs targets :=
    ⟨output.path, mem_flatMap.mpr ⟨archive, listed, mem_map.mpr ⟨output, outputListed, rfl⟩⟩⟩
  obtain ⟨path, held, entry⟩ := get?_foldl_insert ∅ entered
  rw [← reportedOutputs_eq] at held
  -- Another archive with the same role has the same outputs.
  obtain ⟨other, _, entry⟩ := mem_flatMap.mp entry
  obtain ⟨reported, reportedListed, same⟩ := mem_map.mp entry
  simp only [Prod.mk.injEq] at same
  obtain ⟨⟨sameRole, sameTarget⟩, rfl⟩ := same
  rw [sameRole] at reportedListed
  exact ⟨reported, reportedListed, sameTarget, held⟩

/-- A run that is asked to rebuild succeeds, and no input is where it writes. If no two outputs of the job are
at the same place, then the path that is reported for the role of an archive and a target leads to the result
of remapping that archive to that target, as it could be told from the inputs before the run. No two outputs
are at the same place if the roles are different and the names are plain. -/
theorem each_archive_gets_its_outputs (asked : job.rebuilds = true)
    (inputsApart : job.InputsApart (profile.namespaces.drop 1) tree)
    (ran : (job.run profile).runOn tree = (.ok report, final, steps)) :
    (job.OutputsSeparate (profile.namespaces.drop 1) tree →
      ∃ chain, ((job.opening profile).runOn tree).1 = .ok chain ∧
        ∀ archive ∈ job.archives, ∀ target ∈ profile.namespaces.drop 1, ∃ path entries,
          report.outputs.get? (archive.role, target) = some path ∧
          ((job.expected chain profile archive target).runOn tree).1 = .ok entries ∧
          final.file? path = some (.archive entries)) ∧
    (job.PlainlyNamed (profile.namespaces.drop 1) → job.OutputsSeparate (profile.namespaces.drop 1) tree) := by
  obtain ⟨chain, stale, reported, planned, wrote⟩ := wrote_of_run inputsApart ran
  obtain rfl := eq_archives_of_plan asked planned
  rw [← (targets_of_opening wrote.opened).1]
  constructor
  · intro separate
    refine ⟨chain, by rw [runOn_of_ends wrote.opened], fun archive listed target named => ?_⟩
    obtain ⟨output, outputListed, rfl, held⟩ := exists_reported listed named
    refine ⟨output.path, job.entriesOn chain profile tree archive output.target, ?_, ?_, ?_⟩
    · rw [reported, held]
    · rw [runOn_of_ends (wrote.told archive listed output.target named)]
    · exact wrote.standing separate archive listed output outputListed
  · intro plain
    obtain ⟨_, built⟩ := exists_ofTree_of_opening wrote.opened
    exact plain.outputsSeparate (NamespaceChain.nodup_targets_of_ofTree built) tree

/-- Both archives are remapped, although all outputs of the first one are there. -/
theorem each_archive_gets_its_outputs_twoArchives :
    ∃ report final steps chain,
      (askedTwoArchives.run (.ofToolchain .fabric)).runOn twoArchivesTree = (.ok report, final, steps) ∧
      ((askedTwoArchives.opening (.ofToolchain .fabric)).runOn twoArchivesTree).1 = .ok chain ∧
      ∀ archive ∈ askedTwoArchives.archives, ∀ target ∈ ["intermediary", "named"], ∃ path entries,
        report.outputs.get? (archive.role, target) = some path ∧
        ((askedTwoArchives.expected chain (.ofToolchain .fabric) archive target).runOn twoArchivesTree).1 =
          .ok entries ∧
        final.file? path = some (.archive entries) := by
  have plain : askedTwoArchives.PlainlyNamed ((Profile.ofToolchain .fabric).namespaces.drop 1) := by
    constructor <;> decide
  have inputsApart :
      askedTwoArchives.InputsApart ((Profile.ofToolchain .fabric).namespaces.drop 1) twoArchivesTree := by
    decide +kernel
  have succeeds : ((askedTwoArchives.run (.ofToolchain .fabric)).runOn twoArchivesTree).1.isOk = true := by
    decide +kernel
  generalize ran : (askedTwoArchives.run (.ofToolchain .fabric)).runOn twoArchivesTree = result at succeeds ⊢
  obtain ⟨failure | report, final, steps⟩ := result
  · cases succeeds
  obtain ⟨own, separate⟩ := each_archive_gets_its_outputs rfl inputsApart ran
  obtain ⟨chain, opened, outputs⟩ := own (separate plain)
  exact ⟨report, final, steps, chain, rfl, opened, outputs⟩

/-- A job with two archives of the same role, asked to write all outputs again. -/
def sameRoles : RemapJob := { askedTwoArchives with secondary := some { role := "game", path := "patched.jar" } }

/-- If both archives have the same role, then what is reported for the first one is the result of remapping
the second one. -/
theorem same_role_replaces_outputs :
    let ran := (sameRoles.run (.ofToolchain .fabric)).runOn twoArchivesTree
    ran.1.toOption.bind (fun report => report.outputs.get? ("game", "intermediary")) =
        some "cache/game-1-intermediary-yarn-1.jar" ∧
      ran.2.1.file? "cache/game-1-intermediary-yarn-1.jar" = some (smallArchive "patched") ∧
      ((do
        let chain ← sameRoles.opening (.ofToolchain .fabric)
        sameRoles.expected chain (.ofToolchain .fabric) sameRoles.primary "intermediary").runOn
          twoArchivesTree).1.toOption = (smallArchive "game").entries? := by
  decide +kernel

end runs

end RemapJob

end JarRemap
