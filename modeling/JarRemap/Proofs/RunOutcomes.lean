import JarRemap.Proofs.RunPhases

/-!
# All outputs or none

A run that comes as far as remapping leaves all outputs of the job or none of them. An output of an archive that
is up to date may be deleted, because another archive has an output at the same place; then it is written again. So
the last thing that a run checks, that the final output is there, is always true.
-/
namespace JarRemap

open Session FileM List Outcome FileTree OutputCache

variable {chain : NamespaceChain}

theorem NamespaceChain.targets_of_ofTree {tree : MappingTree} {namespaces : List String}
    (built : ofTree tree namespaces = .ok chain) : chain.targets = namespaces.drop 1 ∧ chain.targets ≠ [] := by
  obtain ⟨taken, hop, rest, listed, -⟩ := hops_of_ofTree built
  exact ⟨map_target_hopsOf taken, by simp [targets, listed]⟩

namespace RemapJob

variable {job : RemapJob} {profile : Profile} {targets : List String} {archives stale : List InputArchive}
  {archive : InputArchive} {before middle after : Session} {chain : NamespaceChain}

theorem exists_ofTree_of_opening (ended : (job.opening profile).Ends before (.ok chain) after) :
    ∃ mappings, NamespaceChain.ofTree mappings profile.namespaces = .ok chain := by
  rw [opening] at ended
  split at ended
  · cases (ends_fail.mp ended).1
  · obtain ⟨_, _, _, ended⟩ := ends_bind_ok.mp ended
    obtain ⟨mappings, _, _, ended⟩ := ends_bind_ok.mp ended
    obtain ⟨built, _⟩ := ends_lift.mp (ends_within_ok.mp ended)
    exact ⟨_, built.symm⟩

theorem targets_of_opening (ended : (job.opening profile).Ends before (.ok chain) after) :
    chain.targets = profile.namespaces.drop 1 ∧ chain.targets ≠ [] := by
  obtain ⟨_, built⟩ := exists_ofTree_of_opening ended
  exact NamespaceChain.targets_of_ofTree built

/-- What is reported, in the order in which it is entered. -/
def listedOutputs (job : RemapJob) (targets : List String) : List ((String × String) × String) :=
  job.archives.flatMap fun archive =>
    (job.cache.outputs archive.role targets).map fun output => ((archive.role, output.target), output.path)

theorem reportedOutputs_eq (job : RemapJob) (targets : List String) : job.reportedOutputs targets =
      (job.listedOutputs targets).foldl (fun paths entry => paths.insert entry.1 entry.2) ∅ := by
  simp only [reportedOutputs, listedOutputs, foldl_flatMap, foldl_map]

theorem get?_foldl_insert {κ ν : Type} [DecidableEq κ] {entries : List (κ × ν)} (start : OrderedMap κ ν)
    {key : κ} (listed : ∃ value, (key, value) ∈ entries) :
    ∃ value, (entries.foldl (fun map entry => map.insert entry.1 entry.2) start).get? key = some value ∧
      (key, value) ∈ entries := by
  induction entries using List.reverseRecOn with
  | nil =>
    obtain ⟨_, listed⟩ := listed
    cases listed
  | append_singleton entries entry ih =>
    rw [foldl_append, foldl_cons, foldl_nil, OrderedMap.get?_insert]
    split
    case isTrue same => exact ⟨entry.2, rfl, by simp [← same]⟩
    case isFalse other =>
      obtain ⟨value, listed⟩ := listed
      have earlier : (key, value) ∈ entries := by
        rcases mem_append.mp listed with earlier | last
        · exact earlier
        · rw [← mem_singleton.mp last] at other
          exact absurd rfl other
      obtain ⟨found, held, listed⟩ := ih ⟨value, earlier⟩
      exact ⟨found, held, mem_append_left _ listed⟩

theorem ends_checkFinal (filled : targets ≠ [])
    (present : ∀ archive ∈ job.archives, job.cache.Present archive.role targets before.tree) {outcome : Outcome Unit}
    (ended : (job.checkFinal targets (job.reportedOutputs targets)).Ends before outcome after) :
    outcome = .ok () ∧ after = before := by
  obtain ⟨target, last⟩ : ∃ target, targets.getLast? = some target :=
    Option.isSome_iff_exists.mp (by simpa using filled)
  obtain ⟨output, outputListed, rfl⟩ :=
    exists_mem_of_target job.cache job.primary.role (mem_of_getLast? last)
  have listed : ∃ path, ((job.primary.role, output.target), path) ∈ job.listedOutputs targets := by
    refine ⟨output.path, mem_flatMap.mpr ⟨job.primary, mem_cons_self, ?_⟩⟩
    exact mem_map.mpr ⟨output, outputListed, rfl⟩
  obtain ⟨path, held, found⟩ := get?_foldl_insert ∅ listed
  rw [← reportedOutputs_eq] at held
  obtain ⟨archive, archiveListed, found⟩ := mem_flatMap.mp found
  obtain ⟨other, otherListed, same⟩ := mem_map.mp found
  have samePath : other.path = path := congrArg Prod.snd same
  rw [checkFinal, last] at ended
  simp only [ends_tree_bind, held, ← samePath, present archive archiveListed other otherListed, if_true] at ended
  exact ends_pure.mp ended

/-- Outputs of archives that were up to date are there in the end, and the others have been written. -/
theorem present_of_remapped (checked : Checked job targets archives before stale middle)
    (trail : Trail (job.Writes targets stale) middle after)
    (written : ∀ path ∈ job.outputPaths targets stale, after.tree.Written path)
    (listed : archive ∈ archives) : job.cache.Present archive.role targets after.tree := by
  intro output outputListed
  have jar := isJar_of_mem outputListed
  have jars : ∀ path ∈ job.outputPaths targets stale, Path.IsJar path := fun _ => isJar_of_mem_outputPaths
  rcases checked.stale_or_present listed with found | ⟨start, _, present, clearing⟩
  · exact (written output.path ⟨archive, found, path_mem_paths outputListed⟩).present
  by_cases still : middle.tree.isFile output.path = true
  · exact trail.isFile_of_builds jars jar still
  -- The output was deleted, so one of a stale archive is at its place and has been written since.
  obtain ⟨led, content, standing⟩ := isFile_iff.mp (present output outputListed)
  have loses := clearing.loses
  have keeps := trail.keeps_of_builds
  have shared : ∃ path ∈ job.outputPaths targets stale, start.tree.spot path = start.tree.spot output.path := by
    rcases loses.stays (start.tree.spot output.path) with same | ⟨⟨path, touched, placed⟩, _⟩
    · refine absurd (isFile_iff.mpr ⟨?_, content, ?_⟩) still
      · rw [loses.spot_eq]
        exact loses.keeps.locate led
      · rw [loses.spot_eq, same, standing]
    · rcases touched with final | ⟨other, final, rfl⟩
      · exact ⟨path, final, placed⟩
      · exact absurd placed.symm (start.tree.spot_ne_temporary jar (jars other final))
  obtain ⟨path, stalePath, placed⟩ := shared
  obtain ⟨_, newContent, renewed⟩ := isFile_iff.mp (written path stalePath).present
  rw [isFile_iff, keeps.spot_eq, loses.spot_eq]
  refine ⟨keeps.locate (loses.keeps.locate led), newContent, ?_⟩
  rw [← placed, ← loses.spot_eq, ← keeps.spot_eq, renewed]

/-- How a run can go. Each phase begins where the one before ended, and the last check never fails. -/
inductive Course (job : RemapJob) (profile : Profile) (before : Session) : Outcome RunReport → Session → Prop
  | refused {failure : Failure} (stopped : (job.opening profile).Ends before (.error failure) before) :
      Course job profile before (.error failure) before
  | unchecked {chain : NamespaceChain} {failure : Failure} {after : Session}
      (opened : (job.opening profile).Ends before (.ok chain) before)
      (stopped : (job.staleArchives chain.targets).Ends before (.error failure) after) :
      Course job profile before (.error failure) after
  | failed {chain : NamespaceChain} {stale : List InputArchive} {failure : Failure} {middle after : Session}
      (opened : (job.opening profile).Ends before (.ok chain) before)
      (checked : (job.staleArchives chain.targets).Ends before (.ok stale) middle)
      (stopped : (job.remapArchives (.create chain profile job.classpath) chain.targets stale).Ends middle
        (.error failure) after) :
      Course job profile before (.error failure) after
  | done {chain : NamespaceChain} {stale : List InputArchive} {hops : Nat} {middle after : Session}
      (opened : (job.opening profile).Ends before (.ok chain) before)
      (checked : (job.staleArchives chain.targets).Ends before (.ok stale) middle)
      (remapped : (job.remapArchives (.create chain profile job.classpath) chain.targets stale).Ends middle
        (.ok hops) after) :
      Course job profile before (.ok ⟨job.reportedOutputs chain.targets, hops⟩) after

/-- The archives that were found stale and remapped have all their outputs, and so have the others. -/
theorem present_of_done (checked : (job.staleArchives targets).Ends before (.ok stale) middle)
    {engine : RemapEngine} {hops : Nat}
    (remapped : (job.remapArchives engine targets stale).Ends middle (.ok hops) after) :
    hops = stale.length * targets.length ∧ (∀ path ∈ job.outputPaths targets stale, after.tree.Written path) ∧
      ∀ archive ∈ job.archives, job.cache.Present archive.role targets after.tree := by
  obtain ⟨counted, trail, written⟩ := ends_remapArchives_ok remapped
  refine ⟨counted, written, fun archive listed => ?_⟩
  exact present_of_remapped (ends_staleArchives_ok checked) trail written listed

theorem run_eq (job : RemapJob) (profile : Profile) : job.run profile = do
      let chain ← job.opening profile
      let stale ← job.staleArchives chain.targets
      let hops ← job.remapArchives (.create chain profile job.classpath) chain.targets stale
      job.checkFinal chain.targets (job.reportedOutputs chain.targets)
      return ⟨job.reportedOutputs chain.targets, hops⟩ := by
  rw [run, opening]
  split
  · rfl
  · simp only [bind_assoc]

theorem course_of_ends {outcome : Outcome RunReport} (ended : (job.run profile).Ends before outcome after) :
    Course job profile before outcome after := by
  rw [run_eq] at ended
  rcases (job.repeats_opening profile).reads.ends_bind ended with ⟨failure, stopped, rfl, rfl⟩ | ⟨chain, first, ended⟩
  · exact .refused stopped
  rcases ends_bind.mp ended with ⟨failure, stopped, rfl⟩ | ⟨stale, middle, checked, ended⟩
  · exact .unchecked first stopped
  rcases ends_bind.mp ended with ⟨failure, stopped, rfl⟩ | ⟨hops, last, remapped, ended⟩
  · exact .failed first checked stopped
  obtain ⟨_, _, present⟩ := present_of_done checked remapped
  have filled := (targets_of_opening first).2
  rcases ends_bind.mp ended with ⟨failure, stopped, rfl⟩ | ⟨_, settled, confirmed, reported⟩
  · cases (ends_checkFinal filled present stopped).1
  · obtain ⟨_, rfl⟩ := ends_checkFinal filled present confirmed
    obtain ⟨rfl, rfl⟩ := ends_pure.mp reported
    exact .done first checked remapped

theorem ends_of_done {hops : Nat} (opened : (job.opening profile).Ends before (.ok chain) before)
    (checked : (job.staleArchives chain.targets).Ends before (.ok stale) middle)
    (remapped : (job.remapArchives (.create chain profile job.classpath) chain.targets stale).Ends middle
      (.ok hops) after) : (job.run profile).Ends before (.ok ⟨job.reportedOutputs chain.targets, hops⟩) after := by
  obtain ⟨_, _, present⟩ := present_of_done checked remapped
  obtain ⟨outcome, settled, confirmed⟩ :=
    (job.checkFinal chain.targets (job.reportedOutputs chain.targets)).exists_ends after
  obtain ⟨rfl, rfl⟩ := ends_checkFinal (targets_of_opening opened).2 present confirmed
  rw [run_eq]
  refine ends_bind_ok.mpr ⟨chain, before, opened, ends_bind_ok.mpr ⟨stale, middle, checked, ?_⟩⟩
  refine ends_bind_ok.mpr ⟨hops, _, remapped, ends_bind_ok.mpr ⟨(), _, confirmed, ?_⟩⟩
  exact ends_pure.mpr ⟨rfl, rfl⟩

/-- The part of a run before any archive is loaded. Gives the archives that have to be remapped. -/
def plan (job : RemapJob) (profile : Profile) : FileM (NamespaceChain × List InputArchive) := do
  let chain ← job.opening profile
  let stale ← job.staleArchives chain.targets
  return (chain, stale)

def planAndRemap (job : RemapJob) (profile : Profile) : FileM Nat := do
  let (chain, stale) ← job.plan profile
  job.remapArchives (.create chain profile job.classpath) chain.targets stale

theorem phases_of_plan (planned : (job.plan profile).Ends before (.ok (chain, stale)) after) :
    (job.opening profile).Ends before (.ok chain) before ∧
      (job.staleArchives chain.targets).Ends before (.ok stale) after := by
  obtain ⟨_, opened, planned⟩ := (job.repeats_opening profile).reads.ends_bind_ok planned
  obtain ⟨_, _, checked, finished⟩ := ends_bind_ok.mp planned
  obtain ⟨⟨⟩, rfl⟩ := ends_pure.mp finished
  exact ⟨opened, checked⟩

theorem ends_plan_ok (opened : (job.opening profile).Ends before (.ok chain) before)
    (checked : (job.staleArchives chain.targets).Ends before (.ok stale) after) :
    (job.plan profile).Ends before (.ok (chain, stale)) after :=
  ends_bind_ok.mpr ⟨chain, before, opened, ends_bind_ok.mpr ⟨stale, after, checked, ends_pure.mpr ⟨rfl, rfl⟩⟩⟩

/-- The same job without any request to write outputs that are there. -/
def unforced (job : RemapJob) : RemapJob := { job with force := false, inputsChanged := false }

theorem present_of_plan
    (planned : (job.plan profile).Ends before (.ok (chain, stale)) after) (listed : archive ∈ job.archives)
    (fresh : archive ∉ stale) : job.cache.Present archive.role (profile.namespaces.drop 1) before.tree := by
  obtain ⟨opened, checked⟩ := phases_of_plan planned
  rw [← (targets_of_opening opened).1]
  exact (ends_staleArchives_ok checked).present_of_fresh listed fresh

/-- A run that fails while archives are loaded or remapped leaves no output of any archive of the job, and no
temporary file. A run that succeeds leaves all outputs of all archives, with no temporary file for those that
it wrote, which are one for each target of each stale archive. A run also fails if its inputs
cannot be read, its outputs cannot be checked or its workers cannot be started, and in no other way. -/
theorem run_leaves_all_outputs_or_none (job : RemapJob) (profile : Profile) (tree : FileTree) :
    match (job.plan profile).runOn tree with
    | (.error failure, _) => ((job.run profile).runOn tree).1 = .error failure
    | (.ok (chain, stale), _) =>
      match (job.run profile).runOn tree with
      | (.error failure, last, _) =>
        ((job.planAndRemap profile).runOn tree).1 = .error failure ∧
          ∀ archive ∈ job.archives, job.cache.Cleared archive.role chain.targets last
      | (.ok report, last, _) =>
        report.hops = stale.length * chain.targets.length ∧
          (∀ archive ∈ job.archives, job.cache.Present archive.role chain.targets last) ∧
          ∀ archive ∈ stale, ∀ output ∈ job.cache.outputs archive.role chain.targets,
            last.isFile (Path.temporary output.path) = false := by
  obtain ⟨outcome, after, ended⟩ := (job.run profile).exists_ends ⟨tree, []⟩
  rw [FileM.runOn_of_ends ended]
  cases course_of_ends ended with
  | refused stopped =>
    have planned : (job.plan profile).Ends ⟨tree, []⟩ _ _ := FileM.ends_bind.mpr (.inl ⟨_, stopped, rfl⟩)
    rw [FileM.runOn_of_ends planned]
  | unchecked opened stopped =>
    have planned : (job.plan profile).Ends ⟨tree, []⟩ _ _ :=
      FileM.ends_bind.mpr (.inr ⟨_, _, opened, FileM.ends_bind.mpr (.inl ⟨_, stopped, rfl⟩)⟩)
    rw [FileM.runOn_of_ends planned]
  | failed opened checked stopped =>
    have planned := ends_plan_ok opened checked
    have remapped : (job.planAndRemap profile).Ends ⟨tree, []⟩ _ _ :=
      FileM.ends_bind.mpr (.inr ⟨_, _, planned, stopped⟩)
    rw [FileM.runOn_of_ends planned, FileM.runOn_of_ends remapped]
    exact ⟨rfl, (ends_remapArchives_error stopped).2⟩
  | done opened checked remapped =>
    rw [FileM.runOn_of_ends (ends_plan_ok opened checked)]
    obtain ⟨hops, written, present⟩ := present_of_done checked remapped
    refine ⟨hops, present, fun archive listed output outputListed => ?_⟩
    exact (written output.path ⟨archive, listed, OutputCache.path_mem_paths outputListed⟩).noDraft.isFile

end RemapJob

end JarRemap
