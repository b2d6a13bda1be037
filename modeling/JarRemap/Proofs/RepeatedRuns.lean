import JarRemap.Proofs.ExpectedOutputs
import JarRemap.Proofs.InterruptedRuns

/-!
# Running a job again

A run that succeeds leaves all outputs, so the next one does nothing. If some outputs are taken away in between,
then only the archives that lack one are remapped. That succeeds for archives which the run before has remapped.
Others may be impossible to remap, and then all outputs of the job are deleted.
-/
namespace JarRemap

open Session FileM FileTree List OutputCache

namespace RemapJob

variable {job : RemapJob} {profile : Profile} {chain : NamespaceChain} {targets : List String}
  {archives stale : List InputArchive} {archive other : InputArchive} {before middle after : Session} {tree : FileTree}

def incomplete (job : RemapJob) (targets : List String) (tree : FileTree) : List InputArchive :=
  job.archives.filter fun archive => ¬ job.cache.Present archive.role targets tree

theorem mem_incomplete : archive ∈ job.incomplete targets tree ↔
      archive ∈ job.archives ∧ ¬ job.cache.Present archive.role targets tree := by
  simp [incomplete]

/-- Clearing the outputs of an archive takes none from an archive whose outputs are elsewhere. -/
theorem Apart.present_iff (apart : job.Apart targets before.tree archive other)
    (trail : Trail (FileStep.Removes (Path.withTemporary (job.cache.paths archive.role targets))) before middle) :
    job.cache.Present other.role targets middle.tree ↔ job.cache.Present other.role targets before.tree := by
  have same : ∀ output ∈ job.cache.outputs other.role targets,
      middle.tree.isFile output.path = before.tree.isFile output.path := by
    intro output listed
    rw [isFile_eq, isFile_eq, trail.loses.file?_other (apart.spot_not_mem (path_mem_paths listed))]
  constructor
  · intro present output listed
    rw [← same output listed]
    exact present output listed
  · intro present output listed
    rw [same output listed]
    exact present output listed

theorem Apart.congr {later : FileTree} (spots : later.spot = tree.spot) :
    job.Apart targets later = job.Apart targets tree := by
  unfold Apart
  rw [spots]

theorem Checked.eq_filter (checked : Checked job targets archives before stale after)
    (unasked : job.rebuilds = false) (apart : archives.Pairwise (job.Apart targets before.tree)) :
    stale = archives.filter fun archive => ¬ job.cache.Present archive.role targets before.tree := by
  induction checked with
  | nil => rfl
  | fresh present _ _ ih =>
    rw [filter_cons_of_neg (by simpa using present)]
    exact ih (pairwise_cons.mp apart).2
  | @stale archive archives stale before middle after outdated trail _ _ ih =>
    obtain ⟨here, others⟩ := pairwise_cons.mp apart
    have missing : ¬ job.cache.Present archive.role targets before.tree := fun present => outdated ⟨present, unasked⟩
    have spots : middle.tree.spot = before.tree.spot := funext trail.loses.spot_eq
    rw [filter_cons_of_pos (by simpa using missing), ih (by rwa [Apart.congr spots])]
    congr 1
    -- Clearing this archive takes no output from those that are checked after it.
    refine filter_congr fun other listed => ?_
    simp only [(here other listed).present_iff trail]

theorem ends_isStale_fresh (present : job.cache.Present archive.role targets before.tree)
    (unasked : job.rebuilds = false) : (job.isStale targets archive).Ends before (.ok false) before := by
  refine ends_bind_ok.mpr ⟨.fresh, before, ?_, ends_pure.mpr ⟨rfl, rfl⟩⟩
  rw [unasked]
  exact ends_check_fresh present

theorem ends_filterM_isStale_fresh (unasked : job.rebuilds = false)
    (present : ∀ archive ∈ archives, job.cache.Present archive.role targets before.tree) :
    (archives.filterM (job.isStale targets)).Ends before (.ok []) before := by
  induction archives with
  | nil => exact ends_pure.mpr ⟨rfl, rfl⟩
  | cons archive archives ih =>
    obtain ⟨here, others⟩ := forall_mem_cons.mp present
    rw [filterM_cons]
    refine ends_bind_ok.mpr ⟨false, before, ends_isStale_fresh here unasked, ?_⟩
    exact ends_bind_ok.mpr ⟨[], before, ih others, ends_pure.mpr ⟨rfl, rfl⟩⟩

theorem exists_ends_filterM_isStale (unasked : job.rebuilds = false)
    (apart : archives.Pairwise (job.Apart targets before.tree))
    (discardable : ∀ archive ∈ archives, ¬ job.cache.Present archive.role targets before.tree →
      ∀ output ∈ job.cache.outputs archive.role targets, Discardable before.tree output) :
    ∃ stale after, (archives.filterM (job.isStale targets)).Ends before (.ok stale) after := by
  induction archives generalizing before with
  | nil => exact ⟨[], before, ends_pure.mpr ⟨rfl, rfl⟩⟩
  | cons archive archives ih =>
    obtain ⟨here, others⟩ := pairwise_cons.mp apart
    obtain ⟨discardableHere, discardableOthers⟩ := forall_mem_cons.mp discardable
    have decided : ∃ decision middle, (job.isStale targets archive).Ends before (.ok decision) middle := by
      by_cases present : job.cache.Present archive.role targets before.tree
      · exact ⟨false, before, ends_isStale_fresh present unasked⟩
      · obtain ⟨decision, middle, checked⟩ := exists_ends_check (discardableHere present) job.rebuilds
        exact ⟨_, middle, ends_bind_ok.mpr ⟨decision, middle, checked, ends_pure.mpr ⟨rfl, rfl⟩⟩⟩
    obtain ⟨decision, middle, decided⟩ := decided
    have trail := (takes_isStale _ _ _).trail decided
    have spots : middle.tree.spot = before.tree.spot := funext trail.loses.spot_eq
    have discardableLater : ∀ other ∈ archives, ¬ job.cache.Present other.role targets middle.tree →
        ∀ output ∈ job.cache.outputs other.role targets, Discardable middle.tree output := by
      intro other listed missing output outputListed
      rw [(here other listed).present_iff trail] at missing
      exact (discardableOthers other listed missing output outputListed).trail trail
    obtain ⟨stale, after, rest⟩ := ih (by rwa [Apart.congr spots]) discardableLater
    rw [filterM_cons]
    exact ⟨_, after, ends_bind_ok.mpr ⟨decision, middle, decided,
      ends_bind_ok.mpr ⟨stale, after, rest, ends_pure.mpr ⟨rfl, rfl⟩⟩⟩⟩

section runs

variable {hops : Nat} {output : OutputArchive} {engine : RemapEngine}

/-- No file among the inputs stands where an output or its temporary file is written. -/
def InputsApart (job : RemapJob) (targets : List String) (tree : FileTree) : Prop :=
  ∀ input ∈ job.inputs, tree.isFile input.2 = true → ∀ archive ∈ job.archives,
    ∀ output ∈ job.cache.outputs archive.role targets,
      tree.spot input.2 ≠ tree.spot output.path ∧ tree.spot input.2 ≠ tree.spot (Path.temporary output.path)

instance : Decidable (job.InputsApart targets tree) := by
  unfold InputsApart
  infer_instance

theorem supplied_of_opening (opened : (job.opening profile).Ends before (.ok chain) before)
    (apart : job.InputsApart targets before.tree) : job.Supplied targets before.tree := by
  rw [opening] at opened
  split at opened
  · cases (ends_fail.mp opened).1
  obtain ⟨_, passed, _⟩ := job.repeats_checkInputs.reads.ends_bind_ok opened
  rintro path ⟨input, listed, rfl⟩
  obtain ⟨node, found⟩ := hasPath_iff.mp (ends_checkInputs_ok.mp passed input listed)
  refine ⟨node, found, ?_⟩
  rintro content rfl ⟨path, touched, meets⟩
  have present : before.tree.isFile input.2 = true := isFile_iff_found.mpr ⟨content, found⟩
  rcases touched with ⟨archive, archiveListed, output, outputListed, rfl⟩ |
    ⟨_, ⟨archive, archiveListed, output, outputListed, rfl⟩, rfl⟩
  · exact (apart input listed present archive archiveListed output outputListed).1 meets.symm
  · exact (apart input listed present archive archiveListed output outputListed).2 meets.symm

section

variable (checked : Checked job targets job.archives before stale middle)
include checked

theorem Checked.keeps : Keeps (job.outputPlaces targets before.tree) before.tree middle.tree :=
  checked.trail.loses.keeps.mono
    (Set.image_mono (Path.withTemporary_mono (outputPaths_mono checked.sublist.subset)))

theorem Checked.ready (supplied : job.Supplied targets before.tree) (chain : NamespaceChain) (profile : Profile) :
    job.Ready chain profile targets ⟨.create chain profile job.classpath, none, 0⟩ middle :=
  ⟨(supplied.keeps checked.keeps).2, .inl rfl, .inl rfl⟩

theorem keeps_of_done
    (remapped : (job.remapArchives engine targets stale).Ends middle (.ok hops) after) :
    Keeps (before.tree.spot '' Path.withTemporary (job.outputPaths targets stale)) before.tree after.tree := by
  obtain ⟨_, trail, _⟩ := ends_remapArchives_ok remapped
  have clears := checked.trail.loses
  have writes := trail.keeps_of_builds
  rw [show middle.tree.spot = before.tree.spot from funext clears.spot_eq] at writes
  exact clears.keeps.trans writes

end

theorem file?_of_done (apart : job.OutputsApart targets before.tree)
    (checked : Checked job targets job.archives before stale middle)
    (remapped : (job.remapArchives engine targets stale).Ends middle (.ok hops) after)
    (listed : archive ∈ job.archives) (fresh : archive ∉ stale)
    (outputListed : output ∈ job.cache.outputs archive.role targets) {content : FileContent}
    (found : before.tree.file? output.path = some content) : after.tree.file? output.path = some content := by
  refine file?_eq_some.mpr ((keeps_of_done checked remapped).find (file?_eq_some.mp found) fun _ _ => ?_)
  exact apart.spot_not_mem checked.sublist.subset listed fresh (path_mem_paths outputListed)

theorem feasible_of_done (supplied : job.Supplied targets before.tree)
    (checked : Checked job targets job.archives before stale middle)
    (remapped : (job.remapArchives (.create chain profile job.classpath) targets stale).Ends middle (.ok hops) after)
    (listed : archive ∈ stale) (outputListed : output ∈ job.cache.outputs archive.role targets) :
    job.Feasible chain profile archive output after := by
  obtain ⟨last, done, _⟩ := ends_remapArchives_iff.mp remapped
  exact ((checked.ready supplied chain profile).feasible_of_foldlM checked.sublist.subset done (archive, output)
    (mem_hops.mpr ⟨listed, outputListed⟩)).2

section

variable (unasked : job.rebuilds = false) (opened : (job.opening profile).Ends before (.ok chain) before)
include unasked opened

/-- A run succeeds if all outputs of the archives that lack one could be written and cleared. -/
theorem exists_ends_run (started : job.incomplete chain.targets before.tree ≠ [] → job.workers job.threads = .ok ())
    (supplied : job.Supplied chain.targets before.tree)
    (apart : job.OutputsApart chain.targets before.tree)
    (feasible : ∀ archive ∈ job.incomplete chain.targets before.tree,
      ∀ output ∈ job.cache.outputs archive.role chain.targets,
        job.Feasible chain profile archive output before ∧ Discardable before.tree output) :
    ∃ report after, (job.run profile).Ends before (.ok report) after := by
  obtain ⟨stale, middle, ended⟩ := exists_ends_filterM_isStale unasked apart
    fun archive listed missing output outputListed =>
      (feasible archive (mem_incomplete.mpr ⟨listed, missing⟩) output outputListed).2
  have checked := checked_of_ends ended
  have lacking : stale = job.incomplete chain.targets before.tree := checked.eq_filter unasked apart
  obtain ⟨last, after, done⟩ := (checked.ready supplied chain profile).exists_ends_foldlM
    checked.sublist.subset (targets_of_opening opened).2
    (fun archive listed output outputListed =>
      (feasible archive (lacking ▸ listed) output outputListed).1.keeps
        (checked.sublist.subset listed) supplied checked.keeps)
    (fun archive listed output outputListed => by
      have discardable := (feasible archive (lacking ▸ listed) output outputListed).2.trail checked.trail
      exact ⟨discardable.final.free, discardable.draft.free⟩)
  exact ⟨_, after, ends_of_done opened (ends_staleArchives.mpr ⟨ended, lacking ▸ started⟩)
    (ends_remapArchives_iff.mpr ⟨last, done, rfl⟩)⟩

theorem ends_run_complete
    (present : ∀ archive ∈ job.archives, job.cache.Present archive.role chain.targets before.tree) :
    (job.run profile).Ends before (.ok ⟨job.reportedOutputs chain.targets, 0⟩) before := by
  have checked : (job.staleArchives chain.targets).Ends before (.ok []) before :=
    ends_staleArchives.mpr ⟨ends_filterM_isStale_fresh unasked present, fun filled => absurd rfl filled⟩
  refine ends_of_done opened checked (ends_remapArchives_iff.mpr ?_)
  exact ⟨_, ends_pure.mpr ⟨rfl, rfl⟩, rfl⟩

end

/-- What is known after a run that began with the tree and succeeded: the job can be opened, all outputs are
there, and if an archive lacked one before, then workers can be started and its outputs written again. -/
structure Settled (job : RemapJob) (profile : Profile) (chain : NamespaceChain) (tree : FileTree)
    (session : Session) : Prop where
  working : session.tree.workingPlace = tree.workingPlace
  opened : (job.opening profile).Ends session (.ok chain) session
  supplied : job.Supplied chain.targets session.tree
  present : ∀ archive ∈ job.archives, job.cache.Present archive.role chain.targets session.tree
  feasible : ∀ archive ∈ job.archives, ¬ job.cache.Present archive.role chain.targets tree →
    job.workers job.threads = .ok () ∧
      ∀ output ∈ job.cache.outputs archive.role chain.targets, job.Feasible chain profile archive output session

theorem settled_of_ends {report : RunReport} (ended : (job.run profile).Ends before (.ok report) after)
    (apart : job.InputsApart (profile.namespaces.drop 1) before.tree) :
    ∃ chain, report.outputs = job.reportedOutputs chain.targets ∧
      job.Settled profile chain before.tree ⟨after.tree, []⟩ := by
  cases course_of_ends ended with
  | @done chain stale hops middle _ opened checked remapped =>
    rw [← (targets_of_opening opened).1] at apart
    have passed := ends_staleArchives_ok checked
    have supplied := supplied_of_opening opened apart
    have keeps : Keeps (job.outputPlaces chain.targets before.tree) before.tree after.tree :=
      (keeps_of_done passed remapped).mono
        (Set.image_mono (Path.withTemporary_mono (outputPaths_mono passed.sublist.subset)))
    obtain ⟨agree, suppliedAfter⟩ := supplied.keeps keeps
    refine ⟨chain, rfl, keeps.working, (job.repeats_opening profile).again agree opened, suppliedAfter,
      (present_of_done checked remapped).2.2, fun archive listed missing => ?_⟩
    have remade : archive ∈ stale := by
      by_contra fresh
      exact missing (passed.present_of_fresh listed fresh)
    refine ⟨(ends_staleArchives.mp checked).2 (ne_nil_of_mem remade), fun output outputListed => ?_⟩
    exact (feasible_of_done supplied passed remapped remade outputListed).keeps listed suppliedAfter (.refl _)

end runs

section again

variable {last left : FileTree} {final : Session}

theorem deletable_of_led {path : String} (noSlash : Path.endsInSlash path = false)
    (led : tree.placeOf path = .ok (tree.spot path)) (none : tree.isDirectory path = false) : tree.Deletable path where
  led := by rw [locate_of_placeOf noSlash, led]
  free directory := by
    rw [isDirectory_iff.mpr (find_directory led directory)] at none
    cases none

section

variable (settled : job.Settled profile chain tree ⟨last, []⟩)
  (lost : Loses (last.spot '' job.outputPaths chain.targets job.archives) last left)
include settled lost

theorem Settled.reopened :
    (job.opening profile).Ends ⟨left, []⟩ (.ok chain) ⟨left, []⟩ ∧ job.Supplied chain.targets left ∧
      ∀ archive ∈ job.archives, ¬ job.cache.Present archive.role chain.targets tree →
        ∀ output ∈ job.cache.outputs archive.role chain.targets,
          job.Feasible chain profile archive output ⟨left, []⟩ := by
  have keeps : Keeps (job.outputPlaces chain.targets last) last left :=
    lost.keeps.mono (Set.image_mono Set.subset_union_left)
  obtain ⟨agree, supplied⟩ := settled.supplied.keeps keeps
  refine ⟨(job.repeats_opening profile).again agree settled.opened, supplied, ?_⟩
  intro archive listed missing output outputListed
  exact ((settled.feasible archive listed missing).2 output outputListed).keeps listed settled.supplied keeps

/-- If the run after outputs were taken away fails, then an archive that lacks one had all of them before the
run that succeeded, or a directory stands where its temporary files are written. -/
theorem Settled.exists_reason (unasked : job.rebuilds = false) (apart : job.OutputsApart chain.targets left)
    {failure : Failure} (failed : (job.run profile).Ends ⟨left, []⟩ (.error failure) final) :
    ∃ archive ∈ job.incomplete chain.targets left, job.cache.Present archive.role chain.targets tree ∨
      ∃ output ∈ job.cache.outputs archive.role chain.targets,
        left.isDirectory (Path.temporary output.path) = true := by
  obtain ⟨opened, supplied, feasible⟩ := settled.reopened lost
  by_contra noReason
  have succeeds : ∃ report after, (job.run profile).Ends ⟨left, []⟩ (.ok report) after := by
    have remade (archive : InputArchive) (lacking : archive ∈ job.incomplete chain.targets left) :
        archive ∈ job.archives ∧ ¬ job.cache.Present archive.role chain.targets tree :=
      ⟨(mem_incomplete.mp lacking).1, fun present => noReason ⟨archive, lacking, .inl present⟩⟩
    have started : job.incomplete chain.targets left ≠ [] → job.workers job.threads = .ok () := by
      intro filled
      obtain ⟨archive, lacking⟩ := exists_mem_of_ne_nil _ filled
      obtain ⟨listed, missing⟩ := remade archive lacking
      exact (settled.feasible archive listed missing).1
    refine exists_ends_run unasked opened started supplied apart fun archive lacking output outputListed => ?_
    obtain ⟨listed, missing⟩ := remade archive lacking
    have noDraft : left.isDirectory (Path.temporary output.path) = false := by
      rw [Bool.eq_false_iff]
      exact fun directory => noReason ⟨archive, lacking, .inr ⟨output, outputListed, directory⟩⟩
    -- A file stood at the path of the output before it was taken away.
    have noFinal : left.isDirectory output.path = false := by
      rw [Bool.eq_false_iff, ne_eq, isDirectory_iff]
      intro directory
      obtain ⟨content, found⟩ := isFile_iff_found.mp (settled.present archive listed output outputListed)
      rw [lost.find_before directory] at found
      cases found
    have again := feasible archive listed missing output outputListed
    have ways := again.writable.ways
    exact ⟨again, deletable_of_led ways.noSlash.2 ways.targetLed noFinal,
      deletable_of_led ways.noSlash.1 ways.sourceLed noDraft⟩
  obtain ⟨report, after, succeeded⟩ := succeeds
  cases (failed.unique succeeded).1

/-- If the run after outputs were taken away succeeds, it has remapped the archives that lack one. -/
theorem Settled.rebuilt (unasked : job.rebuilds = false) (apart : job.OutputsApart chain.targets left)
    {again : RunReport} (ended : (job.run profile).Ends ⟨left, []⟩ (.ok again) final) :
    ((job.plan profile).runOn left).1 = .ok (chain, job.incomplete chain.targets left) ∧
      again = ⟨job.reportedOutputs chain.targets, (job.incomplete chain.targets left).length * chain.targets.length⟩ ∧
      ∀ archive ∈ job.archives, job.cache.Present archive.role chain.targets final.tree ∧
        (archive ∉ job.incomplete chain.targets left → ∀ output ∈ job.cache.outputs archive.role chain.targets,
            final.tree.file? output.path = last.file? output.path) := by
  obtain ⟨opened, _, _⟩ := settled.reopened lost
  cases course_of_ends ended with
  | done openedAgain checked remapped =>
    obtain ⟨⟨⟩, _⟩ := opened.unique openedAgain
    have passed := ends_staleArchives_ok checked
    obtain rfl : _ = job.incomplete chain.targets left := passed.eq_filter unasked apart
    obtain ⟨counted, _, present⟩ := present_of_done checked remapped
    rw [runOn_of_ends (ends_plan_ok opened checked), counted]
    refine ⟨rfl, rfl, fun archive listed => ⟨present archive listed, fun complete output outputListed => ?_⟩⟩
    have there : job.cache.Present archive.role chain.targets left := by
      by_contra missing
      exact complete (mem_incomplete.mpr ⟨listed, missing⟩)
    obtain ⟨content, found⟩ := isFile_iff_found.mp (there output outputListed)
    rw [file?_of_done apart passed remapped listed complete outputListed (file?_eq_some.mpr found),
      file?_eq_some.mpr (lost.find_before found)]

end

/-- After a run that succeeded, the next one does nothing and reports the same outputs. If outputs were taken
away in between, and no two archives have one at the same place, then a run that succeeds again remaps the
archives that lack one and no others, counts one hop for each of their targets, reports the same outputs, and
leaves the outputs of the other archives as they are. It fails only if one of the archives to remap had all
its outputs before the first run already, so that it was not remapped then, or if a directory stands where
one of its temporary files is written. -/
theorem repeated_run_restores_what_is_missing {report : RunReport} {steps : List FileStep}
    (unasked : job.rebuilds = false) (inputsApart : job.InputsApart (profile.namespaces.drop 1) tree)
    (ran : (job.run profile).runOn tree = (.ok report, last, steps)) :
    (job.run profile).runOn last = (.ok ⟨report.outputs, 0⟩, last, []) ∧
    (job.OutputsApart (profile.namespaces.drop 1) tree → ∀ left,
      Loses (last.spot '' job.outputPaths (profile.namespaces.drop 1) job.archives) last left →
      match (job.run profile).runOn left with
      | (.ok again, final, _) =>
        (∃ chain, ((job.plan profile).runOn left).1 =
          .ok (chain, job.incomplete (profile.namespaces.drop 1) left)) ∧
        again = ⟨report.outputs,
          (job.incomplete (profile.namespaces.drop 1) left).length * (profile.namespaces.drop 1).length⟩ ∧
        ∀ archive ∈ job.archives, job.cache.Present archive.role (profile.namespaces.drop 1) final ∧
          (archive ∉ job.incomplete (profile.namespaces.drop 1) left →
            ∀ output ∈ job.cache.outputs archive.role (profile.namespaces.drop 1),
              final.file? output.path = last.file? output.path)
      | (.error _, _) =>
        ∃ archive ∈ job.incomplete (profile.namespaces.drop 1) left,
          job.cache.Present archive.role (profile.namespaces.drop 1) tree ∨
            ∃ output ∈ job.cache.outputs archive.role (profile.namespaces.drop 1),
              left.isDirectory (Path.temporary output.path) = true) := by
  obtain ⟨after, ended, rfl, rfl⟩ := runOn_eq.mp ran
  obtain ⟨chain, reported, settled⟩ := settled_of_ends ended inputsApart
  rw [← (targets_of_opening settled.opened).1, reported]
  refine ⟨runOn_of_ends (ends_run_complete unasked settled.opened settled.present), ?_⟩
  intro outputsApart left lost
  have spots : left.spot = tree.spot := by
    funext path
    rw [lost.spot_eq, spot_congr settled.working]
  have apart : job.OutputsApart chain.targets left := by
    rw [OutputsApart, Apart.congr spots]
    exact outputsApart
  obtain ⟨outcome, final, ranAgain⟩ := (job.run profile).exists_ends ⟨left, []⟩
  rw [runOn_of_ends ranAgain]
  cases outcome with
  | error failure => exact settled.exists_reason lost unasked apart ranAgain
  | ok again =>
    obtain ⟨planned, counted, others⟩ := settled.rebuilt lost unasked apart ranAgain
    exact ⟨⟨chain, planned⟩, counted, others⟩

/-- The outputs of the first archive are up to date all the time. Those of the second one are written by the
first run, and written again after one of them was taken away. -/
theorem repeated_run_restores_what_is_missing_twoArchives :
    ∃ report last steps,
      (twoArchives.run (.ofToolchain .fabric)).runOn twoArchivesTree = (.ok report, last, steps) ∧
      (twoArchives.run (.ofToolchain .fabric)).runOn last = (.ok ⟨report.outputs, 0⟩, last, []) ∧
      ∃ final more,
        (twoArchives.run (.ofToolchain .fabric)).runOn
            (last.remove (last.spot "cache/patched-1-intermediary-yarn-1.jar")) =
          (.ok ⟨report.outputs, 2⟩, final, more) ∧
        final.file? "cache/game-1-intermediary-yarn-1.jar" = last.file? "cache/game-1-intermediary-yarn-1.jar" := by
  have targets : (Profile.ofToolchain .fabric).namespaces.drop 1 = ["intermediary", "named"] := by decide
  have inputsApart : twoArchives.InputsApart ((Profile.ofToolchain .fabric).namespaces.drop 1) twoArchivesTree := by
    decide +kernel
  have outputsApart : twoArchives.OutputsApart ["intermediary", "named"] twoArchivesTree := by decide +kernel
  have taken : "cache/patched-1-intermediary-yarn-1.jar" ∈
      twoArchives.outputPaths ["intermediary", "named"] twoArchives.archives :=
    ⟨⟨"patched", "patched.jar"⟩, by decide, ⟨"intermediary", "cache/patched-1-intermediary-yarn-1.jar"⟩,
      by decide, rfl⟩
  have kept : ⟨"intermediary", "cache/game-1-intermediary-yarn-1.jar"⟩ ∈
      twoArchives.cache.outputs "game" ["intermediary", "named"] := by decide
  -- Both runs are evaluated here, and only their results are used below.
  have course : ∀ first, (twoArchives.run (.ofToolchain .fabric)).runOn twoArchivesTree = first →
      first.1.isOk = true ∧ first.2.1.isFile "cache/patched-1-intermediary-yarn-1.jar" = true ∧
      twoArchives.incomplete ["intermediary", "named"]
        (first.2.1.remove (first.2.1.spot "cache/patched-1-intermediary-yarn-1.jar")) =
          [⟨"patched", "patched.jar"⟩] ∧
      ((twoArchives.run (.ofToolchain .fabric)).runOn
        (first.2.1.remove (first.2.1.spot "cache/patched-1-intermediary-yarn-1.jar"))).1.isOk = true := by
    rintro _ rfl
    decide +kernel
  generalize ran : (twoArchives.run (.ofToolchain .fabric)).runOn twoArchivesTree = first at course ⊢
  obtain ⟨succeeds, present, lacking, succeedsAgain⟩ := course first rfl
  obtain ⟨failure | report, last, steps⟩ := first
  · cases succeeds
  obtain ⟨_, content, standing⟩ := isFile_iff.mp present
  have lost := (FileStep.Removes.delete taken standing).loses
  obtain ⟨again, restored⟩ := repeated_run_restores_what_is_missing rfl inputsApart ran
  rw [targets] at restored
  have second := restored outputsApart (last.remove (last.spot "cache/patched-1-intermediary-yarn-1.jar")) lost
  generalize ranAgain : (twoArchives.run (.ofToolchain .fabric)).runOn
    (last.remove (last.spot "cache/patched-1-intermediary-yarn-1.jar")) = result at second succeedsAgain
  obtain ⟨failure | rebuilt, final, more⟩ := result
  · cases succeedsAgain
  obtain ⟨_, counted, others⟩ := second
  have complete : (⟨"game", "game.jar"⟩ : InputArchive) ∉ twoArchives.incomplete ["intermediary", "named"]
      (last.remove (last.spot "cache/patched-1-intermediary-yarn-1.jar")) := by
    rw [lacking]
    decide
  rw [lacking] at counted
  refine ⟨report, last, steps, rfl, again, final, more, ?_, ?_⟩
  · rw [ranAgain, counted]
    rfl
  · exact (others ⟨"game", "game.jar"⟩ List.mem_cons_self).2 complete
      ⟨"intermediary", "cache/game-1-intermediary-yarn-1.jar"⟩ kept

/-- The inputs and all outputs of the job with two archives, where the second input is no archive. -/
def brokenInputTree : FileTree :=
  twoArchivesTree.replay [ .write ["patched.jar"] (.bytes []),
    .write ["cache", "1-mapped-yarn-1", "patched-1-mapped-yarn-1.jar"] (smallArchive "old")]

/-- A run finds all outputs up to date. When one output of the second archive has been taken away, the next
run fails, since that archive cannot be read, and the outputs of the first archive are gone. -/
theorem failed_restoring_deletes_other_outputs :
    let first := (twoArchives.run (.ofToolchain .fabric)).runOn brokenInputTree
    let second := (twoArchives.run (.ofToolchain .fabric)).runOn
      (first.2.1.remove ["cache", "patched-1-intermediary-yarn-1.jar"])
    first.1.toOption.map RunReport.hops = some 0 ∧ second.1.isOk = false ∧
      first.2.1.isFile "cache/game-1-intermediary-yarn-1.jar" = true ∧
      second.2.1.isFile "cache/game-1-intermediary-yarn-1.jar" = false := by
  decide +kernel

/-- The outputs of the second archive are below the path at which an output of the first one is begun. -/
def nestedOutputs : RemapJob :=
  { twoArchives with secondary := some ⟨"game-1-intermediary-yarn-1.jar.tmp/x", "patched.jar"⟩ }

/-- A run writes all outputs. When one of the first archive has been taken away, the next run fails, since a
directory stands at its temporary path now. -/
theorem directory_at_draft_stops_restoring :
    let tree := twoArchivesTree.remove ["cache", "game-1-intermediary-yarn-1.jar"]
    let first := (nestedOutputs.run (.ofToolchain .fabric)).runOn tree
    let left := first.2.1.remove ["cache", "game-1-intermediary-yarn-1.jar"]
    nestedOutputs.OutputsApart ["intermediary", "named"] tree ∧
      ¬ nestedOutputs.cache.Present "game" ["intermediary", "named"] tree ∧
      first.1.toOption.map RunReport.hops = some 4 ∧
      left.isDirectory "cache/game-1-intermediary-yarn-1.jar.tmp" = true ∧
      ((nestedOutputs.run (.ofToolchain .fabric)).runOn left).1.isOk = false := by
  decide +kernel

end again

end RemapJob

end JarRemap
