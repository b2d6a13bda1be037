import JarRemap.Proofs.InterruptedRuns

/-!
# Requests to rebuild that fail

If a run that is asked to write all outputs again fails after the mappings have been read, an output is missing,
so that the next run does not take all outputs as up to date. Before that point, a failure leaves all outputs as
they are, and the request is lost.
-/
namespace JarRemap

open Session

namespace RemapJob

variable {job : RemapJob} {profile : Profile} {targets : List String} {archives stale : List InputArchive}
  {archive : InputArchive} {before after : Session} {tree : FileTree}

theorem not_present_of_trail {paths : Set String} (trail : Trail (FileStep.Removes paths) before after)
    (missing : ¬ job.cache.Present archive.role targets before.tree) :
    ¬ job.cache.Present archive.role targets after.tree := by
  intro present
  exact missing fun output listed => trail.loses.isFile_before (present output listed)

theorem Checked.eq_of_missing (checked : Checked job targets archives before stale after)
    (missing : ∀ archive ∈ archives, ¬ job.cache.Present archive.role targets before.tree) : stale = archives := by
  induction checked with
  | nil => rfl
  | fresh present _ _ _ => exact absurd present (missing _ List.mem_cons_self)
  | stale _ trail _ _ ih =>
    rw [ih fun archive listed =>
      not_present_of_trail trail (missing archive (List.mem_cons_of_mem _ listed))]

/-- No output that is missing in one tree is there in the other. -/
def NoneRestored (job : RemapJob) (targets : List String) (last repaired : FileTree) : Prop :=
  ∀ archive ∈ job.archives, ∀ output ∈ job.cache.outputs archive.role targets,
    repaired.isFile output.path = true → last.isFile output.path = true

theorem NoneRestored.not_present {last repaired : FileTree} (same : job.NoneRestored targets last repaired)
    (listed : archive ∈ job.archives) (missing : ¬ job.cache.Present archive.role targets last) :
    ¬ job.cache.Present archive.role targets repaired := by
  intro present
  exact missing fun output outputListed => same archive listed output outputListed (present output outputListed)

/-- The archives that a run remaps are those that it finds stale, and a successful run counts their outputs. -/
theorem exists_checked_of_run {report : RunReport}
    (ran : ((job.run profile).runOn tree).1 = .ok report) : profile.namespaces.drop 1 ≠ [] ∧ ∃ stale middle,
      Checked job (profile.namespaces.drop 1) job.archives ⟨tree, []⟩ stale middle ∧
      report.hops = stale.length * (profile.namespaces.drop 1).length := by
  obtain ⟨outcome, after, ended⟩ := (job.run profile).exists_ends ⟨tree, []⟩
  rw [FileM.runOn_of_ends ended] at ran
  obtain rfl : outcome = .ok report := ran
  cases course_of_ends ended with
  | done opened checked remapped =>
    obtain ⟨named, filled⟩ := targets_of_opening opened
    rw [named] at checked remapped filled
    obtain ⟨counted, _⟩ := ends_remapArchives_ok remapped
    exact ⟨filled, _, _, ends_staleArchives_ok checked, counted⟩

/-- After a failed run, asked to rebuild or not, the next run that is not asked and succeeds writes outputs,
if the mappings could be read: some of them in any case, and all of them if the outputs could be checked and
workers started, however the inputs were repaired. If the mappings could not be read, the failed run did nothing. -/
theorem failed_run_is_made_up_for {tree last : FileTree} {failure : Failure} {steps : List FileStep}
    (failed : (job.run profile).runOn tree = (.error failure, last, steps)) :
    (((job.opening profile).runOn tree).1.isOk = false → last = tree ∧ steps = []) ∧
    (((job.opening profile).runOn tree).1.isOk = true → ∀ repaired,
      job.NoneRestored (profile.namespaces.drop 1) last repaired → ∀ report,
        ((job.unforced.run profile).runOn repaired).1 = .ok report → report.hops ≠ 0 ∧
          (((job.plan profile).runOn tree).1.isOk = true →
            report.hops = job.archives.length * (profile.namespaces.drop 1).length)) := by
  obtain ⟨after, ended, rfl, rfl⟩ := FileM.runOn_eq.mp failed
  cases course_of_ends ended with
  | refused stopped =>
    rw [FileM.runOn_of_ends stopped]
    exact ⟨fun _ => ⟨rfl, rfl⟩, fun opened => by cases opened⟩
  | unchecked opened stopped =>
    obtain ⟨_, archive, listed, missing⟩ := ends_staleArchives_error (targets_of_opening opened).2 stopped
    rw [(targets_of_opening opened).1] at missing
    have planned : (job.plan profile).Ends ⟨tree, []⟩ _ _ :=
      FileM.ends_bind.mpr (.inr ⟨_, _, opened, FileM.ends_bind.mpr (.inl ⟨_, stopped, rfl⟩)⟩)
    rw [FileM.runOn_of_ends opened, FileM.runOn_of_ends planned]
    refine ⟨fun refused => (by cases refused), fun _ repaired same report ran => ⟨?_, fun checked => by cases checked⟩⟩
    obtain ⟨filled, stale, middle, checked, counted⟩ := exists_checked_of_run ran
    -- The archive that lost an output cannot be up to date, so there is one to remap.
    have found : archive ∈ stale := by
      by_contra fresh
      exact same.not_present listed missing (checked.present_of_fresh listed fresh)
    rw [counted]
    exact Nat.mul_ne_zero (List.length_pos_of_mem found).ne' (List.length_pos_iff_ne_nil.mpr filled).ne'
  | failed opened checked stopped =>
    obtain ⟨_, cleared⟩ := ends_remapArchives_error stopped
    obtain ⟨named, filled⟩ := targets_of_opening opened
    have missing : ∀ archive ∈ job.archives,
        ¬ job.cache.Present archive.role (profile.namespaces.drop 1) after.tree := by
      intro archive listed
      rw [← named]
      exact not_present_of_cleared filled (cleared archive listed)
    rw [FileM.runOn_of_ends opened, FileM.runOn_of_ends (ends_plan_ok opened checked)]
    refine ⟨fun refused => (by cases refused), fun _ repaired same report ran => ?_⟩
    obtain ⟨filled, stale, middle, checked, counted⟩ := exists_checked_of_run ran
    have all : stale = job.archives :=
      checked.eq_of_missing fun archive listed => same.not_present listed (missing archive listed)
    rw [counted, all]
    refine ⟨?_, fun _ => rfl⟩
    exact Nat.mul_ne_zero (Nat.succ_ne_zero _) (List.length_pos_iff_ne_nil.mpr filled).ne'

def askedTwoArchives : RemapJob := { twoArchives with force := true }

/-- The inputs and outputs of the job with two archives, where the second input is no archive. -/
def brokenArchiveTree : FileTree := twoArchivesTree.put ["patched.jar"] (.file (.bytes []))

/-- A run that is asked to rebuild fails at the second archive, after all outputs of the first were written. -/
theorem failed_run_is_made_up_for_brokenArchive :
    ∃ failure last steps,
      (askedTwoArchives.run (.ofToolchain .fabric)).runOn brokenArchiveTree = (.error failure, last, steps) ∧
      ∀ repaired, twoArchives.NoneRestored ["intermediary", "named"] last repaired → ∀ report,
        ((twoArchives.run (.ofToolchain .fabric)).runOn repaired).1 = .ok report → report.hops = 4 := by
  have broken : ((askedTwoArchives.run (.ofToolchain .fabric)).runOn brokenArchiveTree).1.isOk = false := by
    decide +kernel
  have opened : ((askedTwoArchives.opening (.ofToolchain .fabric)).runOn brokenArchiveTree).1.isOk = true := by
    decide +kernel
  have planned : ((askedTwoArchives.plan (.ofToolchain .fabric)).runOn brokenArchiveTree).1.isOk = true := by
    decide +kernel
  generalize failed : (askedTwoArchives.run (.ofToolchain .fabric)).runOn brokenArchiveTree = result at broken ⊢
  obtain ⟨failure | report, last, steps⟩ := result
  · refine ⟨failure, last, steps, rfl, fun repaired same report ran => ?_⟩
    exact ((failed_run_is_made_up_for failed).2 opened repaired same report ran).2 planned
  · cases broken

/-- The mappings are missing when outputs are to be rebuilt. The run fails, and when the mappings are there
again, the old outputs are taken as up to date. -/
theorem missing_mappings_forget_request :
    let job := { askedTwoArchives with secondary := none }
    let failed := (job.run (.ofToolchain .fabric)).runOn (twoArchivesTree.remove ["mappings.tiny"])
    failed.1.isOk = false ∧
      ((job.unforced.run (.ofToolchain .fabric)).runOn (failed.2.1.put ["mappings.tiny"]
        (.file (.bytes (Text.encodeUtf8 "tiny\t2\t0\tofficial\tintermediary\tnamed\n"))))).1.toOption.map
          RunReport.hops = some 0 := by
  decide +kernel

end RemapJob

end JarRemap
