import JarRemap.Job.Run
import JarRemap.Proofs.OutputClearing

/-!
# Which archives are remapped

A run checks the outputs of one archive after the other. `Checked` tells how such a row of checks can go if
none of them fails: outputs that are found fresh are left alone, and stale ones are cleared before the next
archive is looked at. What is fresh is said of the moment at which it was found.
-/
namespace JarRemap

open Session FileM List OutputCache FileStep

section filtering

variable {α : Type} {m : Type → Type} [Monad m] [LawfulMonad m]

theorem filterAuxM_append (keep : α → m Bool) (values kept : List α) :
    values.filterAuxM keep kept = (values.filterAuxM keep [] >>= fun found => pure (found ++ kept)) := by
  induction values generalizing kept with
  | nil => simp [List.filterAuxM]
  | cons value values ih =>
    simp only [List.filterAuxM, bind_assoc]
    refine bind_congr fun decision => ?_
    rw [ih, ih (bif decision then [value] else [])]
    cases decision <;> simp

theorem filterM_cons (keep : α → m Bool) (value : α) (values : List α) : (value :: values).filterM keep = do
      let decision ← keep value
      let kept ← values.filterM keep
      return if decision then value :: kept else kept := by
  simp only [List.filterM, List.filterAuxM, bind_assoc]
  refine bind_congr fun decision => ?_
  rw [filterAuxM_append]
  cases decision <;> simp

end filtering

namespace RemapJob

variable {job : RemapJob} {targets : List String} {archives stale more : List InputArchive} {archive : InputArchive}
  {before middle after : Session}

def outputPaths (job : RemapJob) (targets : List String) (archives : List InputArchive) : Set String :=
  { path | ∃ archive ∈ archives, path ∈ job.cache.paths archive.role targets }

theorem paths_subset_outputPaths (listed : archive ∈ archives) :
    job.cache.paths archive.role targets ⊆ job.outputPaths targets archives :=
  fun _ path => ⟨archive, listed, path⟩

theorem outputPaths_mono (included : archives ⊆ more) :
    job.outputPaths targets archives ⊆ job.outputPaths targets more :=
  fun _ ⟨archive, listed, path⟩ => ⟨archive, included listed, path⟩

theorem isJar_of_mem_outputPaths {path : String} (listed : path ∈ job.outputPaths targets archives) :
    Path.IsJar path := by
  obtain ⟨archive, _, path⟩ := listed
  exact isJar_of_mem_paths path

/-- Deletes an output of one of the archives, or the temporary file for one. -/
abbrev Clears (job : RemapJob) (targets : List String) (archives : List InputArchive) :
    FileTree → FileStep → Prop :=
  Removes (Path.withTemporary (job.outputPaths targets archives))

theorem clears_of_mem (listed : archive ∈ archives) (tree : FileTree) (step : FileStep)
    (removes : Removes (Path.withTemporary (job.cache.paths archive.role targets)) tree step) :
    job.Clears targets archives tree step :=
  removes.mono (Path.withTemporary_mono (paths_subset_outputPaths listed))

theorem clears_of_subset (included : archives ⊆ more) (tree : FileTree)
    (step : FileStep) (clears : job.Clears targets archives tree step) : job.Clears targets more tree step :=
  clears.mono (Path.withTemporary_mono (outputPaths_mono included))

theorem trail_clears_cons
    (here : Trail (Removes (Path.withTemporary (job.cache.paths archive.role targets))) before middle)
    (later : Trail (job.Clears targets archives) middle after) :
    Trail (job.Clears targets (archive :: archives)) before after :=
  Trail.trans (here.mono (clears_of_mem mem_cons_self))
    (later.mono (clears_of_subset (subset_cons_self _ _)))

/-- The outputs of some archives have been checked in a row, and those of the stale ones were cleared. -/
inductive Checked (job : RemapJob) (targets : List String) :
    List InputArchive → Session → List InputArchive → Session → Prop
  | nil (session : Session) : Checked job targets [] session [] session
  | fresh {archive : InputArchive} {archives stale : List InputArchive} {before after : Session}
      (present : job.cache.Present archive.role targets before.tree) (unforced : job.rebuilds = false)
      (rest : Checked job targets archives before stale after) :
      Checked job targets (archive :: archives) before stale after
  | stale {archive : InputArchive} {archives stale : List InputArchive} {before middle after : Session}
      (outdated : ¬ (job.cache.Present archive.role targets before.tree ∧ job.rebuilds = false))
      (trail : Trail (Removes (Path.withTemporary (job.cache.paths archive.role targets))) before middle)
      (cleared : job.cache.Cleared archive.role targets middle.tree)
      (rest : Checked job targets archives middle stale after) :
      Checked job targets (archive :: archives) before (archive :: stale) after

namespace Checked

section

variable (checked : Checked job targets archives before stale after)
include checked

theorem sublist : stale.Sublist archives := by
  induction checked with
  | nil => exact .slnil
  | fresh _ _ _ ih => exact ih.cons _
  | stale _ _ _ _ ih => exact ih.cons_cons _

theorem trail : Trail (job.Clears targets stale) before after := by
  induction checked with
  | nil => exact .refl _
  | fresh _ _ _ ih => exact ih
  | stale _ trail _ _ ih => exact trail_clears_cons trail ih

theorem cleared (listed : archive ∈ stale) : job.cache.Cleared archive.role targets after.tree := by
  induction checked with
  | nil => cases listed
  | fresh _ _ _ ih => exact ih listed
  | stale _ _ cleared rest ih =>
    rcases mem_cons.mp listed with rfl | later
    · exact cleared.trail rest.trail
    · exact ih later

/-- An archive that is not stale had all its outputs at some time, and only outputs of stale archives were
deleted before and after that. -/
theorem stale_or_present (listed : archive ∈ archives) :
    archive ∈ stale ∨ ∃ middle, Trail (job.Clears targets stale) before middle ∧
      job.cache.Present archive.role targets middle.tree ∧ Trail (job.Clears targets stale) middle after := by
  induction checked with
  | nil => cases listed
  | fresh present _ rest ih =>
    rcases mem_cons.mp listed with rfl | later
    · exact .inr ⟨_, .refl _, present, rest.trail⟩
    · exact ih later
  | stale _ trail _ _ ih =>
    rcases mem_cons.mp listed with rfl | later
    · exact .inl mem_cons_self
    · rcases ih later with found | ⟨middle, earlier, present, further⟩
      · exact .inl (mem_cons_of_mem _ found)
      · exact .inr ⟨middle, trail_clears_cons trail earlier, present,
          further.mono (clears_of_subset (subset_cons_self _ _))⟩

theorem present_of_fresh (listed : archive ∈ archives) (fresh : archive ∉ stale) :
    job.cache.Present archive.role targets before.tree := by
  obtain ⟨middle, earlier, present, _⟩ := (checked.stale_or_present listed).resolve_left fresh
  exact fun output outputListed => earlier.loses.isFile_before (present output outputListed)

end

end Checked

theorem takes_isStale (job : RemapJob) (targets : List String) (archive : InputArchive) :
    Takes (Removes (Path.withTemporary (job.cache.paths archive.role targets)))
      (job.isStale targets archive) :=
  (takes_check _ _ _).bind fun _ => works_pure _

theorem ends_isStale {outcome : Outcome Bool} (ended : (job.isStale targets archive).Ends before outcome after) :
    (outcome = .ok false ∧ after = before ∧ job.cache.Present archive.role targets before.tree ∧ job.rebuilds = false) ∨
    (¬ (job.cache.Present archive.role targets before.tree ∧ job.rebuilds = false) ∧
      ((outcome = .ok true ∧ job.cache.Cleared archive.role targets after.tree) ∨
        ((∃ failure, outcome = .error failure) ∧ ¬ job.cache.Present archive.role targets after.tree))) := by
  rcases ends_bind.mp ended with ⟨failure, stopped, rfl⟩ | ⟨decision, middle, checked, settled⟩
  · rcases ends_check stopped with ⟨given, _⟩ | ⟨outdated, ⟨given, _⟩ | ⟨_, missing⟩⟩
    · cases given
    · cases given
    · exact .inr ⟨outdated, .inr ⟨⟨failure, rfl⟩, missing⟩⟩
  · obtain ⟨rfl, rfl⟩ := ends_pure.mp settled
    rcases ends_check checked with ⟨given, same, upToDate⟩ | ⟨outdated, ⟨given, cleared⟩ | ⟨⟨_, given⟩, _⟩⟩
    · cases given
      exact .inl ⟨rfl, same, upToDate⟩
    · cases given
      exact .inr ⟨outdated, .inl ⟨rfl, cleared⟩⟩
    · cases given

/-- What the checks can come to: all of them go through, or one fails and leaves its archive without all of
its outputs. -/
theorem ends_filterM_isStale {outcome : Outcome (List InputArchive)}
    (ended : (archives.filterM (job.isStale targets)).Ends before outcome after) :
    (∃ stale, outcome = .ok stale ∧ Checked job targets archives before stale after) ∨
    ((∃ failure, outcome = .error failure) ∧ Trail (job.Clears targets archives) before after ∧
      ∃ archive ∈ archives, ¬ job.cache.Present archive.role targets after.tree) := by
  induction archives generalizing before outcome with
  | nil =>
    obtain ⟨rfl, rfl⟩ := ends_pure.mp ended
    exact .inl ⟨[], rfl, .nil _⟩
  | cons archive archives ih =>
    rw [filterM_cons] at ended
    rcases ends_bind.mp ended with ⟨failure, stopped, rfl⟩ | ⟨decision, middle, decided, ended⟩
    · have trail : Trail (job.Clears targets (archive :: archives)) before after :=
        trail_clears_cons ((takes_isStale _ _ _).trail stopped) (.refl _)
      rcases ends_isStale stopped with ⟨given, _⟩ | ⟨_, ⟨given, _⟩ | ⟨_, missing⟩⟩
      · cases given
      · cases given
      · exact .inr ⟨⟨failure, rfl⟩, trail, archive, mem_cons_self, missing⟩
    have here := (takes_isStale _ _ _).trail decided
    rcases ends_bind.mp ended with ⟨failure, stopped, rfl⟩ | ⟨others, last, filtered, ended⟩
    · rcases ih stopped with ⟨_, given, _⟩ | ⟨_, later, other, listed, missing⟩
      · cases given
      · exact .inr ⟨⟨failure, rfl⟩, trail_clears_cons here later, other, mem_cons_of_mem _ listed, missing⟩
    · obtain ⟨rfl, rfl⟩ := ends_pure.mp ended
      rcases ih filtered with ⟨_, given, rest⟩ | ⟨⟨_, given⟩, _⟩
      · cases given
        rcases ends_isStale decided with ⟨given, rfl, present, unforced⟩ |
          ⟨outdated, ⟨given, cleared⟩ | ⟨⟨_, given⟩, _⟩⟩
        · cases given
          exact .inl ⟨others, rfl, .fresh present unforced rest⟩
        · cases given
          exact .inl ⟨archive :: others, rfl, .stale outdated here cleared rest⟩
        · cases given
      · cases given

theorem checked_of_ends (ended : (archives.filterM (job.isStale targets)).Ends before (.ok stale) after) :
    Checked job targets archives before stale after := by
  rcases ends_filterM_isStale ended with ⟨_, given, checked⟩ | ⟨⟨_, given⟩, _⟩
  · cases given
    exact checked
  · cases given

theorem not_present_of_cleared {tree : FileTree} (filled : targets ≠ [])
    (cleared : job.cache.Cleared archive.role targets tree) : ¬ job.cache.Present archive.role targets tree := by
  obtain ⟨output, listed⟩ : ∃ output, output ∈ job.cache.outputs archive.role targets :=
    exists_mem_outputs filled
  exact not_present.mpr ⟨output, listed, (cleared output listed).1⟩

theorem ends_startWorkers {outcome : Outcome Unit} (ended : (job.startWorkers archives).Ends before outcome after) :
    after = before ∧ (outcome = .ok () ∨ archives ≠ []) := by
  cases archives with
  | nil => exact ⟨(ends_pure.mp ended).2, .inl (ends_pure.mp ended).1⟩
  | cons =>
    obtain ⟨_, answered, _⟩ := ends_within.mp ended
    exact ⟨(ends_lift.mp answered).2, .inr (cons_ne_nil _ _)⟩

theorem ends_startWorkers_ok : (job.startWorkers archives).Ends before (.ok ()) before ↔
    (archives ≠ [] → job.workers job.threads = .ok ()) := by
  cases archives with
  | nil => exact ⟨fun _ filled => absurd rfl filled, fun _ => ends_pure.mpr ⟨rfl, rfl⟩⟩
  | cons =>
    refine ends_within_ok.trans (ends_lift.trans ⟨fun answered _ => answered.1.symm, fun started => ?_⟩)
    exact ⟨(started (cons_ne_nil _ _)).symm, rfl⟩

theorem ends_staleArchives : (job.staleArchives targets).Ends before (.ok stale) after ↔
    (job.archives.filterM (job.isStale targets)).Ends before (.ok stale) after ∧
      (stale ≠ [] → job.workers job.threads = .ok ()) := by
  constructor
  · intro ended
    obtain ⟨_, _, filtered, rest⟩ := ends_bind_ok.mp ended
    obtain ⟨_, _, started, finished⟩ := ends_bind_ok.mp rest
    obtain ⟨⟨⟩, rfl⟩ := ends_pure.mp finished
    obtain ⟨rfl, _⟩ := ends_startWorkers started
    exact ⟨filtered, ends_startWorkers_ok.mp started⟩
  · rintro ⟨filtered, started⟩
    refine ends_bind_ok.mpr ⟨_, _, filtered, ?_⟩
    exact ends_bind_ok.mpr ⟨(), _, ends_startWorkers_ok.mpr started, ends_pure.mpr ⟨rfl, rfl⟩⟩

theorem ends_staleArchives_ok (ended : (job.staleArchives targets).Ends before (.ok stale) after) :
    Checked job targets job.archives before stale after :=
  checked_of_ends (ends_staleArchives.mp ended).1

/-- An output is missing after a check that fails, and also if no workers could be started. -/
theorem ends_staleArchives_error {failure : Failure} (targetsFilled : targets ≠ [])
    (ended : (job.staleArchives targets).Ends before (.error failure) after) :
    Trail (job.Clears targets job.archives) before after ∧
      ∃ archive ∈ job.archives, ¬ job.cache.Present archive.role targets after.tree := by
  rcases ends_bind.mp ended with ⟨_, stopped, _⟩ | ⟨stale, middle, filtered, rest⟩
  · rcases ends_filterM_isStale stopped with ⟨_, given, _⟩ | ⟨_, stopped⟩
    · cases given
    · exact stopped
  have checked := checked_of_ends filtered
  rcases ends_bind.mp rest with ⟨_, refused, _⟩ | ⟨_, _, _, finished⟩
  · obtain ⟨rfl, answered⟩ := ends_startWorkers refused
    obtain ⟨archive, listed⟩ := exists_mem_of_ne_nil _ (answered.resolve_left (by simp))
    exact ⟨checked.trail.mono (clears_of_subset checked.sublist.subset), archive, checked.sublist.subset listed,
      not_present_of_cleared targetsFilled (checked.cleared listed)⟩
  · cases (ends_pure.mp finished).1

end RemapJob

end JarRemap
