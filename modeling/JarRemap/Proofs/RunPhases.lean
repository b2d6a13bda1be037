import JarRemap.Proofs.ArchiveWriting
import JarRemap.Proofs.CacheChecks
import JarRemap.Proofs.ChainResolution
import JarRemap.Proofs.RepeatedReading

/-!
# The phases of a run

A run opens the job, which only reads; it checks the outputs, which only deletes some of them; it remaps the
stale archives, which only writes their outputs; and if that fails, it deletes all outputs of the job. Each
phase has one law, which says what steps it takes and what is there in the end.
-/
namespace JarRemap

open Session FileM OutputCache List FileStep ArchiveWriter

namespace RemapEngine

variable {engine next : RemapEngine} {archive : LoadedArchive} {target output : String}
  {owners : Option InnerOwners} {before after : Session}

theorem takes_remapTo (engine : RemapEngine) (archive : LoadedArchive) (target output : String)
    (owners : Option InnerOwners) : Takes (Builds {output}) (engine.remapTo archive target output owners) := by
  refine (works_of_reads engine.reads_classpathHierarchy).bind fun classpath => ?_
  refine (works_lift _).bind fun classes => ?_
  refine (works_of_reads (engine.reads_editorsFor archive target)).bind fun editors => ?_
  exact takes_write.bind fun _ => works_pure _

theorem ends_remapTo_ok : (engine.remapTo archive target output owners).Ends before (.ok next) after ↔
      ∃ classpath classes editors, engine.classpathHierarchy.Ends before (.ok classpath) before ∧
        engine.remapClasses archive classpath target owners = .ok classes ∧
        (engine.editorsFor archive target).Ends before (.ok editors) before ∧
        (write ⟨engine.profile.copyMode, editors⟩ output classes archive.image.source).Ends before
          (.ok ()) after ∧ next = { engine with state := .prepared classpath } := by
  constructor
  · intro ended
    obtain ⟨classpath, given, ended⟩ := engine.reads_classpathHierarchy.ends_bind_ok ended
    obtain ⟨classes, remapped, ended⟩ := ends_lift_bind_ok.mp ended
    obtain ⟨editors, edited, ended⟩ := (engine.reads_editorsFor archive target).ends_bind_ok ended
    obtain ⟨_, _, wrote, finished⟩ := ends_bind_ok.mp ended
    obtain ⟨same, rfl⟩ := ends_pure.mp finished
    exact ⟨classpath, classes, editors, given, remapped, edited, wrote, Except.ok.inj same⟩
  · rintro ⟨classpath, classes, editors, given, remapped, edited, wrote, rfl⟩
    refine ends_bind_ok.mpr ⟨classpath, before, given, ends_lift_bind_ok.mpr ⟨classes, remapped, ?_⟩⟩
    refine ends_bind_ok.mpr ⟨editors, before, edited, ?_⟩
    exact ends_bind_ok.mpr ⟨(), _, wrote, ends_pure.mpr ⟨rfl, rfl⟩⟩

theorem written_of_ends_remapTo (ended : (engine.remapTo archive target output owners).Ends before (.ok next) after)
    (jar : Path.IsJar output) : after.tree.Written output ∧
      ∀ path, Path.IsJar path → before.tree.Written path → after.tree.Written path := by
  obtain ⟨_, _, _, _, _, _, wrote, _⟩ := ends_remapTo_ok.mp ended
  refine ⟨written_of_ends_write wrote, fun path pathJar written => ?_⟩
  exact written_after_write wrote jar pathJar written

end RemapEngine

namespace RemapJob

variable {job : RemapJob} {targets : List String} {archives : List InputArchive}
  {archive : InputArchive} {before after : Session}

section remapping

variable {progress last : Progress} {engine : RemapEngine} {outputs : List OutputArchive} {loaded : LoadedArchive}

abbrev Writes (job : RemapJob) (targets : List String) (archives : List InputArchive) :
    FileTree → FileStep → Prop :=
  Builds (job.outputPaths targets archives)

theorem reads_ownersFrom (job : RemapJob) (archive : InputArchive) (loaded : LoadedArchive) :
    Reads (job.ownersFrom archive loaded) := by
  rw [ownersFrom]
  split
  · exact works_lift _
  · exact (LoadedArchive.reads_load _ _).bind fun _ => works_lift _

theorem reads_loadArchive (job : RemapJob) (progress : Progress) (archive : InputArchive) :
    Reads (job.loadArchive progress archive) := by
  refine ((LoadedArchive.reads_load _ _).within _).bind fun loaded => ?_
  split
  · exact (job.reads_ownersFrom archive loaded).bind fun _ => works_pure _
  · exact works_pure _

theorem hops_loadArchive {next : Progress}
    (ended : (job.loadArchive progress archive).Ends before (.ok (next, loaded)) after) :
    next.hops = progress.hops := by
  obtain ⟨_, _, _, ended⟩ := ends_bind_ok.mp ended
  split at ended
  · obtain ⟨_, _, _, ended⟩ := ends_bind_ok.mp ended
    obtain ⟨⟨⟩, _⟩ := ends_pure.mp ended
    rfl
  · obtain ⟨⟨⟩, _⟩ := ends_pure.mp ended
    rfl

def remapOutput (archive : InputArchive) (loaded : LoadedArchive) (progress : Progress)
    (output : OutputArchive) : FileM Progress := do
  let engine ← FileM.within (.remapTo archive.role output.target)
    (progress.engine.remapTo loaded output.target output.path progress.owners)
  return { progress with engine, hops := progress.hops + 1 }

theorem remapArchive_eq (job : RemapJob) (targets : List String) (progress : Progress) (archive : InputArchive) :
    job.remapArchive targets progress archive = (job.loadArchive progress archive >>= fun result =>
      (job.cache.outputs archive.role targets).foldlM (remapOutput archive result.2) result.1) := rfl

theorem takes_remapOutput (archive : InputArchive) (loaded : LoadedArchive) (progress : Progress)
    (output : OutputArchive) : Takes (Builds {output.path}) (remapOutput archive loaded progress output) :=
  ((RemapEngine.takes_remapTo _ _ _ _ _).within _).bind fun _ => works_pure _

theorem takes_foldlM_remapOutput (included : outputs ⊆ job.cache.outputs archive.role targets)
    (loaded : LoadedArchive) (progress : Progress) : Takes (Builds (job.cache.paths archive.role targets))
      (outputs.foldlM (remapOutput archive loaded) progress) := by
  refine works_foldlM (fun output listed progress => ?_) _
  exact (takes_remapOutput archive loaded progress output).mono
    (Builds.mono (Set.singleton_subset_iff.mpr (path_mem_paths (included listed))))

theorem takes_remapArchive (job : RemapJob) (targets : List String) (progress : Progress) (archive : InputArchive) :
    Takes (Builds (job.cache.paths archive.role targets)) (job.remapArchive targets progress archive) := by
  refine (works_of_reads (job.reads_loadArchive progress archive)).bind fun result => ?_
  exact takes_foldlM_remapOutput (Subset.refl _) result.2 result.1

/-- The outputs of the archives, in the order in which they are written. -/
def hops (job : RemapJob) (targets : List String) (archives : List InputArchive) :
    List (InputArchive × OutputArchive) :=
  archives.flatMap fun archive => (job.cache.outputs archive.role targets).map (archive, ·)

theorem mem_hops {hop : InputArchive × OutputArchive} : hop ∈ job.hops targets archives ↔
      hop.1 ∈ archives ∧ hop.2 ∈ job.cache.outputs hop.1.role targets := by
  obtain ⟨archive, output⟩ := hop
  simp [hops]

/-- What holds before the first archive, is taken over when an archive is loaded, and is handed on from one of its
outputs to the next, holds after the last archive. -/
theorem remapping_induction (Between : List (InputArchive × OutputArchive) → Progress → Session → Prop)
    (Within : InputArchive → LoadedArchive → List (InputArchive × OutputArchive) → Progress → Session → Prop)
    (load : ∀ {done progress session archive next loaded}, archive ∈ archives → Between done progress session →
      (job.loadArchive progress archive).Ends session (.ok (next, loaded)) session →
        Within archive loaded done next session)
    (write : ∀ {done progress before archive loaded output next after}, archive ∈ archives →
      output ∈ job.cache.outputs archive.role targets → Within archive loaded done progress before →
      (remapOutput archive loaded progress output).Ends before (.ok next) after →
      Within archive loaded (done ++ [(archive, output)]) next after)
    (leave : ∀ {done progress session archive loaded}, Within archive loaded done progress session →
      Between done progress session) (start : Between [] progress before)
    (ended : (archives.foldlM (job.remapArchive targets) progress).Ends before (.ok last) after) :
    Between (job.hops targets archives) last after := by
  refine ends_foldlM_induction (fun done => Between (job.hops targets done)) ?_ start ended
  intro done archive progress before next after listed between ended
  rw [remapArchive_eq] at ended
  obtain ⟨⟨started, loaded⟩, read, ended⟩ := (job.reads_loadArchive progress archive).ends_bind_ok ended
  have within := ends_foldlM_induction
    (fun outputs => Within archive loaded (job.hops targets done ++ outputs.map (archive, ·)))
    (fun outputListed within wrote => by simpa using write listed outputListed within wrote)
    (by simpa using load listed between read) ended
  simpa [hops] using leave within

theorem written_of_foldlM_remapArchive
    (ended : (archives.foldlM (job.remapArchive targets) progress).Ends before (.ok last) after) :
    last.hops = progress.hops + archives.length * targets.length ∧
      ∀ path ∈ job.outputPaths targets archives, after.tree.Written path := by
  have counted : (job.hops targets archives).length = archives.length * targets.length := by
    simp [hops, length_flatMap]
  let Written (done : List (InputArchive × OutputArchive)) (now : Progress) (session : Session) : Prop :=
    now.hops = progress.hops + done.length ∧ ∀ hop ∈ done, Path.IsJar hop.2.path ∧ session.tree.Written hop.2.path
  obtain ⟨hops, written⟩ : Written (job.hops targets archives) last after := by
    refine remapping_induction Written (fun _ _ => Written) ?_ ?_ id ⟨rfl, forall_mem_nil _⟩ ended
    · rintro done now session archive next loaded - ⟨hops, written⟩ read
      exact ⟨(hops_loadArchive read).trans hops, written⟩
    · rintro done now before archive loaded output next after - listed ⟨hops, written⟩ ended
      obtain ⟨engine, _, remapped, settled⟩ := ends_bind_ok.mp ended
      obtain ⟨⟨⟩, rfl⟩ := ends_pure.mp settled
      have jar : Path.IsJar output.path := isJar_of_mem listed
      obtain ⟨here, stays⟩ := RemapEngine.written_of_ends_remapTo (ends_within_ok.mp remapped) jar
      refine ⟨?_, forall_mem_append.mpr ⟨fun hop before => ?_, forall_mem_singleton.mpr ⟨jar, here⟩⟩⟩
      · simp [hops, Nat.add_assoc]
      · obtain ⟨hopJar, there⟩ := written hop before
        exact ⟨hopJar, stays _ hopJar there⟩
  refine ⟨by rw [hops, counted], ?_⟩
  rintro path ⟨archive, listed, output, outputListed, rfl⟩
  exact (written (archive, output) (mem_hops.mpr ⟨listed, outputListed⟩)).2

theorem takes_foldlM_remapArchive (job : RemapJob) (targets : List String) (archives : List InputArchive)
    (progress : Progress) :
    Takes (job.Writes targets archives) (archives.foldlM (job.remapArchive targets) progress) := by
  refine works_foldlM (fun archive listed progress => ?_) progress
  exact (job.takes_remapArchive targets progress archive).mono
    (Builds.mono (paths_subset_outputPaths listed))

theorem ends_forM_invalidate {outcome : Outcome Unit}
    (ended : (archives.forM fun archive => job.cache.invalidate archive.role targets).Ends before outcome after) :
    outcome = .ok () ∧ Trail (job.Clears targets archives) before after ∧
      ∀ archive ∈ archives, job.cache.Cleared archive.role targets after.tree := by
  induction archives generalizing before with
  | nil =>
    obtain ⟨rfl, rfl⟩ := ends_pure.mp ended
    exact ⟨rfl, .refl _, fun _ listed => by cases listed⟩
  | cons archive archives ih =>
    rcases ends_bind.mp ended with ⟨_, stopped, _⟩ | ⟨_, middle, first, rest⟩
    · cases (ends_invalidate stopped).1
    · obtain ⟨done, later, others⟩ := ih rest
      have here := (takes_invalidate _ _).trail first
      refine ⟨done, trail_clears_cons here later, forall_mem_cons.mpr ⟨?_, others⟩⟩
      exact (ends_invalidate first).2.trail later

theorem ends_remapArchives_iff {hops : Nat} : (job.remapArchives engine targets archives).Ends before (.ok hops) after ↔
      ∃ last, (archives.foldlM (job.remapArchive targets) ⟨engine, none, 0⟩).Ends before (.ok last) after ∧
        hops = last.hops := by
  constructor
  · intro ended
    rcases ends_tryCatch.mp ended with ⟨_, given, same⟩ | ⟨failure, middle, _, handled⟩
    · obtain ⟨reached, done, counted⟩ := ends_map.mp given
      cases same
      cases reached with
      | error failure => cases counted
      | ok last =>
        cases counted
        exact ⟨last, done, rfl⟩
    · obtain ⟨_, _, _, thrown⟩ := ends_bind_ok.mp handled
      cases (ends_throw.mp thrown).1
  · rintro ⟨last, done, rfl⟩
    exact ends_tryCatch.mpr (.inl ⟨last.hops, ends_map.mpr ⟨.ok last, done, rfl⟩, rfl⟩)

theorem ends_remapArchives_ok {hops : Nat}
    (ended : (job.remapArchives engine targets archives).Ends before (.ok hops) after) :
    hops = archives.length * targets.length ∧ Trail (job.Writes targets archives) before after ∧
      ∀ path ∈ job.outputPaths targets archives, after.tree.Written path := by
  obtain ⟨last, done, rfl⟩ := ends_remapArchives_iff.mp ended
  obtain ⟨hops, written⟩ := written_of_foldlM_remapArchive done
  refine ⟨?_, (job.takes_foldlM_remapArchive targets archives _).trail done, written⟩
  rw [hops, Nat.zero_add]

theorem ends_remapArchives_error {failure : Failure}
    (ended : (job.remapArchives engine targets archives).Ends before (.error failure) after) :
    (∃ middle, Trail (job.Writes targets archives) before middle ∧
      Trail (job.Clears targets job.archives) middle after) ∧
    ∀ archive ∈ job.archives, job.cache.Cleared archive.role targets after.tree := by
  rcases ends_tryCatch.mp ended with ⟨_, _, given⟩ | ⟨_, middle, stopped, handled⟩
  · cases given
  · obtain ⟨_, stopped, _⟩ := ends_map.mp stopped
    rcases ends_bind.mp handled with ⟨_, failed, _⟩ | ⟨_, _, cleared, thrown⟩
    · cases (ends_forM_invalidate failed).1
    · obtain ⟨_, rfl⟩ := ends_throw.mp thrown
      obtain ⟨_, trail, gone⟩ := ends_forM_invalidate cleared
      exact ⟨⟨middle, (job.takes_foldlM_remapArchive targets archives _).trail stopped, trail⟩, gone⟩

end remapping

end RemapJob

end JarRemap
