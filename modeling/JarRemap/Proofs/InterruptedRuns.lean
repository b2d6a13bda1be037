import JarRemap.Proofs.RunOutcomes

/-!
# Runs that are cut short

A run may be cut short after any of its steps. While outputs are checked, none that stands has been touched. From
then on, outputs of stale archives that stand have been moved there by the run, and those of the other archives
have still not been touched. All this needs that two archives have no output at the same place.
-/
namespace JarRemap

open Session FileTree List OutputCache FileStep

variable {paths : Set String}

namespace Session

def Untouched (session : Session) (place : Place) : Prop := ∀ step ∈ session.steps, place ∉ step.places

theorem Untouched.advance {session : Session} {place : Place} {step : FileStep}
    (untouched : session.Untouched place) (other : place ∉ step.places) : (session.advance step).Untouched place :=
  forall_mem_cons.mpr ⟨other, untouched⟩

end Session

namespace FileStep

variable {tree : FileTree} {step : FileStep} {path : String} {content : FileContent} {place : Place}

theorem Removes.file_before (removes : Removes paths tree step)
    (standing : (step.apply tree).node? place = some (.file content)) :
    tree.node? place = some (.file content) ∧ place ∉ step.places := by
  cases removes with
  | @delete removed gone listed present =>
    have other : place ≠ tree.spot removed := by
      rintro rfl
      rw [node?_delete present] at standing
      cases standing
    have untouched : place ∉ (FileStep.delete (tree.spot removed)).places := by simpa [places] using other
    exact ⟨by rwa [node?_apply_other untouched] at standing, untouched⟩

section

variable {outputs : Set String} (builds : Builds outputs tree step) (jars : ∀ output ∈ outputs, Path.IsJar output)
  (jar : Path.IsJar path)
include builds jars jar

/-- What is at the place of an archive after a building step was there before, or has just been moved there
and is complete. -/
theorem Builds.file_before (standing : (step.apply tree).node? (tree.spot path) = some (.file content)) :
    (tree.node? (tree.spot path) = some (.file content) ∧ tree.spot path ∉ step.places) ∨
      ((∃ source, step = .rename source (tree.spot path)) ∧ ∃ entries, content = .archive entries) := by
  rcases builds.cases_at jars jar with other | ⟨rfl, free⟩ | ⟨_, _, entries, source, _, moves, moved⟩
  · exact .inl ⟨by rwa [node?_apply_other other] at standing, other⟩
  · have notRoot : tree.spot path ≠ [] := ne_root_of_none free
    simp [apply, node?_put, notRoot] at standing
  · rw [moved] at standing
    cases standing
    exact .inr ⟨⟨source, moves⟩, entries, rfl⟩

/-- A building step leaves alone what stands at the place of another archive than those it builds. -/
theorem Builds.untouched (other : ∀ output ∈ outputs, tree.spot path ≠ tree.spot output)
    (standing : tree.node? (tree.spot path) = some (.file content)) : tree.spot path ∉ step.places := by
  rcases builds.cases_at jars jar with unplaced | ⟨_, free⟩ | ⟨output, listed, _, _, same, _⟩
  · exact unplaced
  · rw [free] at standing
    cases standing
  · exact absurd same (other output listed)

end

end FileStep

namespace FileTree

/-- A file at the place that the path names is a complete archive, and the path leads to it. -/
def Sound (tree : FileTree) (path : String) : Prop :=
  ∀ content, tree.node? (tree.spot path) = some (.file content) →
    tree.isFile path = true ∧ content.entries?.isSome = true

instance (tree : FileTree) (path : String) : Decidable (tree.Sound path) :=
  match standing : tree.node? (tree.spot path) with
  | some (.file content) =>
    decidable_of_iff (tree.isFile path = true ∧ content.entries?.isSome = true) (by simp [Sound, standing])
  | some .directory => .isTrue (by simp [Sound, standing])
  | none => .isTrue (by simp [Sound, standing])

end FileTree

namespace RemapJob

variable {job : RemapJob} {profile : Profile} {targets : List String} {stale : List InputArchive}
  {archive other : InputArchive} {tree : FileTree} {before middle after session : Session} {step : FileStep}
  {path : String}

/-- Two archives have no output at the same place. -/
def Apart (job : RemapJob) (targets : List String) (tree : FileTree) (first second : InputArchive) : Prop :=
  ∀ output ∈ job.cache.outputs first.role targets, ∀ other ∈ job.cache.outputs second.role targets,
    tree.spot output.path ≠ tree.spot other.path

instance {first second : InputArchive} : Decidable (job.Apart targets tree first second) := by
  unfold Apart
  infer_instance

theorem Apart.spot_not_mem (apart : job.Apart targets tree other archive)
    (placed : path ∈ job.cache.paths archive.role targets) :
    tree.spot path ∉ tree.spot '' Path.withTemporary (job.cache.paths other.role targets) := by
  obtain ⟨output, listed, rfl⟩ := placed
  rintro ⟨_, ⟨written, writtenListed, rfl⟩ | ⟨_, ⟨written, writtenListed, rfl⟩, rfl⟩, meets⟩
  · exact apart written writtenListed output listed meets
  · exact tree.spot_ne_temporary (isJar_of_mem listed)
      (isJar_of_mem writtenListed) meets.symm

def OutputsApart (job : RemapJob) (targets : List String) (tree : FileTree) : Prop :=
  job.archives.Pairwise (job.Apart targets tree)

instance : Decidable (job.OutputsApart targets tree) := by
  unfold OutputsApart
  infer_instance

theorem OutputsApart.apart (apart : job.OutputsApart targets tree)
    (listed : archive ∈ job.archives) (otherListed : other ∈ job.archives) (different : archive ≠ other) :
    job.Apart targets tree archive other := by
  have symmetric : Std.Symm (job.Apart targets tree) :=
    ⟨fun _ _ apart output listed other otherListed same => apart other otherListed output listed same.symm⟩
  exact Pairwise.forall apart listed otherListed different

theorem OutputsApart.spot_not_mem (apart : job.OutputsApart targets tree) (included : stale ⊆ job.archives)
    (listed : archive ∈ job.archives) (fresh : archive ∉ stale)
    (placed : path ∈ job.cache.paths archive.role targets) :
    tree.spot path ∉ tree.spot '' Path.withTemporary (job.outputPaths targets stale) := by
  have elsewhere : ∀ owner ∈ stale,
      tree.spot path ∉ tree.spot '' Path.withTemporary (job.cache.paths owner.role targets) := by
    intro owner ownerStale
    refine (apart.apart (included ownerStale) listed ?_).spot_not_mem placed
    rintro rfl
    exact fresh ownerStale
  rintro ⟨_, ⟨owner, ownerStale, final⟩ | ⟨_, ⟨owner, ownerStale, final⟩, rfl⟩, meets⟩
  · exact elsewhere owner ownerStale ⟨_, Path.mem_withTemporary final, meets⟩
  · exact elsewhere owner ownerStale ⟨_, Path.temporary_mem_withTemporary final, meets⟩

/-- What stands at the places of outputs in the middle of a run that began with the tree: where an archive
is being remapped, complete archives that the run has moved there, and elsewhere only what no step of the
run has touched. -/
structure OldOrNew (job : RemapJob) (targets : List String) (tree : FileTree) (stale : List InputArchive)
    (session : Session) : Prop where
  working : session.tree.workingPlace = tree.workingPlace
  new : ∀ archive ∈ stale, ∀ path ∈ job.cache.paths archive.role targets, ∀ content,
    session.tree.node? (tree.spot path) = some (.file content) →
      (∃ source, .rename source (tree.spot path) ∈ session.steps) ∧ content.entries?.isSome = true
  old : ∀ archive ∈ job.archives, archive ∉ stale → ∀ path ∈ job.cache.paths archive.role targets, ∀ content,
    session.tree.node? (tree.spot path) = some (.file content) → session.Untouched (tree.spot path)

/-- All outputs of the archives that are not remapped are there. -/
def Holding (job : RemapJob) (targets : List String) (tree : FileTree) (stale : List InputArchive)
    (session : Session) : Prop :=
  ∀ archive ∈ job.archives, archive ∉ stale → ∀ path ∈ job.cache.paths archive.role targets,
    ∃ content, session.tree.node? (tree.spot path) = some (.file content)

namespace OldOrNew

theorem start (job : RemapJob) (targets : List String) (tree : FileTree) : OldOrNew job targets tree [] ⟨tree, []⟩ where
  working := rfl
  new _ listed := by cases listed
  old _ _ _ _ _ _ _ _ taken := by cases taken

theorem removes (separate : OldOrNew job targets tree stale session)
    (removes : Removes paths session.tree step) : OldOrNew job targets tree stale (session.advance step) where
  working := by rw [advance_tree, workingPlace_apply, separate.working]
  new archive listed path placed content standing := by
    obtain ⟨stood, _⟩ := removes.file_before standing
    obtain ⟨⟨source, moved⟩, complete⟩ := separate.new archive listed path placed content stood
    exact ⟨⟨source, mem_cons_of_mem _ moved⟩, complete⟩
  old archive listed fresh path placed content standing := by
    obtain ⟨stood, other⟩ := removes.file_before standing
    exact (separate.old archive listed fresh path placed content stood).advance other

/-- An output that is written is one of a stale archive, so a building step does not touch the others. -/
theorem builds (separate : OldOrNew job targets tree stale session)
    (holding : Holding job targets tree stale session) (apart : job.OutputsApart targets tree)
    (included : stale ⊆ job.archives) (builds : job.Writes targets stale session.tree step) :
    OldOrNew job targets tree stale (session.advance step) ∧ Holding job targets tree stale (session.advance step) := by
  have spots : session.tree.spot = tree.spot := funext (spot_congr separate.working)
  have jars : ∀ path ∈ job.outputPaths targets stale, Path.IsJar path := fun _ => isJar_of_mem_outputPaths
  have untouched : ∀ archive ∈ job.archives, archive ∉ stale → ∀ path ∈ job.cache.paths archive.role targets,
      tree.spot path ∉ step.places := by
    intro archive listed fresh path placed
    obtain ⟨content, standing⟩ := holding archive listed fresh path placed
    rw [← spots] at standing ⊢
    refine builds.untouched jars (isJar_of_mem_paths placed) ?_ standing
    intro output outputListed meets
    rw [spots] at meets
    exact apart.spot_not_mem included listed fresh placed ⟨output, Path.mem_withTemporary outputListed, meets.symm⟩
  refine ⟨⟨?_, ?_, ?_⟩, ?_⟩
  · rw [advance_tree, workingPlace_apply, separate.working]
  · intro archive listed path placed content standing
    rw [advance_tree, ← spots] at standing
    rcases builds.file_before jars (isJar_of_mem_paths placed) standing with
      ⟨stood, _⟩ | ⟨⟨source, rfl⟩, entries, rfl⟩
    · rw [spots] at stood
      obtain ⟨⟨source, moved⟩, complete⟩ := separate.new archive listed path placed content stood
      exact ⟨⟨source, mem_cons_of_mem _ moved⟩, complete⟩
    · rw [← spots]
      exact ⟨⟨source, mem_cons_self⟩, rfl⟩
  · intro archive listed fresh path placed content standing
    have other := untouched archive listed fresh path placed
    rw [advance_tree, node?_apply_other other] at standing
    exact (separate.old archive listed fresh path placed content standing).advance other
  · intro archive listed fresh path placed
    obtain ⟨content, standing⟩ := holding archive listed fresh path placed
    exact ⟨content, by rw [advance_tree, node?_apply_other (untouched archive listed fresh path placed), standing]⟩

theorem trail_removes (separate : OldOrNew job targets tree stale before)
    (trail : Trail (Removes paths) before after) : OldOrNew job targets tree stale after :=
  trail.keeps (OldOrNew job targets tree stale) separate fun _ _ holds removes => holds.removes removes

theorem trail_builds (separate : OldOrNew job targets tree stale before)
    (holding : Holding job targets tree stale before) (apart : job.OutputsApart targets tree)
    (included : stale ⊆ job.archives) (trail : Trail (job.Writes targets stale) before after) :
    OldOrNew job targets tree stale after :=
  (trail.keeps (fun session => OldOrNew job targets tree stale session ∧ Holding job targets tree stale session)
    ⟨separate, holding⟩ fun _ _ holds builds => holds.1.builds holds.2 apart included builds).1

end OldOrNew

/-- When the outputs have been checked, nothing stands at the places of stale ones, and all others are there. -/
theorem oldOrNew_of_checked (apart : job.OutputsApart targets tree)
    (sound : ∀ path ∈ job.outputPaths targets job.archives, tree.Sound path)
    (checked : Checked job targets job.archives ⟨tree, []⟩ stale after) :
    OldOrNew job targets tree stale after ∧ Holding job targets tree stale after := by
  have separate := (OldOrNew.start job targets tree).trail_removes checked.trail
  have included : stale ⊆ job.archives := checked.sublist.subset
  have loses := checked.trail.loses
  refine ⟨⟨separate.working, ?_, ?_⟩, ?_⟩
  · intro archive listed path placed content standing
    -- The path leads to what stands there, so it would have been cleared.
    have stood := loses.node?_before standing
    obtain ⟨present, _⟩ := sound path ⟨archive, included listed, placed⟩ content stood
    have led := loses.keeps.locate (isFile_iff.mp present).1
    obtain ⟨output, outputListed, rfl⟩ := placed
    have absent := (checked.cleared listed output outputListed).1
    rw [Bool.eq_false_iff, ne_eq, isFile_iff, loses.spot_eq] at absent
    exact absurd ⟨led, content, standing⟩ absent
  · intro archive listed _ path placed content standing
    exact separate.old archive listed (not_mem_nil) path placed content standing
  · intro archive listed fresh path placed
    obtain ⟨start, _, present, clearing⟩ := (checked.stale_or_present listed).resolve_left fresh
    obtain ⟨output, outputListed, rfl⟩ := placed
    obtain ⟨_, content, standing⟩ := isFile_iff.mp (present output outputListed)
    have same : start.tree.spot = tree.spot := by
      funext other
      rw [← clearing.loses.spot_eq, loses.spot_eq]
    refine ⟨content, ?_⟩
    rw [← same, clearing.loses.node?_other ?_, standing]
    rw [same]
    exact apart.spot_not_mem included listed fresh ⟨output, outputListed, rfl⟩

/-- Wherever a session that began with the tree had been cut short, its steps would have left outputs like this. -/
structure Traced (job : RemapJob) (targets : List String) (tree : FileTree) (session : Session) : Prop where
  replayed : tree.replay session.steps.reverse = session.tree
  cut : ∀ taken, taken <:+ session.steps → ∃ stale, OldOrNew job targets tree stale ⟨tree.replay taken.reverse, taken⟩

theorem Traced.trail {allowed : FileTree → FileStep → Prop} (traced : job.Traced targets tree before)
    (trail : Trail allowed before after)
    (holds : ∀ session, Trail allowed before session → OldOrNew job targets tree stale session) :
    job.Traced targets tree after := by
  induction trail with
  | refl => exact traced
  | @tail middle _ trail moved ih =>
    have reached := holds _ (Relation.ReflTransGen.tail trail moved)
    obtain ⟨step, _, rfl⟩ := moved
    have replayed : tree.replay (middle.advance step).steps.reverse = (middle.advance step).tree := by
      rw [advance_tree, advance_steps, reverse_cons, replay_append, replay_singleton, ih.replayed]
    refine ⟨replayed, fun taken cut => ?_⟩
    rcases suffix_cons_iff.mp cut with rfl | earlier
    · rw [← advance_steps, replayed]
      exact ⟨stale, reached⟩
    · exact ih.cut taken earlier

/-- Every run is traced, however it ends. -/
theorem traced_of_run {outcome : Outcome RunReport} (apart : job.OutputsApart (profile.namespaces.drop 1) tree)
    (sound : ∀ path ∈ job.outputPaths (profile.namespaces.drop 1) job.archives, tree.Sound path)
    (ended : (job.run profile).Ends ⟨tree, []⟩ outcome after) : job.Traced (profile.namespaces.drop 1) tree after := by
  generalize named : profile.namespaces.drop 1 = targets at apart sound ⊢
  have begun := OldOrNew.start job targets tree
  have start : job.Traced targets tree ⟨tree, []⟩ := by
    refine ⟨rfl, fun taken cut => ⟨[], ?_⟩⟩
    rw [suffix_nil.mp cut]
    exact begun
  -- Up to the end of the checks, nothing but deletions of outputs has happened.
  have clearing {archives : List InputArchive} {last : Session}
      (trail : Trail (job.Clears targets archives) ⟨tree, []⟩ last) : job.Traced targets tree last :=
    start.trail trail fun _ reached => begun.trail_removes reached
  -- Then outputs of stale archives are written.
  have writing {stale : List InputArchive} {middle last : Session}
      (checked : Checked job targets job.archives ⟨tree, []⟩ stale middle)
      (trail : Trail (job.Writes targets stale) middle last) :
      job.Traced targets tree last ∧ OldOrNew job targets tree stale last := by
    obtain ⟨separate, holding⟩ := oldOrNew_of_checked apart sound checked
    have onward (session : Session) (reached : Trail (job.Writes targets stale) middle session) :
        OldOrNew job targets tree stale session :=
      separate.trail_builds holding apart checked.sublist.subset reached
    exact ⟨(clearing checked.trail).trail trail onward, onward last trail⟩
  cases course_of_ends ended with
  | refused stopped => exact start
  | unchecked opened stopped =>
    have trail := (ends_staleArchives_error (targets_of_opening opened).2 stopped).1
    rw [(targets_of_opening opened).1, named] at trail
    exact clearing trail
  | failed opened checked stopped =>
    rw [(targets_of_opening opened).1, named] at checked stopped
    obtain ⟨⟨worked, trail, clears⟩, _⟩ := ends_remapArchives_error stopped
    obtain ⟨traced, separate⟩ := writing (ends_staleArchives_ok checked) trail
    exact traced.trail clears fun _ reached => separate.trail_removes reached
  | done opened checked remapped =>
    rw [(targets_of_opening opened).1, named] at checked remapped
    exact (writing (ends_staleArchives_ok checked) (ends_remapArchives_ok remapped).2.1).1

/-- The outputs of an archive that are there after some steps have all been left alone by them, or have all
been moved there by them. -/
def OneSet (job : RemapJob) (targets : List String) (tree : FileTree) (steps : List FileStep)
    (archive : InputArchive) : Prop :=
  (∀ output ∈ job.cache.outputs archive.role targets, (tree.replay steps).isFile output.path = true →
    ∀ step ∈ steps, tree.spot output.path ∉ step.places) ∨
  ∀ output ∈ job.cache.outputs archive.role targets, (tree.replay steps).isFile output.path = true →
    ∃ source, .rename source (tree.spot output.path) ∈ steps

/-- Wherever a run is cut short, a file at the path of an output is a complete archive, and the outputs of an
archive that are there are all from before the run or have all been moved there by it. So if they are taken
as up to date later, they are all there and belong together. Outputs at one place are excluded, and the files
that are there before the run are complete archives. -/
theorem interrupted_run_mixes_no_outputs {outcome : Outcome RunReport} {last : FileTree}
    {steps taken : List FileStep} (apart : job.OutputsApart (profile.namespaces.drop 1) tree)
    (sound : ∀ archive ∈ job.archives, ∀ output ∈ job.cache.outputs archive.role (profile.namespaces.drop 1),
      tree.Sound output.path)
    (ran : (job.run profile).runOn tree = (outcome, last, steps)) (cut : taken <+: steps) :
    tree.replay steps = last ∧
    ∀ archive ∈ job.archives,
      (∀ output ∈ job.cache.outputs archive.role (profile.namespaces.drop 1), ∀ content,
        (tree.replay taken).file? output.path = some content → content.entries?.isSome = true) ∧
      job.OneSet (profile.namespaces.drop 1) tree taken archive ∧
      ∀ chain stale, ((job.unforced.plan profile).runOn (tree.replay taken)).1 = .ok (chain, stale) →
        archive ∉ stale → job.cache.Present archive.role (profile.namespaces.drop 1) (tree.replay taken) := by
  have soundPaths : ∀ path ∈ job.outputPaths (profile.namespaces.drop 1) job.archives, tree.Sound path := by
    rintro path ⟨archive, listed, output, outputListed, rfl⟩
    exact sound archive listed output outputListed
  obtain ⟨after, ended, rfl, rfl⟩ := FileM.runOn_eq.mp ran
  have cutSteps : taken.reverse <:+ after.steps := List.reverse_prefix.mp (by rwa [List.reverse_reverse])
  have traced := traced_of_run apart soundPaths ended
  obtain ⟨stale, separate⟩ := traced.cut taken.reverse cutSteps
  rw [List.reverse_reverse] at separate
  refine ⟨traced.replayed, fun archive listed => ⟨?_, ?_, ?_⟩⟩
  · intro output outputListed content found
    have standing := (FileTree.find_eq_ok.mp (FileTree.file?_eq_some.mp found)).2
    rw [FileTree.spot_congr (FileTree.workingPlace_replay tree taken)] at standing
    have placed : output.path ∈ job.cache.paths archive.role (profile.namespaces.drop 1) :=
      ⟨output, outputListed, rfl⟩
    by_cases remapped : archive ∈ stale
    · exact (separate.new archive remapped output.path placed content standing).2
    · have untouched := separate.old archive listed remapped output.path placed content standing
      rw [FileTree.node?_replay_of_untouched fun step done => untouched step (mem_reverse.mpr done)] at standing
      exact (sound archive listed output outputListed content standing).2
  · have standing : ∀ {path}, (tree.replay taken).isFile path = true →
        ∃ content, (tree.replay taken).node? (tree.spot path) = some (.file content) := by
      intro path present
      obtain ⟨_, content, standing⟩ := FileTree.isFile_iff.mp present
      rw [FileTree.spot_congr (FileTree.workingPlace_replay tree taken)] at standing
      exact ⟨content, standing⟩
    by_cases remapped : archive ∈ stale
    · refine .inr fun output outputListed present => ?_
      obtain ⟨content, found⟩ := standing present
      obtain ⟨⟨source, moved⟩, _⟩ :=
        separate.new archive remapped output.path ⟨output, outputListed, rfl⟩ content found
      exact ⟨source, mem_reverse.mp moved⟩
    · refine .inl fun output outputListed present step done => ?_
      obtain ⟨content, found⟩ := standing present
      exact separate.old archive listed remapped output.path ⟨output, outputListed, rfl⟩ content found step
        (mem_reverse.mpr done)
  · intro chain later planned fresh
    obtain ⟨reached, finish, plans⟩ := (job.unforced.plan profile).exists_ends ⟨tree.replay taken, []⟩
    rw [FileM.runOn_of_ends plans] at planned
    cases planned
    exact present_of_plan plans listed fresh

def twoArchives : RemapJob where
  identity := { version := "1", mappingName := "yarn", mappingVersion := "1", toolchain := .fabric, jarSuffix := "" }
  mappings := "mappings.tiny"
  primary := { role := "game", path := "game.jar" }
  secondary := some { role := "patched", path := "patched.jar" }
  classpath := []
  cacheDirectory := "cache"
  force := false
  inputsChanged := false
  threads := none

def smallArchive (name : String) : FileContent := .archive [{ name, data := [1], modified := .earliest }]

/-- The inputs of the job with two archives, and outputs of which one is missing. -/
def twoArchivesTree : FileTree :=
  empty.replay [
    .write ["mappings.tiny"] (.bytes (Text.encodeUtf8 "tiny\t2\t0\tofficial\tintermediary\tnamed\n")),
    .write ["game.jar"] (smallArchive "game"),
    .write ["patched.jar"] (smallArchive "patched"),
    .makeDirectory ["cache"],
    .write ["cache", "game-1-intermediary-yarn-1.jar"] (smallArchive "old"),
    .write ["cache", "patched-1-intermediary-yarn-1.jar"] (smallArchive "old"),
    .makeDirectory ["cache", "1-mapped-yarn-1"],
    .write ["cache", "1-mapped-yarn-1", "game-1-mapped-yarn-1.jar"] (smallArchive "old")]

/-- The run is cut short when one of two outputs has been moved to its path again. -/
theorem interrupted_run_mixes_no_outputs_twoArchives :
    ∃ steps, ((twoArchives.run (.ofToolchain .fabric)).runOn twoArchivesTree).2.2 = steps ∧ 6 < steps.length ∧
      ∀ archive ∈ twoArchives.archives,
        twoArchives.OneSet ["intermediary", "named"] twoArchivesTree (steps.take 6) archive := by
  have whole : 6 < ((twoArchives.run (.ofToolchain .fabric)).runOn twoArchivesTree).2.2.length := by
    decide +kernel
  have apart : twoArchives.OutputsApart ["intermediary", "named"] twoArchivesTree := by decide +kernel
  have sound : ∀ archive ∈ twoArchives.archives,
      ∀ output ∈ twoArchives.cache.outputs archive.role ["intermediary", "named"],
        twoArchivesTree.Sound output.path := by decide +kernel
  generalize ran : (twoArchives.run (.ofToolchain .fabric)).runOn twoArchivesTree = result at whole ⊢
  obtain ⟨outcome, last, steps⟩ := result
  refine ⟨steps, rfl, whole, fun archive listed => ?_⟩
  exact ((interrupted_run_mixes_no_outputs apart sound ran (List.take_prefix 6 steps)).2 archive listed).2.1

/-- A job whose two roles are different, and yet have an output at the same path. -/
def sharedOutput : RemapJob :=
  { twoArchives with secondary := some { role := "game-1-mid", path := "patched.jar" } }

/-- A profile with a namespace whose name looks like a role with a version. -/
def sharedOutputProfile : Profile :=
  { Profile.ofToolchain .fabric with namespaces := ["official", "mid", "mid-1-mid", "named"] }

/-- The inputs of the job with a shared output, and all outputs of the first archive. -/
def sharedOutputTree : FileTree :=
  empty.replay [
    .write ["mappings.tiny"] (.bytes (Text.encodeUtf8 "tiny\t2\t0\tofficial\tmid\tmid-1-mid\tnamed\n")),
    .write ["game.jar"] (smallArchive "game"),
    .write ["patched.jar"] (smallArchive "patched"),
    .makeDirectory ["cache"],
    .write ["cache", "game-1-mid-yarn-1.jar"] (smallArchive "old"),
    .write ["cache", "game-1-mid-1-mid-yarn-1.jar"] (smallArchive "old"),
    .makeDirectory ["cache", "1-mapped-yarn-1"],
    .write ["cache", "1-mapped-yarn-1", "game-1-mapped-yarn-1.jar"] (smallArchive "old")]

/-- The second output of the first archive, which is up to date, is replaced by one of the second archive, and
the other outputs stay. -/
theorem shared_output_mixes_outputs :
    (∀ archive ∈ sharedOutput.archives,
      ∀ output ∈ sharedOutput.cache.outputs archive.role ["mid", "mid-1-mid", "named"],
        sharedOutputTree.Sound output.path) ∧
    ¬ sharedOutput.OneSet ["mid", "mid-1-mid", "named"] sharedOutputTree
      ((sharedOutput.run sharedOutputProfile).runOn sharedOutputTree).2.2 sharedOutput.primary := by
  have first : ⟨"mid", "cache/game-1-mid-yarn-1.jar"⟩ ∈
      sharedOutput.cache.outputs "game" ["mid", "mid-1-mid", "named"] := by decide +kernel
  have second : ⟨"mid-1-mid", "cache/game-1-mid-1-mid-yarn-1.jar"⟩ ∈
      sharedOutput.cache.outputs "game" ["mid", "mid-1-mid", "named"] := by decide +kernel
  have course : ∀ steps, ((sharedOutput.run sharedOutputProfile).runOn sharedOutputTree).2.2 = steps →
      (sharedOutputTree.replay steps).isFile "cache/game-1-mid-yarn-1.jar" = true ∧
      (∀ step ∈ steps, sharedOutputTree.spot "cache/game-1-mid-yarn-1.jar" ∉ step.places) ∧
      (sharedOutputTree.replay steps).isFile "cache/game-1-mid-1-mid-yarn-1.jar" = true ∧
      ∃ step ∈ steps, sharedOutputTree.spot "cache/game-1-mid-1-mid-yarn-1.jar" ∈ step.places := by
    rintro _ rfl
    decide +kernel
  obtain ⟨firstPresent, firstUntouched, secondPresent, step, taken, touched⟩ := course _ rfl
  refine ⟨by decide +kernel, ?_⟩
  rintro (old | new)
  · exact old _ second secondPresent step taken touched
  · obtain ⟨source, moved⟩ := new _ first firstPresent
    exact firstUntouched _ moved (List.mem_cons_of_mem _ List.mem_cons_self)

end RemapJob

end JarRemap
