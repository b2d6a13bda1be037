import JarRemap.Proofs.RunOutcomes
import JarRemap.Proofs.RepeatedWriting

/-!
# What a job has to write

`expected` tells the entries of an output from the inputs alone. If remapping succeeds, then every output could be
told beforehand; and if every output can be told and nothing is in the way, then it succeeds. `Fits` and `Ready`
say that what a run carries along is what would be read now.
-/
namespace JarRemap

open Session FileM FileTree List LoadedArchive ArchiveWriter RemapEngine OutputCache

variable {content : FileContent}

namespace RemapEngine

variable {fresh engine next : RemapEngine} {archive : LoadedArchive} {target output : String}
  {owners : Option InnerOwners} {before after session : Session} {entries : List ArchiveEntry}
  {paths : Set String} {classpath : ClassHierarchy}

/-- The entries of the archive that the engine writes for a target, if it knows the classpath. -/
def expectedWith (engine : RemapEngine) (archive : LoadedArchive) (target : String)
    (owners : Option InnerOwners) (classpath : ClassHierarchy) : FileM (List ArchiveEntry) := do
  let classes ← engine.remapClasses archive classpath target owners
  let editors ← engine.editorsFor archive target
  let file ← FileM.openPath archive.image.source
  let copied ← FileM.archiveEntries file
  compose ⟨engine.profile.copyMode, editors⟩ classes copied

/-- The entries of the archive that the engine writes for a target. -/
def expected (engine : RemapEngine) (archive : LoadedArchive) (target : String)
    (owners : Option InnerOwners) : FileM (List ArchiveEntry) :=
  engine.classpathHierarchy >>= engine.expectedWith archive target owners

theorem repeats_expected (engine : RemapEngine) (archive : LoadedArchive) (target : String)
    (owners : Option InnerOwners) (classpath : ∀ path ∈ engine.classpath, path ∈ paths)
    (source : archive.image.source ∈ paths) : Repeats (SameAt paths) (engine.expected archive target owners) := by
  refine (engine.repeats_classpathHierarchy classpath).bind fun hierarchy => (repeats_lift _).bind fun classes => ?_
  refine (engine.repeats_editorsFor source target).bind fun editors => (repeats_openPath source).bind fun file => ?_
  exact (repeats_archiveEntries file).bind fun copied => repeats_lift _

/-- The entries are composed from the remapped classes and from what the archive holds besides. -/
theorem ends_expectedWith_ok (found : session.tree.file? archive.image.source = some content) :
    (engine.expectedWith archive target owners classpath).Ends session (.ok entries) session ↔
      ∃ classes editors copied, engine.remapClasses archive classpath target owners = .ok classes ∧
        (engine.editorsFor archive target).Ends session (.ok editors) session ∧ content.entries? = some copied ∧
        compose ⟨engine.profile.copyMode, editors⟩ classes copied = .ok entries := by
  have opened := file?_eq_some.mp found
  rw [expectedWith, ends_lift_bind_ok]
  constructor
  · rintro ⟨classes, remapped, told⟩
    obtain ⟨editors, edited, told⟩ := (engine.reads_editorsFor archive target).ends_bind_ok told
    obtain ⟨file, read, told⟩ := (reads_openPath _).ends_bind_ok told
    rw [ends_openPath_ok, opened] at read
    obtain ⟨⟨⟩, _⟩ := read
    obtain ⟨copied, held, told⟩ := (reads_archiveEntries _).ends_bind_ok told
    obtain ⟨⟨_, ⟨⟩, held⟩, _⟩ := ends_archiveEntries_ok.mp held
    exact ⟨classes, editors, copied, remapped, edited, held, (ends_lift.mp told).1.symm⟩
  · rintro ⟨classes, editors, copied, remapped, edited, held, composed⟩
    refine ⟨classes, remapped, ends_bind_ok.mpr ⟨editors, session, edited, ?_⟩⟩
    refine ends_bind_ok.mpr ⟨_, session, ends_openPath_ok.mpr ⟨opened, rfl⟩, ?_⟩
    refine ends_bind_ok.mpr ⟨copied, session, ends_archiveEntries_ok.mpr ⟨⟨content, rfl, held⟩, rfl⟩, ?_⟩
    exact ends_lift.mpr ⟨composed.symm, rfl⟩

/-- An engine is a fresh one, or a fresh one that has read the classpath as it is now. -/
def Fits (fresh engine : RemapEngine) (session : Session) : Prop :=
  engine = fresh ∨ ∃ hierarchy, fresh.classpathHierarchy.Ends session (.ok hierarchy) session ∧
    engine = { fresh with state := .prepared hierarchy }

namespace Fits

variable {hierarchy : ClassHierarchy}

section

variable (fits : fresh.Fits engine session)
include fits

theorem profile_eq : engine.profile = fresh.profile := by
  rcases fits with rfl | ⟨_, _, rfl⟩ <;> rfl

theorem ends_classpathHierarchy : engine.classpathHierarchy.Ends session (.ok hierarchy) session ↔
      fresh.classpathHierarchy.Ends session (.ok hierarchy) session := by
  rcases fits with rfl | ⟨known, read, rfl⟩
  · exact Iff.rfl
  constructor
  · intro given
    obtain ⟨⟨⟩, _⟩ := ends_pure.mp given
    exact read
  · intro readAgain
    obtain ⟨⟨⟩, _⟩ := read.unique readAgain
    exact ends_pure.mpr ⟨rfl, rfl⟩

theorem prepared (given : engine.classpathHierarchy.Ends session (.ok hierarchy) session) :
    fresh.Fits { engine with state := .prepared hierarchy } session := by
  refine .inr ⟨hierarchy, fits.ends_classpathHierarchy.mp given, ?_⟩
  rcases fits with rfl | ⟨_, _, rfl⟩ <;> rfl

theorem expectedWith_eq : engine.expectedWith archive target owners = fresh.expectedWith archive target owners := by
  rcases fits with rfl | ⟨_, _, rfl⟩ <;> rfl

theorem ends_expected (given : engine.classpathHierarchy.Ends session (.ok classpath) session) :
    (fresh.expected archive target owners).Ends session (.ok entries) session ↔
      (engine.expectedWith archive target owners classpath).Ends session (.ok entries) session := by
  have read := fits.ends_classpathHierarchy.mp given
  rw [fits.expectedWith_eq]
  constructor
  · intro told
    obtain ⟨_, readAgain, told⟩ := fresh.reads_classpathHierarchy.ends_bind_ok told
    obtain ⟨⟨⟩, _⟩ := read.unique readAgain
    exact told
  · intro told
    exact ends_bind_ok.mpr ⟨classpath, session, read, told⟩

end

theorem sameAt (fits : fresh.Fits engine before) (listed : ∀ path ∈ fresh.classpath, path ∈ paths)
    (agree : SameAt paths before.tree after.tree) : fresh.Fits engine after := by
  rcases fits with same | ⟨hierarchy, read, same⟩
  · exact .inl same
  · exact .inr ⟨hierarchy, (fresh.repeats_classpathHierarchy listed).again agree read, same⟩

end Fits

variable {content : FileContent}

section

variable (fits : fresh.Fits engine before) (found : before.tree.file? archive.image.source = some content)
include fits found

theorem expected_of_ends_remapTo (ended : (engine.remapTo archive target output owners).Ends before (.ok next) after) :
    fresh.Fits next before ∧ ∃ entries, (fresh.expected archive target owners).Ends before (.ok entries) before ∧
        Writable after.tree output ∧ after.tree.file? output = some (.archive entries) := by
  obtain ⟨classpath, classes, editors, given, remapped, edited, wrote, rfl⟩ := ends_remapTo_ok.mp ended
  obtain ⟨copied, entries, _, composed, writable, standing, read, held⟩ := composed_of_ends_write wrote
  obtain rfl := FileNode.file.inj
    (Option.some.inj ((FileTree.find_eq_ok.mp (FileTree.file?_eq_some.mp found)).2.symm.trans read))
  refine ⟨fits.prepared given, entries, (fits.ends_expected given).mpr ?_, writable, standing⟩
  exact (ends_expectedWith_ok found).mpr ⟨classes, editors, copied, remapped, edited, held, composed⟩

theorem exists_ends_remapTo (apart : before.tree.spot archive.image.source ≠ before.tree.spot (Path.temporary output))
    (told : (fresh.expected archive target owners).Ends before (.ok entries) before)
    (writable : Writable before.tree output) (clear : Clear before.tree output) : ∃ next, fresh.Fits next before ∧
      (engine.remapTo archive target output owners).Ends before (.ok next) (before.placed output entries) := by
  obtain ⟨classpath, read, _⟩ := fresh.reads_classpathHierarchy.ends_bind_ok told
  have given := fits.ends_classpathHierarchy.mpr read
  obtain ⟨classes, editors, copied, remapped, edited, held, composed⟩ :=
    (ends_expectedWith_ok found).mp ((fits.ends_expected given).mp told)
  have wrote := writable.ends_write clear found apart held composed
  refine ⟨_, fits.prepared given, ends_remapTo_ok.mpr ?_⟩
  exact ⟨classpath, classes, editors, given, remapped, edited, wrote, rfl⟩

end

end RemapEngine

namespace RemapJob

variable {job : RemapJob} {chain : NamespaceChain} {profile : Profile} {targets : List String}
  {archives : List InputArchive} {archive : InputArchive} {before after session : Session}
  {progress next last : Progress} {loaded : LoadedArchive} {first second third : FileTree}

def outputPlaces (job : RemapJob) (targets : List String) (tree : FileTree) : Set Place :=
  tree.spot '' Path.withTemporary (job.outputPaths targets job.archives)

/-- All inputs are there, and no file among them is where the job writes. -/
def Supplied (job : RemapJob) (targets : List String) (tree : FileTree) : Prop :=
  ∀ path ∈ job.inputPaths, ∃ node, tree.find path = .ok node ∧
    ∀ content, node = .file content → tree.spot path ∉ job.outputPlaces targets tree

theorem isClassPath_of_mem_outputPlaces {tree : FileTree} {place : Place}
    (inside : place ∈ job.outputPlaces targets tree) : isClassPath (place.getLastD "") = false := by
  obtain ⟨path, final | ⟨final, listed, rfl⟩, rfl⟩ := inside
  · obtain ⟨folder, name, placed, _⟩ := tree.exists_spot_jar (isJar_of_mem_outputPaths final)
    rw [placed, getLastD_concat]
    exact isClassPath_append (by decide) (by decide) name
  · obtain ⟨folder, name, _, placed⟩ := tree.exists_spot_jar (isJar_of_mem_outputPaths listed)
    rw [placed, getLastD_concat]
    exact isClassPath_append (by decide) (by decide) name

theorem keeps_outputPlaces_of_builds {paths : Set String} (trail : Trail (FileStep.Builds paths) before after)
    (included : paths ⊆ job.outputPaths targets job.archives) :
    Keeps (job.outputPlaces targets before.tree) before.tree after.tree :=
  trail.keeps_of_builds.mono (Set.image_mono (Path.withTemporary_mono included))

theorem keeps_outputPlaces_trans (start : Keeps (job.outputPlaces targets first) first second)
    (finish : Keeps (job.outputPlaces targets second) second third) :
    Keeps (job.outputPlaces targets first) first third := by
  have spots : second.spot = first.spot := funext start.spot_eq
  rw [outputPlaces, spots] at finish
  exact start.trans finish

theorem Supplied.keeps (supplied : job.Supplied targets first)
    (keeps : Keeps (job.outputPlaces targets first) first second) :
    SameAt job.inputPaths first second ∧ job.Supplied targets second := by
  have apart : ∀ path ∈ job.inputPaths, ∀ content, first.find path = .ok (.file content) →
      first.spot path ∉ job.outputPlaces targets first := by
    intro path listed content found
    obtain ⟨node, foundNode, apart⟩ := supplied path listed
    rw [found] at foundNode
    cases foundNode
    exact apart content rfl
  have agree : SameAt job.inputPaths first second :=
    keeps.sameAt apart fun _ inside => isClassPath_of_mem_outputPlaces inside
  refine ⟨agree, fun path listed => ?_⟩
  obtain ⟨node, found, apart⟩ := supplied path listed
  have spots : second.spot = first.spot := funext keeps.spot_eq
  exact ⟨node, agree.found path listed node found, by rwa [outputPlaces, spots]⟩

theorem Supplied.spot_ne {path : String} (supplied : job.Supplied targets first)
    (listed : archive ∈ job.archives) (found : first.file? archive.path = some content)
    (placed : path ∈ job.outputPaths targets job.archives) :
    first.spot archive.path ≠ first.spot (Path.temporary path) := by
  obtain ⟨node, foundNode, apart⟩ := supplied archive.path (path_mem_inputPaths listed)
  rw [file?_eq_some.mp found] at foundNode
  cases foundNode
  intro same
  exact apart content rfl ⟨_, Path.temporary_mem_withTemporary placed, same.symm⟩

def primaryOwners (job : RemapJob) (profile : Profile) : FileM (Option InnerOwners) := do
  if profile.fixups.contains .innerClasses then
    let primary ← load job.primary.role job.primary.path
    let owners ← InnerOwners.ofImage primary.image
    return some owners
  else return none

theorem repeats_primaryOwners (job : RemapJob) (profile : Profile) :
    Repeats (SameAt job.inputPaths) (job.primaryOwners profile) := by
  have listed : job.primary.path ∈ job.inputPaths := path_mem_inputPaths mem_cons_self
  rw [primaryOwners]
  split
  · exact (repeats_load _ listed).bind fun _ => (repeats_lift _).bind fun _ => repeats_pure _
  · exact repeats_pure _

section

variable (load : (load archive.role archive.path).Ends session (.ok loaded) session)
include load

theorem ends_ownersFrom_ok {owners : InnerOwners} : (job.ownersFrom archive loaded).Ends session (.ok owners) session ↔
      ∃ primary, (LoadedArchive.load job.primary.role job.primary.path).Ends session (.ok primary) session ∧
        InnerOwners.ofImage primary.image = .ok owners := by
  rw [ownersFrom]
  split
  case isTrue same =>
    subst same
    constructor
    · intro owned
      exact ⟨loaded, load, (ends_lift.mp owned).1.symm⟩
    · rintro ⟨primary, loadAgain, owned⟩
      obtain ⟨⟨⟩, _⟩ := load.unique loadAgain
      exact ends_lift.mpr ⟨owned.symm, rfl⟩
  case isFalse =>
    constructor
    · intro owned
      obtain ⟨primary, read, owned⟩ := (reads_load _ _).ends_bind_ok owned
      exact ⟨primary, read, (ends_lift.mp owned).1.symm⟩
    · rintro ⟨primary, read, owned⟩
      exact ends_bind_ok.mpr ⟨primary, session, read, ends_lift.mpr ⟨owned.symm, rfl⟩⟩

theorem ends_primaryOwners_ok (needed : profile.fixups.contains .innerClasses = true) :
    (job.primaryOwners profile).Ends session (.ok owners) session ↔
      ∃ known, (job.ownersFrom archive loaded).Ends session (.ok known) session ∧ owners = some known := by
  rw [primaryOwners, if_pos needed]
  simp only [ends_ownersFrom_ok load]
  constructor
  · intro told
    obtain ⟨primary, read, told⟩ := (reads_load _ _).ends_bind_ok told
    obtain ⟨known, owned, told⟩ := ends_lift_bind_ok.mp told
    obtain ⟨⟨⟩, _⟩ := ends_pure.mp told
    exact ⟨known, ⟨primary, read, owned⟩, rfl⟩
  · rintro ⟨known, ⟨primary, read, owned⟩, rfl⟩
    refine ends_bind_ok.mpr ⟨primary, session, read, ends_lift_bind_ok.mpr ⟨known, owned, ?_⟩⟩
    exact ends_pure.mpr ⟨rfl, rfl⟩

end

/-- All inputs are there, and what is carried from one archive to the next is what would be read now. -/
structure Ready (job : RemapJob) (chain : NamespaceChain) (profile : Profile) (targets : List String)
    (progress : Progress) (session : Session) : Prop where
  supplied : job.Supplied targets session.tree
  engine : (create chain profile job.classpath).Fits progress.engine session
  owners : progress.owners = none ∨ (job.primaryOwners profile).Ends session (.ok progress.owners) session

/-- An archive has been loaded, with all that is needed to remap it. -/
structure Underway (job : RemapJob) (chain : NamespaceChain) (profile : Profile) (targets : List String)
    (archive : InputArchive) (loaded : LoadedArchive) (progress : Progress) (session : Session) : Prop where
  supplied : job.Supplied targets session.tree
  load : (load archive.role archive.path).Ends session (.ok loaded) session
  engine : (create chain profile job.classpath).Fits progress.engine session
  owners : (job.primaryOwners profile).Ends session (.ok progress.owners) session

theorem Underway.ready (underway : job.Underway chain profile targets archive loaded progress session) :
    job.Ready chain profile targets progress session :=
  ⟨underway.supplied, underway.engine, .inr underway.owners⟩

/-- The progress with the owners of inner classes, which are read if they are needed for the first time. -/
def withOwners (job : RemapJob) (archive : InputArchive) (loaded : LoadedArchive) (progress : Progress) :
    FileM Progress := do
  if progress.engine.profile.fixups.contains .innerClasses && progress.owners.isNone then
    let owners ← job.ownersFrom archive loaded
    return { progress with owners := some owners }
  else return progress

theorem ends_loadArchive_ok : (job.loadArchive progress archive).Ends before (.ok (next, loaded)) after ↔
      (load archive.role archive.path).Ends before (.ok loaded) before ∧
        (job.withOwners archive loaded progress).Ends before (.ok next) after := by
  have unfolded : job.loadArchive progress archive =
      (FileM.within (.loadArchive archive.role archive.path) (load archive.role archive.path) >>=
        fun loaded => job.withOwners archive loaded progress >>= fun next => pure (next, loaded)) := by
    rw [loadArchive]
    refine bind_congr fun loaded => ?_
    rw [withOwners]
    split <;> simp
  rw [unfolded]
  constructor
  · intro ended
    obtain ⟨found, load, ended⟩ := Reads.ends_bind_ok ((reads_load archive.role archive.path).within _) ended
    obtain ⟨carried, middle, owned, ended⟩ := ends_bind_ok.mp ended
    obtain ⟨⟨⟩, rfl⟩ := ends_pure.mp ended
    exact ⟨ends_within_ok.mp load, owned⟩
  · rintro ⟨load, owned⟩
    refine ends_bind_ok.mpr ⟨loaded, before, ends_within_ok.mpr load, ?_⟩
    exact ends_bind_ok.mpr ⟨next, after, owned, ends_pure.mpr ⟨rfl, rfl⟩⟩

/-- The owners that are kept are those that the primary archive tells. -/
theorem Ready.ends_withOwners (ready : job.Ready chain profile targets progress session)
    (load : (load archive.role archive.path).Ends session (.ok loaded) session) :
    (job.withOwners archive loaded progress).Ends session (.ok next) session ↔
      ∃ owners, (job.primaryOwners profile).Ends session (.ok owners) session ∧ next = { progress with owners } := by
  have named : progress.engine.profile = profile := ready.engine.profile_eq
  have carried := ready.owners
  rw [withOwners, named]
  obtain ⟨engine, known, hops⟩ := progress
  dsimp only at carried ⊢
  -- The owners are read here, or carried along from an earlier archive, or not needed by the profile.
  by_cases needed : profile.fixups.contains .innerClasses = true
  · rw [needed, Bool.true_and]
    cases known with
    | none =>
      simp only [Option.isNone_none, if_true, ends_primaryOwners_ok load needed]
      constructor
      · intro told
        obtain ⟨read, owned, told⟩ := (job.reads_ownersFrom archive loaded).ends_bind_ok told
        obtain ⟨⟨⟩, _⟩ := ends_pure.mp told
        exact ⟨some read, ⟨read, owned, rfl⟩, rfl⟩
      · rintro ⟨_, ⟨read, owned, rfl⟩, rfl⟩
        exact ends_bind_ok.mpr ⟨read, session, owned, ends_pure.mpr ⟨rfl, rfl⟩⟩
    | some known =>
      have owned := carried.resolve_left (Option.some_ne_none known)
      rw [if_neg (by simp), ends_pure]
      constructor
      · rintro ⟨same, _⟩
        cases same
        exact ⟨some known, owned, rfl⟩
      · rintro ⟨_, ownedAgain, rfl⟩
        obtain ⟨⟨⟩, _⟩ := owned.unique ownedAgain
        exact ⟨rfl, rfl⟩
  · have unneeded : job.primaryOwners profile = pure none := by rw [primaryOwners, if_neg needed]
    have nothing : known = none := by
      rw [unneeded] at carried
      rcases carried with nothing | told
      · exact nothing
      · obtain ⟨⟨⟩, _⟩ := ends_pure.mp told
        rfl
    rw [Bool.not_eq_true] at needed
    rw [needed, Bool.false_and, if_neg Bool.false_ne_true, unneeded, nothing]
    simp

theorem Ready.ends_loadArchive (ready : job.Ready chain profile targets progress session) :
    (job.loadArchive progress archive).Ends session (.ok (next, loaded)) session ↔
      job.Underway chain profile targets archive loaded next session ∧ next.engine = progress.engine ∧
        next.hops = progress.hops := by
  rw [ends_loadArchive_ok]
  constructor
  · rintro ⟨load, owned⟩
    obtain ⟨owners, known, rfl⟩ := (ready.ends_withOwners load).mp owned
    exact ⟨⟨ready.supplied, load, ready.engine, known⟩, rfl, rfl⟩
  · rintro ⟨underway, sameEngine, sameHops⟩
    refine ⟨underway.load, (ready.ends_withOwners underway.load).mpr ?_⟩
    obtain ⟨engine, owners, hops⟩ := next
    exact ⟨owners, underway.owners, by rw [← sameEngine, ← sameHops]⟩

section remapping

variable {output : OutputArchive} {outputs : List OutputArchive}

/-- The entries of an output of the job. -/
def expected (job : RemapJob) (chain : NamespaceChain) (profile : Profile) (archive : InputArchive)
    (target : String) : FileM (List ArchiveEntry) := do
  let loaded ← load archive.role archive.path
  let owners ← job.primaryOwners profile
  (create chain profile job.classpath).expected loaded target owners

theorem repeats_expected (chain : NamespaceChain) (profile : Profile) (listed : archive ∈ job.archives)
    (target : String) : Repeats (SameAt job.inputPaths) (job.expected chain profile archive target) := by
  have input := path_mem_inputPaths listed
  refine (repeats_load _ input).bind_given (fun loaded => ?_) fun session loaded load => ?_
  · exact (job.repeats_primaryOwners profile).reads.bind fun owners =>
      (RemapEngine.repeats_expected _ _ _ _ (fun _ _ => Set.mem_univ _) (Set.mem_univ _)).reads
  · refine (job.repeats_primaryOwners profile).bind fun owners => ?_
    refine RemapEngine.repeats_expected _ _ _ _ (fun path found => classpath_mem_inputPaths found) ?_
    rwa [(file_of_load load).2]

theorem keeps_of_remapOutput {outcome : Outcome Progress} (listed : archive ∈ job.archives)
    (outputListed : output ∈ job.cache.outputs archive.role targets)
    (ended : (remapOutput archive loaded progress output).Ends before outcome after) :
    Keeps (job.outputPlaces targets before.tree) before.tree after.tree := by
  have placed := paths_subset_outputPaths listed (path_mem_paths outputListed)
  exact keeps_outputPlaces_of_builds ((takes_remapOutput _ _ _ _).trail ended) (Set.singleton_subset_iff.mpr placed)

/-- Some outputs have been written where no directory had to be made. -/
structure Fills (job : RemapJob) (targets : List String) (first second : FileTree) : Prop where
  keeps : Keeps (job.outputPlaces targets first) first second
  clear : ∀ path, Clear first path → Clear second path

theorem Fills.refl (tree : FileTree) : job.Fills targets tree tree := ⟨.refl tree, fun _ => id⟩

theorem Fills.trans (start : job.Fills targets first second) (finish : job.Fills targets second third) :
    job.Fills targets first third where
  keeps := keeps_outputPlaces_trans start.keeps finish.keeps
  clear path clear := finish.clear path (start.clear path clear)

/-- An output could be written: its entries can be told, and all directories that it needs are there. -/
structure Feasible (job : RemapJob) (chain : NamespaceChain) (profile : Profile) (archive : InputArchive)
    (output : OutputArchive) (session : Session) : Prop where
  told : ∃ entries, (job.expected chain profile archive output.target).Ends session (.ok entries) session
  writable : Writable session.tree output.path

theorem Feasible.keeps (feasible : job.Feasible chain profile archive output before)
    (listed : archive ∈ job.archives) (supplied : job.Supplied targets before.tree)
    (keeps : Keeps (job.outputPlaces targets before.tree) before.tree after.tree) :
    job.Feasible chain profile archive output after := by
  obtain ⟨entries, told⟩ := feasible.told
  have agree := (supplied.keeps keeps).1
  have toldAgain := (repeats_expected chain profile listed output.target).again agree told
  exact ⟨⟨entries, toldAgain⟩, feasible.writable.keeps keeps⟩

namespace Underway

theorem keeps (underway : job.Underway chain profile targets archive loaded progress before)
    (listed : archive ∈ job.archives) (keeps : Keeps (job.outputPlaces targets before.tree) before.tree after.tree) :
    job.Underway chain profile targets archive loaded progress after := by
  obtain ⟨agree, supplied⟩ := underway.supplied.keeps keeps
  refine ⟨supplied, ?_, ?_, ?_⟩
  · exact (repeats_load _ (path_mem_inputPaths listed)).again agree underway.load
  · exact underway.engine.sameAt (fun path found => classpath_mem_inputPaths found) agree
  · exact (job.repeats_primaryOwners profile).again agree underway.owners

section

variable (underway : job.Underway chain profile targets archive loaded progress session)
include underway

theorem ends_expected :
    (job.expected chain profile archive target).Ends session (.ok entries) session ↔
      ((create chain profile job.classpath).expected loaded target progress.owners).Ends session
        (.ok entries) session := by
  constructor
  · intro told
    obtain ⟨_, load, told⟩ := (reads_load _ _).ends_bind_ok told
    obtain ⟨⟨⟩, _⟩ := underway.load.unique load
    obtain ⟨_, owned, told⟩ := (job.repeats_primaryOwners profile).reads.ends_bind_ok told
    obtain ⟨⟨⟩, _⟩ := underway.owners.unique owned
    exact told
  · intro told
    exact ends_bind_ok.mpr ⟨loaded, session, underway.load,
      ends_bind_ok.mpr ⟨progress.owners, session, underway.owners, told⟩⟩

theorem exists_source (listed : archive ∈ job.archives)
    (outputListed : output ∈ job.cache.outputs archive.role targets) :
    ∃ content, session.tree.file? loaded.image.source = some content ∧
      session.tree.spot loaded.image.source ≠ session.tree.spot (Path.temporary output.path) := by
  obtain ⟨⟨content, found⟩, source⟩ := file_of_load underway.load
  rw [source]
  refine ⟨content, found, underway.supplied.spot_ne listed found ?_⟩
  exact paths_subset_outputPaths listed (path_mem_paths outputListed)

end

section

variable (underway : job.Underway chain profile targets archive loaded progress before)
  (listed : archive ∈ job.archives)
include underway listed

section

variable (outputListed : output ∈ job.cache.outputs archive.role targets)
  (ended : (remapOutput archive loaded progress output).Ends before (.ok next) after)
include outputListed ended

theorem expected_of_ends : job.Underway chain profile targets archive loaded next after ∧
      ∃ entries, (job.expected chain profile archive output.target).Ends before (.ok entries) before ∧
        Writable after.tree output.path ∧ after.tree.file? output.path = some (.archive entries) := by
  have keeps := keeps_of_remapOutput listed outputListed ended
  obtain ⟨content, found, _⟩ := underway.exists_source listed outputListed
  obtain ⟨engine, _, remapped, settled⟩ := ends_bind_ok.mp ended
  obtain ⟨⟨⟩, rfl⟩ := ends_pure.mp settled
  obtain ⟨fits, entries, told, written⟩ := expected_of_ends_remapTo underway.engine found (ends_within_ok.mp remapped)
  have later := underway.keeps listed keeps
  have engineLater := fits.sameAt (fun path found => classpath_mem_inputPaths found) (underway.supplied.keeps keeps).1
  exact ⟨⟨later.supplied, later.load, engineLater, later.owners⟩, entries, underway.ends_expected.mpr told, written⟩

theorem step_of_ends : job.Underway chain profile targets archive loaded next after ∧
      job.Feasible chain profile archive output after := by
  have keeps := keeps_of_remapOutput listed outputListed ended
  obtain ⟨later, entries, told, writable, _⟩ := underway.expected_of_ends listed outputListed ended
  refine ⟨later, ⟨entries, ?_⟩, writable⟩
  exact (repeats_expected chain profile listed output.target).again (underway.supplied.keeps keeps).1 told

end

theorem exists_step (outputListed : output ∈ job.cache.outputs archive.role targets)
    (feasible : job.Feasible chain profile archive output before) (clear : Clear before.tree output.path) :
    ∃ next after, (remapOutput archive loaded progress output).Ends before (.ok next) after ∧
      job.Underway chain profile targets archive loaded next after ∧ job.Fills targets before.tree after.tree := by
  obtain ⟨content, found, apart⟩ := underway.exists_source listed outputListed
  obtain ⟨entries, told⟩ := feasible.told
  obtain ⟨engine, fits, remapped⟩ := exists_ends_remapTo underway.engine found apart
    (underway.ends_expected.mp told) feasible.writable clear
  have ended : (remapOutput archive loaded progress output).Ends before
      (.ok { progress with engine, hops := progress.hops + 1 }) (before.placed output.path entries) :=
    ends_bind_ok.mpr ⟨engine, _, ends_within_ok.mpr remapped, ends_pure.mpr ⟨rfl, rfl⟩⟩
  have keeps := keeps_of_remapOutput listed outputListed ended
  exact ⟨_, _, ended, (underway.step_of_ends listed outputListed ended).1, keeps,
    fun path others => clear.placed entries others⟩

theorem exists_ends_foldlM (included : outputs ⊆ job.cache.outputs archive.role targets)
    (feasible : ∀ output ∈ outputs, job.Feasible chain profile archive output before)
    (clear : ∀ output ∈ outputs, Clear before.tree output.path) :
    ∃ last after, (outputs.foldlM (remapOutput archive loaded) progress).Ends before (.ok last) after ∧
      job.Underway chain profile targets archive loaded last after ∧ job.Fills targets before.tree after.tree := by
  induction outputs generalizing progress before with
  | nil => exact ⟨progress, before, ends_pure.mpr ⟨rfl, rfl⟩, underway, .refl _⟩
  | cons output outputs ih =>
    obtain ⟨here, others⟩ := cons_subset.mp included
    obtain ⟨feasibleHere, feasibleOthers⟩ := forall_mem_cons.mp feasible
    obtain ⟨clearHere, clearOthers⟩ := forall_mem_cons.mp clear
    obtain ⟨next, middle, first, onward, fills⟩ := underway.exists_step listed here feasibleHere clearHere
    obtain ⟨last, after, rest, reached, fillsOthers⟩ := ih onward others
      (fun other found => (feasibleOthers other found).keeps listed underway.supplied fills.keeps)
      (fun other found => fills.clear _ (clearOthers other found))
    exact ⟨last, after, ends_bind_ok.mpr ⟨next, middle, first, rest⟩, reached, fills.trans fillsOthers⟩

end

end Underway

namespace Ready

section

variable (ready : job.Ready chain profile targets progress before)
include ready

theorem feasible_of_foldlM (included : archives ⊆ job.archives)
    (ended : (archives.foldlM (job.remapArchive targets) progress).Ends before (.ok last) after) :
    ∀ hop ∈ job.hops targets archives, hop.1 ∈ job.archives ∧ job.Feasible chain profile hop.1 hop.2 after := by
  let Done (done : List (InputArchive × OutputArchive)) (session : Session) : Prop :=
    ∀ hop ∈ done, hop.1 ∈ job.archives ∧ job.Feasible chain profile hop.1 hop.2 session
  refine (remapping_induction
    (fun done progress session => job.Ready chain profile targets progress session ∧ Done done session)
    (fun archive loaded done progress session =>
      job.Underway chain profile targets archive loaded progress session ∧ Done done session)
    (fun _ between load => ⟨(between.1.ends_loadArchive.mp load).1, between.2⟩) ?_
    (fun within => ⟨within.1.ready, within.2⟩) ⟨ready, forall_mem_nil _⟩ ended).2
  rintro done progress before archive loaded output next after listed outputListed ⟨underway, feasible⟩ ended
  obtain ⟨onward, here⟩ := underway.step_of_ends (included listed) outputListed ended
  have keeps := keeps_of_remapOutput (included listed) outputListed ended
  refine ⟨onward, forall_mem_append.mpr ⟨fun hop found => ?_, forall_mem_singleton.mpr ⟨included listed, here⟩⟩⟩
  obtain ⟨hopListed, earlier⟩ := feasible hop found
  exact ⟨hopListed, earlier.keeps hopListed underway.supplied keeps⟩

theorem exists_ends_remapArchive (listed : archive ∈ job.archives) (filled : targets ≠ [])
    (feasible : ∀ output ∈ job.cache.outputs archive.role targets, job.Feasible chain profile archive output before)
    (clear : ∀ output ∈ job.cache.outputs archive.role targets, Clear before.tree output.path) :
    ∃ last after, (job.remapArchive targets progress archive).Ends before (.ok last) after ∧
      job.Ready chain profile targets last after ∧ job.Fills targets before.tree after.tree := by
  -- Any one of the outputs shows that the archive can be loaded.
  obtain ⟨output, outputListed⟩ : ∃ output, output ∈ job.cache.outputs archive.role targets :=
    exists_mem_outputs filled
  obtain ⟨entries, told⟩ := (feasible output outputListed).told
  obtain ⟨loaded, load, told⟩ := (reads_load _ _).ends_bind_ok told
  obtain ⟨owners, owned, _⟩ := (job.repeats_primaryOwners profile).reads.ends_bind_ok told
  have underway : job.Underway chain profile targets archive loaded { progress with owners } before :=
    ⟨ready.supplied, load, ready.engine, owned⟩
  obtain ⟨last, after, wrote, reached, fills⟩ := underway.exists_ends_foldlM listed (List.Subset.refl _) feasible clear
  refine ⟨last, after, ?_, reached.ready, fills⟩
  rw [remapArchive_eq]
  exact ends_bind_ok.mpr ⟨_, before, ready.ends_loadArchive.mpr ⟨underway, rfl, rfl⟩, wrote⟩

theorem exists_ends_foldlM (included : archives ⊆ job.archives) (filled : targets ≠ [])
    (feasible : ∀ archive ∈ archives, ∀ output ∈ job.cache.outputs archive.role targets,
      job.Feasible chain profile archive output before)
    (clear : ∀ archive ∈ archives, ∀ output ∈ job.cache.outputs archive.role targets, Clear before.tree output.path) :
    ∃ last after, (archives.foldlM (job.remapArchive targets) progress).Ends before (.ok last) after := by
  induction archives generalizing progress before with
  | nil => exact ⟨progress, before, ends_pure.mpr ⟨rfl, rfl⟩⟩
  | cons archive archives ih =>
    obtain ⟨here, others⟩ := cons_subset.mp included
    obtain ⟨feasibleHere, feasibleOthers⟩ := forall_mem_cons.mp feasible
    obtain ⟨clearHere, clearOthers⟩ := forall_mem_cons.mp clear
    obtain ⟨next, middle, first, onward, fills⟩ := ready.exists_ends_remapArchive here filled feasibleHere clearHere
    obtain ⟨last, after, rest⟩ := ih onward others
      (fun other found output listed =>
        (feasibleOthers other found output listed).keeps (others found) ready.supplied fills.keeps)
      (fun other found output listed => fills.clear _ (clearOthers other found output listed))
    exact ⟨last, after, ends_bind_ok.mpr ⟨next, middle, first, rest⟩⟩

end

end Ready

end remapping

end RemapJob

end JarRemap
