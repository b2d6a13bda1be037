import JarRemap.Job.Run
import JarRemap.Proofs.FileOperations
import JarRemap.Proofs.ListedFiles

/-!
# Reading, and reading the same again

What a job reads depends on what its input paths lead to, and on the class files below the directories of its
classpath. `SameAt` compares two trees in this respect. Reading takes no step, and what succeeded in one of the
trees succeeds in the other one with the same result (`Repeats`). Work that only touches outputs does not change
what is read.
-/
namespace JarRemap

open ArchiveImage List Classpath LoadedArchive FileM

variable {α β : Type}

namespace Classpath

def isClassFile : Place × FileContent → Bool := fun (names, _) => isClassPath (names.getLastD "")

end Classpath

namespace FileTree

variable {first second third : FileTree} {paths : Set String} {touched : Set Place}

/-- The paths lead to the same in both trees, and directories among them have the same class files. -/
structure SameAt (paths : Set String) (first second : FileTree) : Prop where
  found : ∀ path ∈ paths, ∀ node, first.find path = .ok node → second.find path = .ok node
  classes : ∀ path ∈ paths, first.find path = .ok .directory →
    (first.filesBelow (first.spot path)).filter isClassFile =
      (second.filesBelow (second.spot path)).filter isClassFile

theorem SameAt.refl (tree : FileTree) : SameAt paths tree tree := ⟨fun _ _ _ found => found, fun _ _ _ => rfl⟩

theorem SameAt.trans (start : SameAt paths first second) (finish : SameAt paths second third) :
    SameAt paths first third where
  found path listed node found := finish.found path listed node (start.found path listed node found)
  classes path listed found :=
    (start.classes path listed found).trans (finish.classes path listed (start.found path listed _ found))

theorem SameAt.symm (agree : SameAt paths first second) (led : ∀ path ∈ paths, ∃ node, first.find path = .ok node) :
    SameAt paths second first := by
  have back : ∀ path ∈ paths, ∀ node, second.find path = .ok node → first.find path = .ok node := by
    intro path listed node found
    obtain ⟨other, foundFirst⟩ := led path listed
    have same := agree.found path listed other foundFirst
    rw [found] at same
    cases same
    exact foundFirst
  exact ⟨back, fun path listed found => (agree.classes path listed (back path listed _ found)).symm⟩

theorem Keeps.sameAt (keeps : Keeps touched first second)
    (apart : ∀ path ∈ paths, ∀ content, first.find path = .ok (.file content) → first.spot path ∉ touched)
    (noClass : ∀ place ∈ touched, isClassPath (place.getLastD "") = false) : SameAt paths first second where
  found path listed node found := by
    refine keeps.find found ?_
    rintro content rfl
    exact apart path listed content found
  classes path listed found := by
    rw [keeps.spot_eq]
    refine filter_filesBelow_eq _ fun names content chosen some => (keeps.files _ ?_ content).symm
    intro inside
    have last : (first.spot path ++ names).getLastD "" = names.getLastD "" := by
      rw [getLastD_eq_getLast?, getLastD_eq_getLast?, List.getLast?_append_of_ne_nil _ some]
    have refused := noClass _ inside
    rw [last] at refused
    rw [isClassFile, refused] at chosen
    cases chosen

end FileTree

open FileTree

namespace FileM

variable {same : FileTree → FileTree → Prop} {act : FileM α} {next : α → FileM β}

/-- The work only reads, and what it read in one tree it reads in every tree that is the same in some respect. -/
structure Repeats (same : FileTree → FileTree → Prop) (act : FileM α) : Prop where
  reads : Reads act
  again : ∀ ⦃first second : Session⦄ ⦃value : α⦄, same first.tree second.tree →
    act.Ends first (.ok value) first → act.Ends second (.ok value) second

theorem repeats_lift (result : Outcome α) : Repeats same (liftM result : FileM α) where
  reads := works_lift result
  again _ _ _ _ ended := ends_lift.mpr ⟨(ends_lift.mp ended).1, rfl⟩

theorem repeats_pure (value : α) : Repeats same (pure value : FileM α) := repeats_lift (.ok value)

theorem repeats_fail (cause : Cause) : Repeats same (fail cause : FileM α) := repeats_lift (Outcome.fail cause)

theorem Repeats.bind_given (repeats : Repeats same act) (reads : ∀ value, Reads (next value))
    (later : ∀ session value, act.Ends session (.ok value) session → Repeats same (next value)) :
    Repeats same (act >>= next) where
  reads := repeats.reads.bind reads
  again first second result agree ended := by
    obtain ⟨value, read, rest⟩ := repeats.reads.ends_bind_ok ended
    exact ends_bind_ok.mpr ⟨value, second, repeats.again agree read, (later first value read).again agree rest⟩

theorem Repeats.bind (repeats : Repeats same act) (later : ∀ value, Repeats same (next value)) :
    Repeats same (act >>= next) :=
  repeats.bind_given (fun value => (later value).reads) fun _ value _ => later value

theorem Repeats.within (context : Context) (repeats : Repeats same act) : Repeats same (within context act) where
  reads := repeats.reads.within context
  again _ _ _ agree ended := ends_within_ok.mpr (repeats.again agree (ends_within_ok.mp ended))

theorem repeats_foldlM {values : List β} {act : α → β → FileM α}
    (repeats : ∀ value ∈ values, ∀ state, Repeats same (act state value)) (state : α) :
    Repeats same (values.foldlM act state) := by
  induction values generalizing state with
  | nil => exact repeats_pure state
  | cons value values ih =>
    obtain ⟨here, others⟩ := forall_mem_cons.mp repeats
    exact (here state).bind fun next => ih others next

section files

variable {paths : Set String} {path : String}

theorem repeats_openPath (listed : path ∈ paths) : Repeats (SameAt paths) (openPath path) where
  reads := reads_openPath path
  again _ _ node agree ended := ends_openPath_ok.mpr ⟨agree.found path listed node (ends_openPath_ok.mp ended).1, rfl⟩

theorem repeats_content (node : FileNode) : Repeats same (content node) := by
  cases node with
  | file content => exact repeats_pure content
  | directory => exact repeats_fail _

theorem repeats_archiveEntries (node : FileNode) : Repeats same (archiveEntries node) := by
  cases node with
  | directory => exact repeats_fail _
  | file content =>
    rw [archiveEntries]
    split
    · exact repeats_pure _
    · exact repeats_fail _

end files

end FileM

open FileM

section inputs

variable {paths : Set String} {path : String} {image : ArchiveImage} {before after : Session} {loaded : LoadedArchive}

theorem TinyFile.repeats_ofPath (listed : path ∈ paths) : Repeats (SameAt paths) (TinyFile.ofPath path) :=
  ((repeats_openPath listed).within _).bind fun node =>
    .within _ ((repeats_content node).bind fun _ => repeats_lift _)

theorem ArchiveImage.repeats_load (listed : path ∈ paths) : Repeats (SameAt paths) (ArchiveImage.load path) :=
  (((repeats_openPath listed).bind repeats_content).within _).bind fun _ =>
    ((repeats_archiveEntries _).within _).bind fun _ =>
      ((repeats_lift _).within _).bind fun _ => repeats_pure _

theorem ArchiveImage.ends_load_ok : (ArchiveImage.load path).Ends before (.ok image) after ↔ ∃ content entries classes,
      before.tree.file? path = some content ∧ content.entries? = some entries ∧
        ClassEntry.ofEntries entries = .ok classes ∧ image = .ofClasses path classes ∧ after = before := by
  simp only [load, ends_bind_ok, ends_within_ok, ends_readContent_ok, ends_archiveEntries_ok, ends_lift, ends_pure,
    Except.ok.injEq]
  constructor
  · rintro ⟨content, _, ⟨found, rfl⟩, entries, _, ⟨⟨_, same, held⟩, rfl⟩, classes, _, ⟨read, rfl⟩, rfl, rfl⟩
    cases same
    exact ⟨content, entries, classes, found, held, read.symm, rfl, rfl⟩
  · rintro ⟨content, entries, classes, found, held, read, rfl, rfl⟩
    exact ⟨content, _, ⟨found, rfl⟩, entries, _, ⟨⟨_, rfl, held⟩, rfl⟩, classes, _, ⟨read.symm, rfl⟩, rfl, rfl⟩

theorem ArchiveImage.repeats_readResource (listed : image.source ∈ paths) (name : String) :
    Repeats (SameAt paths) (image.readResource name) := by
  refine ((repeats_openPath listed).within _).bind fun node =>
    ((repeats_archiveEntries node).within _).bind fun _ => ?_
  split
  · exact ((repeats_lift _).within _).bind fun _ => repeats_pure _
  · exact repeats_pure _

theorem LoadedArchive.repeats_load (role : String) (listed : path ∈ paths) :
    Repeats (SameAt paths) (load role path) :=
  (ArchiveImage.repeats_load listed).bind fun _ => (repeats_lift _).bind fun _ => repeats_pure _

theorem LoadedArchive.reads_load (role path : String) : Reads (load role path) :=
  (repeats_load role (Set.mem_univ path)).reads

theorem LoadedArchive.file_of_load {role : String}
    (ended : (load role path).Ends before (.ok loaded) after) :
    (∃ content, before.tree.file? path = some content) ∧ loaded.image.source = path := by
  obtain ⟨image, _, read, rest⟩ := ends_bind_ok.mp ended
  obtain ⟨_, _, rest⟩ := ends_lift_bind_ok.mp rest
  obtain ⟨given, _⟩ := ends_pure.mp rest
  cases given
  obtain ⟨content, _, _, found, _, _, rfl, _⟩ := ends_load_ok.mp read
  exact ⟨⟨content, found⟩, rfl⟩

theorem AuxiliaryFiles.repeats_ofImage (listed : image.source ∈ paths) (table : MappingTable) :
    Repeats (SameAt paths) (AuxiliaryFiles.ofImage table image) := by
  refine (repeats_readResource listed _).bind fun resource => ?_
  split
  · exact ((repeats_lift _).within _).bind fun _ => repeats_pure _
  · exact repeats_pure _

namespace Classpath

def addFiles (hierarchy : ClassHierarchy) (path : String) (files : List (Place × FileContent)) :
    FileM ClassHierarchy :=
  files.foldlM (fun hierarchy (names, content) =>
    addClass hierarchy (names.foldl Path.join path) content.data) hierarchy

section

variable (hierarchy : ClassHierarchy)

theorem addDirectory_eq (path : String) :
    addDirectory hierarchy path = (tree >>= fun tree => ofFault (tree.locate path) >>= fun place =>
      addFiles hierarchy path ((tree.filesBelow place).filter isClassFile)) := rfl

theorem repeats_addDirectory {first second : Session} {result : ClassHierarchy} (listed : path ∈ paths)
    (agree : SameAt paths first.tree second.tree) (found : first.tree.find path = .ok .directory)
    (ended : (addDirectory hierarchy path).Ends first (.ok result) first) :
    (addDirectory hierarchy path).Ends second (.ok result) second := by
  have led := (find_eq_ok.mp found).1
  have ledAgain := (find_eq_ok.mp (agree.found path listed _ found)).1
  rw [addDirectory_eq, ends_tree_bind, led, ends_ofFault_bind] at ended
  rw [addDirectory_eq, ends_tree_bind, ledAgain, ends_ofFault_bind]
  obtain ⟨_, ⟨⟩, ended⟩ := ended.resolve_left fun ⟨_, lost, _⟩ => by cases lost
  refine .inr ⟨_, rfl, ?_⟩
  rw [← agree.classes path listed found]
  exact (repeats_foldlM (fun _ _ _ => repeats_lift _) hierarchy).again agree ended

theorem repeats_addArchive (listed : path ∈ paths) : Repeats (SameAt paths) (addArchive hierarchy path) :=
  (repeats_openPath listed).bind fun node => (repeats_archiveEntries node).bind fun _ =>
    repeats_foldlM (fun _ _ _ => (repeats_lift _).bind fun _ => repeats_lift _) hierarchy

theorem reads_addPath (path : String) : Reads (addPath hierarchy path) := by
  refine works_tree.bind fun tree => ?_
  split
  · refine Works.within _ (works_tree.bind fun tree => (works_ofFault _).bind fun place => ?_)
    exact works_foldlM (fun _ _ _ => works_lift _) _
  · split
    · exact (repeats_addArchive hierarchy (Set.mem_univ path)).reads.within _
    · exact works_fail _

theorem repeats_addPath (listed : path ∈ paths) : Repeats (SameAt paths) (addPath hierarchy path) := by
  refine ⟨reads_addPath hierarchy path, fun first second result agree ended => ?_⟩
  rw [addPath, ends_tree_bind] at ended ⊢
  split at ended
  case isTrue directory =>
    have found := isDirectory_iff.mp directory
    rw [if_pos (isDirectory_iff.mpr (agree.found path listed _ found))]
    exact ends_within_ok.mpr (repeats_addDirectory hierarchy listed agree found (ends_within_ok.mp ended))
  case isFalse noDirectory =>
    split at ended
    case isTrue file =>
      obtain ⟨content, found⟩ := isFile_iff_found.mp file
      have foundAgain := agree.found path listed _ found
      have noDirectoryAgain : second.tree.isDirectory path ≠ true := by
        rw [ne_eq, isDirectory_iff, foundAgain]
        exact fun same => by cases same
      rw [if_neg noDirectoryAgain, if_pos (isFile_iff_found.mpr ⟨content, foundAgain⟩)]
      exact ((repeats_addArchive hierarchy listed).within _).again agree ended
    case isFalse => cases (ends_fail.mp ended).1

end

theorem repeats_hierarchy {entries : List String} (listed : ∀ path ∈ entries, path ∈ paths) :
    Repeats (SameAt paths) (hierarchy entries) :=
  repeats_foldlM (fun path found hierarchy => repeats_addPath hierarchy (listed path found)) .empty

end Classpath

theorem RemapEngine.repeats_classpathHierarchy (engine : RemapEngine)
    (listed : ∀ path ∈ engine.classpath, path ∈ paths) : Repeats (SameAt paths) engine.classpathHierarchy := by
  rw [classpathHierarchy]
  split
  · exact (repeats_hierarchy listed).within _
  · exact repeats_pure _
  · exact repeats_fail _

theorem RemapEngine.repeats_editorsFor {archive : LoadedArchive} (engine : RemapEngine)
    (listed : archive.image.source ∈ paths) (target : String) :
    Repeats (SameAt paths) (engine.editorsFor archive target) := by
  rw [editorsFor]
  split
  · split
    · exact (repeats_lift _).bind fun table =>
        (AuxiliaryFiles.repeats_ofImage listed table).bind fun _ => repeats_pure _
    · exact repeats_fail _
  · exact repeats_pure _

theorem RemapEngine.reads_classpathHierarchy (engine : RemapEngine) : Reads engine.classpathHierarchy :=
  (engine.repeats_classpathHierarchy fun path _ => Set.mem_univ path).reads

theorem RemapEngine.reads_editorsFor (engine : RemapEngine) (archive : LoadedArchive) (target : String) :
    Reads (engine.editorsFor archive target) :=
  (engine.repeats_editorsFor (Set.mem_univ _) target).reads

end inputs

namespace RemapJob

variable {job : RemapJob} {profile : Profile}

def inputPaths (job : RemapJob) : Set String := { path | ∃ input ∈ job.inputs, input.2 = path }

theorem mappings_mem_inputPaths (job : RemapJob) : job.mappings ∈ job.inputPaths :=
  ⟨(.mappingFile, job.mappings), mem_cons_self, rfl⟩

theorem path_mem_inputPaths {archive : InputArchive} (listed : archive ∈ job.archives) :
    archive.path ∈ job.inputPaths := by
  refine ⟨(.inputArchive, archive.path), mem_cons_of_mem _ (mem_append_left _ ?_), rfl⟩
  exact mem_map.mpr ⟨archive, listed, rfl⟩

theorem classpath_mem_inputPaths (listed : path ∈ job.classpath) : path ∈ job.inputPaths := by
  refine ⟨(.classpathEntry, path), mem_cons_of_mem _ (mem_append_right _ ?_), rfl⟩
  exact mem_map.mpr ⟨path, listed, rfl⟩

theorem ends_checkInputs_ok {session : Session} : job.checkInputs.Ends session (.ok ()) session ↔
      ∀ input ∈ job.inputs, session.tree.hasPath input.2 = true := by
  rw [checkInputs, ends_tree_bind]
  induction job.inputs with
  | nil => simp
  | cons input inputs ih =>
    rw [forall_mem_cons, ← ih]
    change ((_ : FileM Unit) >>= fun _ => _).Ends session (.ok ()) session ↔ _
    obtain ⟨kind, path⟩ := input
    by_cases present : session.tree.hasPath path = true <;> simp [present]

theorem repeats_checkInputs (job : RemapJob) : Repeats (SameAt job.inputPaths) job.checkInputs where
  reads := by
    refine works_tree.bind fun tree => works_forM fun ⟨kind, path⟩ _ => ?_
    dsimp only
    split
    · exact works_pure _
    · exact works_fail _
  again first second value agree ended := by
    rw [ends_checkInputs_ok] at ended ⊢
    intro input listed
    obtain ⟨node, found⟩ := hasPath_iff.mp (ended input listed)
    exact hasPath_iff.mpr ⟨node, agree.found input.2 ⟨input, listed, rfl⟩ node found⟩

/-- The part of a run before any output is looked at: the inputs are there, and the mappings can be read. -/
def opening (job : RemapJob) (profile : Profile) : FileM NamespaceChain := do
  if job.identity.toolchain ≠ profile.toolchain then
    fail (.wrongToolchain job.identity.toolchain profile.toolchain)
  else
    job.checkInputs
    job.readChain profile

theorem repeats_opening (job : RemapJob) (profile : Profile) :
    Repeats (SameAt job.inputPaths) (job.opening profile) := by
  rw [opening]
  split
  · exact repeats_fail _
  · exact job.repeats_checkInputs.bind fun _ =>
      (TinyFile.repeats_ofPath job.mappings_mem_inputPaths).bind fun _ => (repeats_lift _).within _

end RemapJob

end JarRemap
