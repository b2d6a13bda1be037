import JarRemap.Proofs.FileSteps

/-!
# What single operations on files do

One law for each operation: what it finds before it takes its step, and that it takes no step if it fails.
Looking is done by reading only. Making directories with all those above them makes nothing but directories,
where nothing was.
-/
namespace JarRemap

open Session FileTree FileStep

namespace FileM

variable {before after : Session} {path : String} {outcome : Outcome Unit} {place : Place}

section reading

variable {node : FileNode} {found : FileContent}

theorem reads_openPath (path : String) : Reads (openPath path) :=
  works_tree.bind fun _ => works_ofFault _

theorem reads_archiveEntries (node : FileNode) : Reads (archiveEntries node) := by
  cases node with
  | directory => exact works_fail _
  | file content =>
    rw [archiveEntries]
    split
    · exact works_pure _
    · exact works_fail _

theorem ends_openPath_ok :
    (openPath path).Ends before (.ok node) after ↔ before.tree.find path = .ok node ∧ after = before := by
  rw [openPath, ends_tree_bind, ends_ofFault_ok]

theorem ends_content_ok : (content node).Ends before (.ok found) after ↔ node = .file found ∧ after = before := by
  cases node <;> simp [content, eq_comm]

theorem ends_readContent_ok : (readContent path).Ends before (.ok found) after ↔
      before.tree.file? path = some found ∧ after = before := by
  simp only [readContent, ends_bind_ok, ends_openPath_ok, ends_content_ok, FileTree.file?_eq_some]
  constructor
  · rintro ⟨node, middle, ⟨found, rfl⟩, rfl, rfl⟩
    exact ⟨found, rfl⟩
  · rintro ⟨found, rfl⟩
    exact ⟨_, _, ⟨found, rfl⟩, rfl, rfl⟩

theorem ends_archiveEntries_ok {entries : List ArchiveEntry} : (archiveEntries node).Ends before (.ok entries) after ↔
      (∃ content, node = .file content ∧ content.entries? = some entries) ∧ after = before := by
  cases node with
  | directory => simp [archiveEntries]
  | file content =>
    rw [archiveEntries]
    split
    case h_1 found held => simp [held, eq_comm]
    case h_2 none => simp [none]

end reading

theorem ends_delete : (delete path).Ends before outcome after → (outcome = .ok () ∧ before.tree.isFile path = true ∧
        after = before.advance (.delete (before.tree.spot path))) ∨
      ((∃ failure, outcome = .error failure) ∧ before.tree.isFile path = false ∧ after = before) := by
  intro ended
  rw [delete, ends_tree_bind, ends_ofFault_bind] at ended
  rcases ended with ⟨fault, lost, rfl, rfl⟩ | ⟨place, led, ended⟩
  · refine .inr ⟨⟨_, rfl⟩, ?_, rfl⟩
    rw [Bool.eq_false_iff]
    intro present
    rw [(isFile_iff.mp present).1] at lost
    cases lost
  · obtain rfl := locate_eq_spot led
    split at ended
    case h_1 nothing =>
      obtain ⟨rfl, rfl⟩ := ends_fail.mp ended
      exact .inr ⟨⟨_, rfl⟩, by rw [Bool.eq_false_iff, ne_eq, isFile_iff]; simp [nothing], rfl⟩
    case h_2 directory =>
      obtain ⟨rfl, rfl⟩ := ends_fail.mp ended
      exact .inr ⟨⟨_, rfl⟩, by rw [Bool.eq_false_iff, ne_eq, isFile_iff]; simp [directory], rfl⟩
    case h_3 content file =>
      obtain ⟨rfl, rfl⟩ := ends_perform.mp ended
      exact .inl ⟨rfl, isFile_iff.mpr ⟨led, content, file⟩, rfl⟩

theorem takes_delete (path : String) : Takes (Removes {path}) (delete path) := by
  intro before outcome after _ ended
  refine ⟨?_, trivial⟩
  rcases ends_delete ended with ⟨_, present, rfl⟩ | ⟨_, _, rfl⟩
  · obtain ⟨_, content, standing⟩ := isFile_iff.mp present
    exact .single (.delete rfl standing)
  · exact .refl _

theorem isFile_of_ends_delete (ended : (delete path).Ends before outcome after) : after.tree.isFile path = false := by
  rcases ends_delete ended with ⟨_, present, rfl⟩ | ⟨_, absent, rfl⟩
  · obtain ⟨_, content, standing⟩ := isFile_iff.mp present
    rw [Bool.eq_false_iff, ne_eq, isFile_iff, advance_tree, spot_congr (workingPlace_apply _ _), node?_delete standing]
    simp
  · exact absent

theorem takes_deleteIfPresent (path : String) : Takes (Removes {path}) (deleteIfPresent path) := by
  refine (takes_delete path).tryCatch fun failure => ?_
  split
  · exact works_pure _
  · exact works_throw _

theorem isFile_of_ends_deleteIfPresent (ended : (deleteIfPresent path).Ends before outcome after) :
    after.tree.isFile path = false := by
  rcases ends_tryCatch.mp ended with ⟨_, given, _⟩ | ⟨failure, middle, stopped, handled⟩
  · exact isFile_of_ends_delete given
  · have same : after = middle := by
      split at handled
      · exact (ends_pure.mp handled).2
      · exact (ends_throw.mp handled).2
    rw [same]
    exact isFile_of_ends_delete stopped

theorem exists_ends_deleteIfPresent (led : before.tree.locate path = .ok (before.tree.spot path))
    (free : before.tree.node? (before.tree.spot path) ≠ some .directory) :
    ∃ after, (deleteIfPresent path).Ends before (.ok ()) after := by
  simp only [deleteIfPresent, ends_tryCatch, delete, ends_tree_bind, ends_ofFault_bind, led]
  cases standing : before.tree.node? (before.tree.spot path) with
  | none =>
    refine ⟨before, .inr ⟨.of (.file .notFound), before, .inr ⟨_, rfl, ?_⟩, ?_⟩⟩
    · rw [standing]
      exact ends_fail.mpr ⟨rfl, rfl⟩
    · exact ends_pure.mpr ⟨rfl, rfl⟩
  | some node =>
    cases node with
    | directory => exact absurd standing free
    | file content =>
      refine ⟨before.advance (.delete (before.tree.spot path)), .inl ⟨(), .inr ⟨_, rfl, ?_⟩, trivial⟩⟩
      rw [standing]
      exact ends_perform.mpr ⟨rfl, rfl⟩

theorem reads_placeForFile (path : String) : Reads (placeForFile path) := by
  refine works_tree.bind fun tree => ?_
  split
  · exact (works_ofFault _).bind fun _ => works_fail _
  · refine (works_ofFault _).bind fun place => ?_
    split
    · exact works_fail _
    · exact works_pure _

theorem ends_placeForFile_ok : (placeForFile path).Ends before (.ok place) after ↔
      Path.endsInSlash path = false ∧ before.tree.placeOf path = .ok place ∧
        before.tree.node? place ≠ some .directory ∧ after = before := by
  rw [placeForFile, ends_tree_bind]
  split
  case isTrue slash => simp [slash]
  case isFalse noSlash =>
    simp only [ends_bind_ok, ends_ofFault_ok]
    constructor
    · rintro ⟨found, middle, ⟨led, rfl⟩, ended⟩
      split at ended
      case h_1 => cases (ends_fail.mp ended).1
      case h_2 other =>
        obtain ⟨⟨⟩, rfl⟩ := ends_pure.mp ended
        exact ⟨by simpa using noSlash, led, other, rfl⟩
    · rintro ⟨_, led, other, rfl⟩
      refine ⟨place, after, ⟨led, rfl⟩, ?_⟩
      split
      case h_1 directory => exact absurd directory other
      case h_2 => exact ends_pure.mpr ⟨rfl, rfl⟩

theorem ends_create_ok : (create path).Ends before (.ok place) after ↔
      Path.endsInSlash path = false ∧ before.tree.placeOf path = .ok place ∧
        before.tree.node? place ≠ some .directory ∧ after = before.advance (.create place) := by
  simp only [create, ends_bind_ok, ends_placeForFile_ok, ends_perform, ends_pure, Except.ok.injEq]
  constructor
  · rintro ⟨_, _, ⟨noSlash, led, free, rfl⟩, _, _, ⟨_, rfl⟩, rfl, rfl⟩
    exact ⟨noSlash, led, free, rfl⟩
  · rintro ⟨noSlash, led, free, rfl⟩
    exact ⟨_, _, ⟨noSlash, led, free, rfl⟩, (), _, ⟨trivial, rfl⟩, rfl, rfl⟩

theorem ends_create_error {failure : Failure} (ended : (create path).Ends before (.error failure) after) :
    after = before := by
  rcases ends_bind.mp ended with ⟨_, stopped, _⟩ | ⟨place, middle, _, ended⟩
  · exact (reads_placeForFile path).eq stopped
  · rcases ends_bind.mp ended with ⟨_, stopped, _⟩ | ⟨_, _, _, ended⟩
    · cases (ends_perform.mp stopped).1
    · cases (ends_pure.mp ended).1

section moving

variable {source target : String}

/-- There are ways in a tree from one path to another one, whatever stands there. -/
structure Ways (tree : FileTree) (source target : String) : Prop where
  sourceFolder : ∃ place, tree.directoryOf source = .ok place
  targetFolder : ∃ place, tree.directoryOf target = .ok place
  named : Path.endsInName source = true ∧ Path.endsInName target = true
  noSlash : Path.endsInSlash source = false ∧ Path.endsInSlash target = false
  sourceLed : tree.placeOf source = .ok (tree.spot source)
  targetLed : tree.placeOf target = .ok (tree.spot target)

/-- What has to be true of a tree for a file to be moved in it. -/
structure Movable (tree : FileTree) (source target : String) : Prop extends Ways tree source target where
  present : ∃ content, tree.node? (tree.spot source) = some (.file content)
  free : tree.node? (tree.spot target) ≠ some .directory

/-- A file is moved only where it can be, and a move that fails changes nothing. -/
theorem ends_rename (ended : (rename source target).Ends before outcome after) :
    (outcome = .ok () ∧ Movable before.tree source target ∧
      after = before.advance (.rename (before.tree.spot source) (before.tree.spot target))) ∨
    ((∃ failure, outcome = .error failure) ∧ after = before) := by
  have failed : ∀ {cause : Cause}, (fail cause : FileM Unit).Ends before outcome after →
      (∃ failure, outcome = .error failure) ∧ after = before :=
    fun stopped => ⟨⟨_, (ends_fail.mp stopped).1⟩, (ends_fail.mp stopped).2⟩
  rw [rename, ends_tree_bind, ends_ofFault_bind] at ended
  rcases ended with ⟨_, _, rfl, rfl⟩ | ⟨sourceFolder, above, ended⟩
  · exact .inr ⟨⟨_, rfl⟩, rfl⟩
  rw [ends_ofFault_bind] at ended
  rcases ended with ⟨_, _, rfl, rfl⟩ | ⟨targetFolder, aboveTarget, ended⟩
  · exact .inr ⟨⟨_, rfl⟩, rfl⟩
  split at ended
  · exact .inr (failed ended)
  rename_i named
  rw [ends_ofFault_bind] at ended
  rcases ended with ⟨_, _, rfl, rfl⟩ | ⟨sourcePlace, sourceLed, ended⟩
  · exact .inr ⟨⟨_, rfl⟩, rfl⟩
  obtain rfl := placeOf_eq_spot sourceLed
  split at ended
  · exact .inr (failed ended)
  · exact .inr (failed ended)
  rename_i content present
  rw [ends_ofFault_bind] at ended
  rcases ended with ⟨_, _, rfl, rfl⟩ | ⟨targetPlace, targetLed, ended⟩
  · exact .inr ⟨⟨_, rfl⟩, rfl⟩
  obtain rfl := placeOf_eq_spot targetLed
  split at ended
  · exact .inr (failed ended)
  rename_i noSlash
  split at ended
  · exact .inr (failed ended)
  rename_i free
  obtain ⟨rfl, rfl⟩ := ends_perform.mp ended
  refine .inl ⟨rfl, ⟨⟨⟨_, above⟩, ⟨_, aboveTarget⟩, ?_, ?_, sourceLed, targetLed⟩, ⟨content, present⟩, free⟩, rfl⟩
  · simpa using named
  · simpa using noSlash

theorem Ways.keeps {first second : FileTree} {touched : Set Place} (ways : Ways first source target)
    (keeps : FileTree.Keeps touched first second) : Ways second source target where
  sourceFolder := ways.sourceFolder.imp fun _ => keeps.walk
  targetFolder := ways.targetFolder.imp fun _ => keeps.walk
  named := ways.named
  noSlash := ways.noSlash
  sourceLed := by rw [keeps.spot_eq]; exact keeps.walk ways.sourceLed
  targetLed := by rw [keeps.spot_eq]; exact keeps.walk ways.targetLed

theorem Movable.ends (movable : Movable before.tree source target) : (rename source target).Ends before (.ok ())
      (before.advance (.rename (before.tree.spot source) (before.tree.spot target))) := by
  obtain ⟨sourceFolder, above⟩ := movable.sourceFolder
  obtain ⟨targetFolder, aboveTarget⟩ := movable.targetFolder
  obtain ⟨content, present⟩ := movable.present
  rw [rename, ends_tree_bind, ends_ofFault_bind]
  refine .inr ⟨sourceFolder, above, ends_ofFault_bind.mpr (.inr ⟨targetFolder, aboveTarget, ?_⟩)⟩
  rw [if_neg (by simp [movable.named]), ends_ofFault_bind]
  refine .inr ⟨_, movable.sourceLed, ?_⟩
  simp only [present, ends_ofFault_bind]
  refine .inr ⟨_, movable.targetLed, ?_⟩
  rw [if_neg (by simp [movable.noSlash])]
  split
  case h_1 directory => exact absurd directory movable.free
  case h_2 => exact ends_perform.mpr ⟨rfl, rfl⟩

end moving

section directories

variable {outputs : Set String}

theorem takes_makeDirectory (path : String) : Takes (Drafts outputs) (makeDirectory path) := by
  intro before outcome after _ ended
  refine ⟨?_, trivial⟩
  rw [makeDirectory, ends_tree_bind, ends_ofFault_bind] at ended
  rcases ended with ⟨_, _, _, rfl⟩ | ⟨place, led, ended⟩
  · exact .refl _
  · split at ended
    case h_1 =>
      rw [(ends_fail.mp ended).2]
      exact .refl _
    case h_2 nothing =>
      rw [(ends_perform.mp ended).2]
      exact .single ⟨.makeDirectory nothing, by simp⟩

theorem takes_makeOrKeepDirectory (path : String) : Takes (Drafts outputs) (makeOrKeepDirectory path) := by
  refine (takes_makeDirectory path).tryCatch fun failure => works_tree.bind fun tree => ?_
  split
  · exact works_pure _
  · exact works_throw _

theorem takes_makeLineage (lineage : List String) : Takes (Drafts outputs) (makeLineage lineage) := by
  induction lineage with
  | nil => exact works_pure _
  | cons path above ih =>
    refine (takes_makeOrKeepDirectory path).tryCatch fun failure => ?_
    split
    · exact ih.bind fun _ => takes_makeOrKeepDirectory path
    · exact works_throw _

theorem takes_makeDirectories (path : String) : Takes (Drafts outputs) (makeDirectories path) :=
  takes_makeLineage _

end directories

end FileM

end JarRemap
