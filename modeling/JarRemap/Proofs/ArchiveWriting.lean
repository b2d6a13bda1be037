import JarRemap.Archive.Writer
import JarRemap.Proofs.FileOperations

/-!
# How an archive is written

While an archive is being written, a file stands at its temporary path, and only that file changes. It is
moved when it is complete, so the path of the archive never leads to less than a whole one. In the end the
temporary file is gone, moved if all went well and deleted if not.
-/
namespace JarRemap

open Session FileM FileTree FileStep JarRemap.Path

namespace FileTree

variable {tree before after : FileTree} {touched : Set Place} {place : Place}

def Unfilled (tree : FileTree) (place : Place) : Prop := ∀ content, tree.node? place ≠ some (.file content)

theorem unfilled_of_none (nothing : tree.node? place = none) : tree.Unfilled place := by
  intro content standing
  rw [nothing] at standing
  cases standing

theorem Unfilled.isFile {path : String} (unfilled : tree.Unfilled (tree.spot path)) : tree.isFile path = false := by
  rw [Bool.eq_false_iff, ne_eq, isFile_iff]
  rintro ⟨_, content, standing⟩
  exact unfilled content standing

theorem Keeps.unfilled (keeps : Keeps touched before after) (other : place ∉ touched)
    (unfilled : before.Unfilled place) : after.Unfilled place :=
  fun content standing => unfilled content ((keeps.files place other content).mp standing)

/-- The archive at the path is there, and nothing is left of the file that it was written to. -/
structure Written (tree : FileTree) (path : String) : Prop where
  present : tree.isFile path = true
  noDraft : tree.Unfilled (tree.spot (temporary path))

end FileTree

namespace ArchiveWriter

variable {writer : ArchiveWriter} {output source : String} {classes : List ClassEntry} {before after : Session}
  {place : Place} {outcome : Outcome Unit}

/-- The temporary file for an output has been begun at the place. -/
def Drafting (output : String) (place : Place) (session : Session) : Prop :=
  session.tree.spot (temporary output) = place ∧
    ∃ content, session.tree.node? place = some (.file content)

theorem Drafting.extend (drafting : Drafting output place before) (entry : ArchiveEntry) :
    Drafts {output} before.tree (.extend place entry) ∧
      Drafting output place (before.advance (.extend place entry)) := by
  obtain ⟨rfl, content, begun⟩ := drafting
  obtain ⟨entries, grown⟩ := exists_node?_extend begun entry
  exact ⟨⟨.extend rfl begun, by simp⟩, spot_congr (workingPlace_apply _ _) _, _, grown⟩

theorem Drafting.finish (drafting : Drafting output place before) : Drafts {output} before.tree (.finish place) ∧
      ∃ entries, (before.advance (.finish place)).tree.node? place = some (.file (.archive entries)) := by
  obtain ⟨rfl, content, begun⟩ := drafting
  exact ⟨⟨.finish rfl begun, by simp⟩, exists_node?_finish begun⟩

theorem works_addEntry (taken : List String) (name : String) (entry : Outcome ArchiveEntry) :
    Works (Drafting output place) (Drafts {output}) (addEntry place taken name entry) := by
  rw [addEntry]
  split
  · exact works_fail _
  · refine (works_lift entry).bind fun entry => Works.bind ?_ fun _ => works_pure _
    intro before outcome after drafting ended
    obtain ⟨_, rfl⟩ := ends_perform.mp ended
    obtain ⟨drafts, stillDrafting⟩ := drafting.extend entry
    exact ⟨.single drafts, stillDrafting⟩

/-- Writes the entries of an archive without completing it. -/
def fillEntries (writer : ArchiveWriter) (place : Place) (classes : List ClassEntry) (source : String) :
    FileM (List String) := do
  let taken ← classes.foldlM (fun taken entry => addEntry place taken entry.path (.ok (classEntry entry))) []
  let file ← openPath source
  let entries ← within (.openAsArchive source) (archiveEntries file)
  (entries.filter fun entry => !writer.skips entry).foldlM (fun taken entry =>
    addEntry place taken entry.name do
      let data ← writer.contentOf entry
      return { entry with data }) taken

theorem writeEntries_eq (writer : ArchiveWriter) (place : Place) (classes : List ClassEntry) (source : String) :
    writer.writeEntries place classes source =
      (writer.fillEntries place classes source >>= fun _ => perform (.finish place)) := by
  simp only [writeEntries, fillEntries, bind_assoc]

theorem works_fillEntries : Works (Drafting output place) (Drafts {output})
      (writer.fillEntries place classes source) := by
  refine (works_foldlM (fun _ _ _ => works_addEntry _ _ _) _).bind fun taken => ?_
  refine (works_of_reads (reads_openPath source)).bind fun file => ?_
  refine (works_of_reads ((reads_archiveEntries file).within _)).bind fun entries => ?_
  exact works_foldlM (fun _ _ _ => works_addEntry _ _ _) _

theorem ends_writeEntries (drafting : Drafting output place before)
    (ended : (writer.writeEntries place classes source).Ends before outcome after) :
    Trail (Drafts {output}) before after ∧
      (outcome = .ok () → ∃ entries, after.tree.node? place = some (.file (.archive entries))) := by
  rw [writeEntries_eq] at ended
  rcases ends_bind.mp ended with ⟨_, stopped, rfl⟩ | ⟨_, middle, given, finished⟩
  · exact ⟨(works_fillEntries drafting stopped).1, fun done => by cases done⟩
  · obtain ⟨trail, stillDrafting⟩ := works_fillEntries drafting given
    obtain ⟨_, rfl⟩ := ends_perform.mp finished
    obtain ⟨drafts, complete⟩ := stillDrafting.finish
    exact ⟨trail.trans (.single drafts), fun _ => complete⟩

/-- The temporary file was completed, and moved in the last step. -/
def Moved (output : String) (before after : Session) : Prop :=
  ∃ middle entries, Trail (Drafts {output}) before middle ∧ Movable middle.tree (temporary output) output ∧
    middle.tree.node? (middle.tree.spot (temporary output)) = some (.file (.archive entries)) ∧
    after = middle.advance (.rename (middle.tree.spot (temporary output)) (middle.tree.spot output))

/-- The work fails while it goes on with the temporary file, or it moves the complete file in the end. -/
theorem ends_writeAndMove (ended : (writer.writeAndMove output classes source).Ends before outcome after) :
    ((∃ failure, outcome = .error failure) ∧ Trail (Drafts {output}) before after) ∨
      (outcome = .ok () ∧ Moved output before after) := by
  rcases ends_bind.mp ended with ⟨failure, stopped, rfl⟩ | ⟨place, begun, created, ended⟩
  · rw [ends_create_error stopped]
    exact .inl ⟨⟨failure, rfl⟩, .refl _⟩
  obtain ⟨_, led, free, rfl⟩ := ends_create_ok.mp created
  obtain rfl := placeOf_eq_spot led
  have begins : Trail (Drafts {output}) before
      (before.advance (.create (before.tree.spot (temporary output)))) :=
    .single ⟨.create rfl free, by simp⟩
  have drafting : Drafting output (before.tree.spot (temporary output))
      (before.advance (.create (before.tree.spot (temporary output)))) :=
    ⟨spot_congr (workingPlace_apply _ _) _, _, node?_create free⟩
  rcases ends_bind.mp ended with ⟨failure, stopped, rfl⟩ | ⟨_, middle, filled, ended⟩
  · exact .inl ⟨⟨failure, rfl⟩, begins.trans (ends_writeEntries drafting stopped).1⟩
  obtain ⟨fills, complete⟩ := ends_writeEntries drafting filled
  obtain ⟨entries, complete⟩ := complete rfl
  have same : middle.tree.spot (temporary output) = before.tree.spot (temporary output) :=
    (begins.trans fills).keeps_of_drafts.spot_eq _
  rw [← same] at complete
  rcases ends_rename ended with ⟨rfl, movable, rfl⟩ | ⟨failed, rfl⟩
  · exact .inr ⟨rfl, middle, entries, begins.trans fills, movable, complete, rfl⟩
  · exact .inl ⟨failed, begins.trans fills⟩

theorem takes_writeAndMove : Takes (Builds {output}) (writer.writeAndMove output classes source) := by
  intro before outcome after _ ended
  refine ⟨?_, trivial⟩
  rcases ends_writeAndMove ended with ⟨_, trail⟩ | ⟨_, middle, entries, trail, movable, complete, rfl⟩
  · exact trail.mono fun _ _ drafts => drafts.builds
  · exact (trail.mono fun _ _ drafts => drafts.builds).trans (.single (.move rfl complete movable.free))

def makeFolder (output : String) : FileM Unit :=
  match parent? output with
  | some directory => within (.createDirectory directory) (makeDirectories directory)
  | none => pure ()

/-- Writes an archive to a directory that is there, and deletes the temporary file if this fails. -/
def writeOrDiscard (writer : ArchiveWriter) (output : String) (classes : List ClassEntry)
    (source : String) : FileM Unit :=
  within (.writeArchive output) do
    tryCatch (writer.writeAndMove output classes source) fun failure => do
      tryCatch (delete (temporary output)) fun _ => return
      throw failure

theorem write_eq (writer : ArchiveWriter) (output : String) (classes : List ClassEntry) (source : String) :
    writer.write output classes source =
      (makeFolder output >>= fun _ => writer.writeOrDiscard output classes source) := by
  rw [write, makeFolder]
  cases parent? output <;> rfl

theorem takes_makeFolder {outputs : Set String} (output : String) : Takes (Drafts outputs) (makeFolder output) := by
  rw [makeFolder]
  split
  · exact (takes_makeDirectories _).within _
  · exact works_pure _

theorem takes_discardDraft (failure : Failure) : Takes (Drafts {output}) (do
      tryCatch (delete (temporary output)) fun _ => return
      throw failure : FileM Unit) := by
  have discards : ∀ tree step, Removes {temporary output} tree step →
      Drafts {output} tree step := by
    rintro tree step ⟨rfl, present⟩
    exact ⟨.discard rfl present, by simp⟩
  refine Works.bind ?_ fun _ => works_throw failure
  exact ((takes_delete _).mono discards).tryCatch fun _ => works_pure _

theorem takes_write : Takes (Builds {output}) (writer.write output classes source) := by
  have widens : ∀ tree step, Drafts {output} tree step → Builds {output} tree step := fun _ _ drafts => drafts.builds
  rw [write_eq]
  refine ((takes_makeFolder output).mono widens).bind fun _ => Works.within _ ?_
  exact takes_writeAndMove.tryCatch fun failure => (takes_discardDraft failure).mono widens

theorem trail_of_ends_write_error {failure : Failure}
    (ended : (writer.write output classes source).Ends before (.error failure) after) :
    Trail (Drafts {output}) before after := by
  rw [write_eq] at ended
  rcases ends_bind.mp ended with ⟨_, stopped, _⟩ | ⟨_, middle, made, ended⟩
  · exact (takes_makeFolder output).trail stopped
  have makes : Trail (Drafts {output}) before middle := (takes_makeFolder output).trail made
  obtain ⟨reached, ended, failed⟩ := ends_within.mp ended
  rcases ends_tryCatch.mp ended with ⟨_, _, rfl⟩ | ⟨_, drafted, stopped, handled⟩
  · cases failed
  rcases ends_writeAndMove stopped with ⟨_, drafts⟩ | ⟨done, _⟩
  · exact (makes.trans drafts).trans ((takes_discardDraft _).trail handled)
  · cases done

theorem ends_writeOrDiscard_ok : (writer.writeOrDiscard output classes source).Ends before (.ok ()) after ↔
      (writer.writeAndMove output classes source).Ends before (.ok ()) after := by
  rw [writeOrDiscard, ends_within_ok, ends_tryCatch]
  constructor
  · rintro (⟨_, given, _⟩ | ⟨_, _, _, handled⟩)
    · exact given
    · obtain ⟨_, _, _, thrown⟩ := ends_bind_ok.mp handled
      cases (ends_throw.mp thrown).1
  · intro given
    exact .inl ⟨(), given, rfl⟩

theorem moved_of_ends_writeOrDiscard
    (ended : (writer.writeOrDiscard output classes source).Ends before (.ok ()) after) :
    Moved output before after := by
  rcases ends_writeAndMove (ends_writeOrDiscard_ok.mp ended) with ⟨⟨_, failed⟩, _⟩ | ⟨_, moved⟩
  · cases failed
  · exact moved

theorem file?_of_movable {tree : FileTree} {entries : List ArchiveEntry}
    (movable : Movable tree (temporary output) output)
    (complete : tree.node? (tree.spot (temporary output)) = some (.file (.archive entries))) :
    ((rename (tree.spot (temporary output)) (tree.spot output)).apply tree).file? output = some (.archive entries) := by
  have keeps := (Builds.move (Set.mem_singleton output) complete movable.free).keeps
  rw [FileTree.file?_eq_some, find_eq_ok, keeps.spot_eq]
  refine ⟨keeps.locate ?_, (node?_rename complete movable.free).1⟩
  rw [locate_of_placeOf movable.noSlash.2, movable.targetLed]

section

variable (ended : (writer.write output classes source).Ends before (.ok ()) after)
include ended

theorem file?_and_draft_of_ends_write : (∃ entries, after.tree.file? output = some (.archive entries)) ∧
    after.tree.node? (after.tree.spot (temporary output)) = none := by
  rw [write_eq] at ended
  obtain ⟨_, start, _, ended⟩ := ends_bind_ok.mp ended
  obtain ⟨middle, entries, _, movable, complete, rfl⟩ := moved_of_ends_writeOrDiscard ended
  have keeps := (Builds.move (Set.mem_singleton output) complete movable.free).keeps
  rw [advance_tree, keeps.spot_eq]
  have vacated := (node?_rename complete movable.free).2
  exact ⟨⟨entries, file?_of_movable movable complete⟩, vacated (middle.tree.spot_ne_own_temporary output).symm⟩

theorem written_of_ends_write : after.tree.Written output := by
  obtain ⟨⟨entries, standing⟩, nothing⟩ := file?_and_draft_of_ends_write ended
  exact ⟨by rw [isFile_eq, standing]; rfl, unfilled_of_none nothing⟩

theorem written_after_write {path : String} (jar : IsJar output) (pathJar : IsJar path)
    (written : before.tree.Written path) : after.tree.Written path := by
  have trail := takes_write.trail ended
  have keeps := trail.keeps_of_builds
  constructor
  · exact trail.isFile_of_builds (fun other listed => listed ▸ jar) pathJar written.present
  · rw [keeps.spot_eq]
    by_cases shared : before.tree.spot (temporary path) = before.tree.spot (temporary output)
    · rw [shared, ← keeps.spot_eq]
      exact (written_of_ends_write ended).noDraft
    · refine keeps.unfilled ?_ written.noDraft
      rintro ⟨_, rfl | ⟨_, rfl, rfl⟩, same⟩
      · exact before.tree.spot_ne_temporary jar pathJar same
      · exact shared same.symm

end

end ArchiveWriter

end JarRemap
