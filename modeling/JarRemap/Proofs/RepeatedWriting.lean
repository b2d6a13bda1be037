import JarRemap.Proofs.ArchiveWriting

/-!
# Writing the same again

The entries of an archive that is written are known beforehand, from its classes and from the entries that are
copied: `compose` gives them. Where an archive was written once, it can be written again, as long as no
directory has come in the way: the directories that lead there stay, and need not be made again.
-/
namespace JarRemap

open FileM FileTree FileStep List JarRemap.Path Outcome

variable {touched : Set Place} {second : FileTree}

open Session

section folders

variable {tree : FileTree} {path : String} {place : Place} {before after : Session}

namespace FileTree

theorem placeOf_of_locate (found : tree.locate path = .ok place) : tree.placeOf path = .ok place := by
  obtain ⟨accepted, followed⟩ := walk_eq_ok.mp found
  rw [foldlM_append] at followed
  cases reached : (parts path).foldlM tree.follow (tree.start path) with
  | error fault =>
    rw [reached] at followed
    cases followed
  | ok spot =>
    have led : tree.placeOf path = .ok spot := walk_eq_ok.mpr ⟨accepted, reached⟩
    rw [led, placeOf_eq_spot led, locate_eq_spot found]

theorem find_directory (led : tree.placeOf path = .ok place) (standing : tree.node? place = some .directory) :
    tree.find path = .ok .directory := by
  obtain ⟨accepted, followed⟩ := walk_eq_ok.mp led
  have named := placeOf_eq_spot led
  rw [find_eq_ok, ← named]
  refine ⟨walk_eq_ok.mpr ⟨accepted, ?_⟩, standing⟩
  rw [foldlM_append, followed]
  split
  · have stays : tree.follow place "." = .ok place := follow_eq_ok.mpr ⟨standing, by decide, by simp [turn]⟩
    simp [bind, Except.bind, stays, pure, Except.pure]
  · rfl

end FileTree

namespace FileM

theorem isDirectory_of_ends_makeDirectory (ended : (makeDirectory path).Ends before (.ok ()) after) :
    after.tree.isDirectory path = true := by
  rw [makeDirectory, ends_tree_bind, ends_ofFault_bind] at ended
  rcases ended with ⟨_, _, failed, _⟩ | ⟨place, led, ended⟩
  · cases failed
  split at ended
  case h_1 => cases (ends_fail.mp ended).1
  case h_2 nothing =>
    obtain ⟨_, rfl⟩ := ends_perform.mp ended
    have keeps := (Builds.makeDirectory nothing : Builds ∅ before.tree _).keeps
    have notRoot : place ≠ [] := ne_root_of_none nothing
    refine isDirectory_iff.mpr (find_directory (keeps.walk led) ?_)
    simp [apply, node?_put, notRoot]

theorem isDirectory_of_ends_makeOrKeepDirectory
    (ended : (makeOrKeepDirectory path).Ends before (.ok ()) after) : after.tree.isDirectory path = true := by
  rcases ends_tryCatch.mp ended with ⟨_, made, _⟩ | ⟨failure, middle, stopped, handled⟩
  · exact isDirectory_of_ends_makeDirectory made
  · rw [ends_tree_bind] at handled
    split at handled
    case isTrue there =>
      obtain ⟨_, rfl⟩ := ends_pure.mp handled
      exact there
    case isFalse => cases (ends_throw.mp handled).1

theorem ends_makeOrKeepDirectory (there : before.tree.isDirectory path = true) :
    (makeOrKeepDirectory path).Ends before (.ok ()) before := by
  obtain ⟨led, standing⟩ := find_eq_ok.mp (isDirectory_iff.mp there)
  refine ends_tryCatch.mpr (.inr ⟨.of (.file .alreadyExists), before, ?_, ?_⟩)
  · rw [makeDirectory, ends_tree_bind, ends_ofFault_bind]
    refine .inr ⟨_, placeOf_of_locate led, ?_⟩
    rw [standing]
    exact ends_fail.mpr ⟨rfl, rfl⟩
  · rw [ends_tree_bind, if_pos there]
    exact ends_pure.mpr ⟨rfl, rfl⟩

theorem isDirectory_of_ends_makeLineage {above : List String}
    (ended : (makeLineage (path :: above)).Ends before (.ok ()) after) : after.tree.isDirectory path = true := by
  rcases ends_tryCatch.mp ended with ⟨_, made, _⟩ | ⟨failure, middle, stopped, handled⟩
  · exact isDirectory_of_ends_makeOrKeepDirectory made
  · split at handled
    · obtain ⟨_, _, _, made⟩ := ends_bind_ok.mp handled
      exact isDirectory_of_ends_makeOrKeepDirectory made
    · cases (ends_throw.mp handled).1

theorem lineage_cases (path : String) : lineage path = [] ∨ ∃ above, lineage path = path :: above := by
  rw [lineage]
  split
  · exact .inl rfl
  · exact .inr ⟨_, rfl⟩

end FileM

namespace ArchiveWriter

variable {output : String}

def HasFolder (tree : FileTree) (output : String) : Prop :=
  ∀ directory, parent? output = some directory →
    lineage directory = [] ∨ tree.isDirectory directory = true

theorem HasFolder.keeps (folder : HasFolder tree output) (keeps : Keeps touched tree second) :
    HasFolder second output := by
  intro directory above
  rcases folder directory above with none | there
  · exact .inl none
  · have found := keeps.find (isDirectory_iff.mp there) fun content same => by cases same
    exact .inr (isDirectory_iff.mpr found)

theorem hasFolder_of_ends_makeFolder (ended : (makeFolder output).Ends before (.ok ()) after) :
    HasFolder after.tree output := by
  intro directory above
  rw [makeFolder, above] at ended
  have made := ends_within_ok.mp ended
  rcases lineage_cases directory with none | ⟨higher, listed⟩
  · exact .inl none
  · rw [makeDirectories, listed] at made
    exact .inr (isDirectory_of_ends_makeLineage made)

theorem ends_makeFolder (folder : HasFolder before.tree output) : (makeFolder output).Ends before (.ok ()) before := by
  rw [makeFolder]
  split
  case h_2 => exact ends_pure.mpr ⟨rfl, rfl⟩
  case h_1 directory above =>
    refine ends_within_ok.mpr ?_
    rw [makeDirectories]
    rcases lineage_cases directory with none | ⟨higher, listed⟩
    · rw [none]
      exact ends_pure.mpr ⟨rfl, rfl⟩
    · rw [listed]
      rcases folder directory above with none | there
      · rw [none] at listed
        cases listed
      · exact ends_tryCatch.mpr (.inl ⟨(), ends_makeOrKeepDirectory there, rfl⟩)

end ArchiveWriter

end folders

section composing

variable {place other : Place} {before after : Session} {entries more : List ArchiveEntry}

namespace Session

variable (session : Session)

/-- The session after some entries have been added to the archive that is being written at a place. -/
def extended (session : Session) (place : Place) (entries : List ArchiveEntry) : Session :=
  entries.foldl (fun session entry => session.advance (.extend place entry)) session

theorem extended_append (place : Place) (entries more : List ArchiveEntry) :
    session.extended place (entries ++ more) = (session.extended place entries).extended place more :=
  foldl_append

@[simp] theorem workingPlace_extended (place : Place) (entries : List ArchiveEntry) :
    (session.extended place entries).tree.workingPlace = session.tree.workingPlace := by
  induction entries generalizing session with
  | nil => rfl
  | cons entry entries ih =>
    change ((session.advance (.extend place entry)).extended place entries).tree.workingPlace = _
    rw [ih, advance_tree, workingPlace_apply]

theorem node?_extended_other (entries : List ArchiveEntry) (different : other ≠ place) :
    (session.extended place entries).tree.node? other = session.tree.node? other := by
  induction entries generalizing session with
  | nil => rfl
  | cons entry entries ih =>
    change ((session.advance (.extend place entry)).extended place entries).tree.node? other = _
    rw [ih, advance_tree, node?_apply_other (by simpa [places] using different)]

theorem node?_extended_unfinished {session : Session} {earlier : List ArchiveEntry}
    (begun : session.tree.node? place = some (.file (.unfinished earlier))) (entries : List ArchiveEntry) :
    (session.extended place entries).tree.node? place = some (.file (.unfinished (entries.reverse ++ earlier))) := by
  induction entries generalizing session earlier with
  | nil => exact begun
  | cons entry entries ih =>
    have notRoot : place ≠ [] := ne_root_of_file begun
    have grown : (session.advance (.extend place entry)).tree.node? place =
        some (.file (.unfinished (entry :: earlier))) := by
      rw [advance_tree, apply, begun]
      simp [node?_put, notRoot]
    rw [reverse_cons, append_assoc]
    exact ih grown

theorem node?_extend_empty (begun : before.tree.node? place = some (.file (.bytes []))) (entry : ArchiveEntry) :
    (before.advance (.extend place entry)).tree.node? place = some (.file (.unfinished [entry])) := by
  have notRoot : place ≠ [] := ne_root_of_file begun
  rw [advance_tree, apply, begun]
  simp [node?_put, notRoot]

/-- A file that was just begun is complete once its entries have been added and it is finished. -/
theorem node?_finish_extended (begun : before.tree.node? place = some (.file (.bytes [])))
    (entries : List ArchiveEntry) : ((before.extended place entries).advance (.finish place)).tree.node? place =
      some (.file (.archive entries)) := by
  have notRoot : place ≠ [] := ne_root_of_file begun
  -- A file that was just begun is no unfinished archive before its first entry.
  cases entries with
  | nil =>
    change ((finish place).apply before.tree).node? place = _
    rw [apply, begun]
    simp [node?_put, notRoot]
  | cons entry entries =>
    change ((finish place).apply
      ((before.advance (.extend place entry)).extended place entries).tree).node? place = _
    rw [apply, node?_extended_unfinished (node?_extend_empty begun entry)]
    simp [node?_put, notRoot]

theorem keeps_extended {content : FileContent} (begun : before.tree.node? place = some (.file content))
    (entries : List ArchiveEntry) : Keeps {place} before.tree (before.extended place entries).tree := by
  refine keeps_of_others (workingPlace_extended before place entries) (by simp [begun]) ?_
  exact fun other different => node?_extended_other before entries different

end Session

namespace ArchiveWriter

variable {writer : ArchiveWriter} {classes : List ClassEntry} {source : String} {taken names : List String}
  {copied entries : List ArchiveEntry} {items : List (String × Outcome ArchiveEntry)}

/-- Takes entries in order, as long as no name is taken twice. -/
def collect : (taken : List String) → List (String × Outcome ArchiveEntry) → Outcome (List ArchiveEntry)
  | _, [] => .ok []
  | taken, (name, entry) :: rest =>
    if taken.contains name then fail (.duplicateEntry name)
    else do
      let entry ← entry
      let others ← collect (name :: taken) rest
      return entry :: others

def classItems (classes : List ClassEntry) : List (String × Outcome ArchiveEntry) :=
  classes.map fun entry => (entry.path, .ok (classEntry entry))

/-- The entries of another archive that are not left out, with the content that they get. -/
def copiedItems (writer : ArchiveWriter) (copied : List ArchiveEntry) : List (String × Outcome ArchiveEntry) :=
  (copied.filter fun entry => !writer.skips entry).map fun entry =>
    (entry.name, do
      let data ← writer.contentOf entry
      return { entry with data })

/-- The entries of the archive that is written from classes and from the entries of another archive. -/
def compose (writer : ArchiveWriter) (classes : List ClassEntry) (copied : List ArchiveEntry) :
    Outcome (List ArchiveEntry) :=
  collect [] (classItems classes ++ writer.copiedItems copied)

theorem collect_append (taken : List String) (items others : List (String × Outcome ArchiveEntry)) :
    collect taken (items ++ others) = (do
      let first ← collect taken items
      let second ← collect ((items.map Prod.fst).reverse ++ taken) others
      return first ++ second) := by
  induction items generalizing taken with
  | nil => exact (bind_pure _).symm
  | cons item items ih =>
    rw [cons_append, collect, collect]
    split
    · rfl
    · simp [ih]

theorem collect_append_eq_ok {others : List (String × Outcome ArchiveEntry)} :
    collect taken (items ++ others) = .ok entries ↔ ∃ first second, collect taken items = .ok first ∧
        collect ((items.map Prod.fst).reverse ++ taken) others = .ok second ∧ entries = first ++ second := by
  simp only [collect_append, bind_eq_ok, pure_eq_ok, exists_and_left, @eq_comm _ entries]

theorem ends_addEntry_ok {name : String} {entry : Outcome ArchiveEntry} :
    (addEntry place taken name entry).Ends before (.ok names) after ↔
      taken.contains name = false ∧ names = name :: taken ∧
        ∃ added, entry = .ok added ∧ after = before.advance (.extend place added) := by
  rw [addEntry]
  split
  case isTrue held =>
    rw [held]
    simp
  case isFalse new =>
    rw [ends_lift_bind_ok]
    simp only [ends_bind_ok, ends_perform, ends_pure, Except.ok.injEq]
    constructor
    · rintro ⟨added, given, _, _, ⟨_, rfl⟩, rfl, rfl⟩
      exact ⟨by simpa using new, rfl, added, given, rfl⟩
    · rintro ⟨_, rfl, added, given, rfl⟩
      exact ⟨added, given, (), _, ⟨trivial, rfl⟩, rfl, rfl⟩

theorem ends_foldlM_addEntry_ok :
    (items.foldlM (fun taken item => addEntry place taken item.1 item.2) taken).Ends before (.ok names) after ↔
      names = (items.map Prod.fst).reverse ++ taken ∧
        ∃ entries, collect taken items = .ok entries ∧ after = before.extended place entries := by
  induction items generalizing taken before with
  | nil => simp [collect, extended, eq_comm]
  | cons item items ih =>
    obtain ⟨name, entry⟩ := item
    rw [foldlM_cons, ends_bind_ok, collect]
    simp only [ends_addEntry_ok, ih]
    constructor
    · rintro ⟨_, _, ⟨new, rfl, added, given, rfl⟩, rfl, entries, collected, rfl⟩
      refine ⟨by simp, added :: entries, ?_, rfl⟩
      rw [new, given]
      simp [bind, Except.bind, collected, pure, Except.pure]
    · rintro ⟨rfl, _, gathered, rfl⟩
      split at gathered
      · simp at gathered
      · rename_i new
        simp only [bind_eq_ok, pure_eq_ok] at gathered
        obtain ⟨added, given, entries, collected, rfl⟩ := gathered
        exact ⟨name :: taken, _, ⟨by simpa using new, rfl, added, given, rfl⟩, by simp, entries, collected, rfl⟩

section filling

variable {content : FileContent}

theorem fillEntries_eq (writer : ArchiveWriter) (place : Place) (classes : List ClassEntry) (source : String) :
    writer.fillEntries place classes source =
      ((classItems classes).foldlM (fun taken item => addEntry place taken item.1 item.2) [] >>= fun taken =>
        openPath source >>= fun file => within (.openAsArchive source) (archiveEntries file) >>= fun copied =>
        (writer.copiedItems copied).foldlM (fun taken item => addEntry place taken item.1 item.2) taken) := by
  simp only [fillEntries, classItems, copiedItems, foldlM_map]

/-- While classes are added, the archive that entries are copied from stays as it is, if it is another file. -/
theorem find_extended (found : before.tree.file? source = some content)
    (begun : ∃ draft, before.tree.node? place = some (.file draft)) (apart : before.tree.spot source ≠ place)
    (entries : List ArchiveEntry) : (before.extended place entries).tree.find source = .ok (.file content) := by
  obtain ⟨draft, begun⟩ := begun
  exact (keeps_extended begun entries).find (file?_eq_some.mp found) fun _ _ => apart

/-- What is being written is no archive yet, so the entries are copied from another file. -/
theorem composed_of_ends_fillEntries (begun : before.tree.node? place = some (.file (.bytes [])))
    (ended : (writer.fillEntries place classes source).Ends before (.ok names) after) :
    ∃ copied entries content, writer.compose classes copied = .ok entries ∧
      after = before.extended place entries ∧ before.tree.spot source ≠ place ∧
      before.tree.node? (before.tree.spot source) = some (.file content) ∧ content.entries? = some copied := by
  simp only [fillEntries_eq, ends_bind_ok, ends_foldlM_addEntry_ok, ends_openPath_ok,
    ends_within_ok, ends_archiveEntries_ok] at ended
  obtain ⟨_, _, ⟨rfl, first, collected, rfl⟩, _, _, ⟨read, rfl⟩, copied, _, ⟨⟨content, rfl, held⟩, rfl⟩, rfl,
    second, added, rfl⟩ := ended
  have standing := (find_eq_ok.mp read).2
  rw [spot_congr (workingPlace_extended _ _ _)] at standing
  have apart : before.tree.spot source ≠ place := by
    intro same
    rw [same] at standing
    cases first with
    | nil =>
      obtain rfl := FileNode.file.inj (Option.mem_unique begun standing)
      simp [FileContent.entries?, FileContent.emptyArchive] at held
    | cons entry first =>
      have grown := node?_extended_unfinished (node?_extend_empty begun entry) first
      obtain rfl := FileNode.file.inj (Option.mem_unique grown standing)
      cases held
  rw [node?_extended_other before first apart] at standing
  exact ⟨copied, first ++ second, content, collect_append_eq_ok.mpr ⟨first, second, collected, added, rfl⟩,
    (extended_append _ _ _ _).symm, apart, standing, held⟩

/-- An archive is filled with the entries that are composed for it, if the one that entries are copied from is
another file. -/
theorem exists_ends_fillEntries (found : before.tree.file? source = some content)
    (begun : ∃ draft, before.tree.node? place = some (.file draft)) (apart : before.tree.spot source ≠ place)
    (held : content.entries? = some copied) (composed : writer.compose classes copied = .ok entries) :
    ∃ names, (writer.fillEntries place classes source).Ends before (.ok names) (before.extended place entries) := by
  simp only [fillEntries_eq, ends_bind_ok, ends_foldlM_addEntry_ok, ends_openPath_ok,
    ends_within_ok, ends_archiveEntries_ok]
  obtain ⟨first, second, collected, added, rfl⟩ := collect_append_eq_ok.mp composed
  exact ⟨_, _, _, ⟨rfl, first, collected, rfl⟩, _, _, ⟨find_extended found begun apart first, rfl⟩, copied, _,
    ⟨⟨_, rfl, held⟩, rfl⟩, rfl, second, added, extended_append _ _ _ _⟩

end filling

end ArchiveWriter

end composing

section placing

variable {before after : Session} {output source : String} {entries : List ArchiveEntry} {place other : Place}

namespace Session

/-- The session after an archive was written to a place. -/
def drafted (session : Session) (place : Place) (entries : List ArchiveEntry) : Session :=
  ((session.advance (.create place)).extended place entries).advance (.finish place)

theorem node?_drafted (free : before.tree.node? place ≠ some .directory) (entries : List ArchiveEntry) :
    (before.drafted place entries).tree.node? place = some (.file (.archive entries)) :=
  node?_finish_extended (node?_create free) entries

theorem node?_drafted_other (different : other ≠ place) (entries : List ArchiveEntry) :
    (before.drafted place entries).tree.node? other = before.tree.node? other := by
  have unnamed : other ∉ [place] := by simpa using different
  rw [drafted, advance_tree, node?_apply_other unnamed, node?_extended_other _ entries different,
    advance_tree, node?_apply_other unnamed]

theorem keeps_create (free : before.tree.node? place ≠ some .directory) :
    Keeps {place} before.tree (before.advance (.create place)).tree :=
  keeps_of_others (workingPlace_apply _ _) free fun _ different =>
    node?_apply_other (by simpa [places] using different)

theorem keeps_drafted (free : before.tree.node? place ≠ some .directory) (entries : List ArchiveEntry) :
    Keeps {place} before.tree (before.drafted place entries).tree := by
  refine keeps_of_others ?_ free fun other different => node?_drafted_other different entries
  rw [drafted, advance_tree, workingPlace_apply, workingPlace_extended, advance_tree, workingPlace_apply]

/-- The session after an archive was written under its temporary name and moved to its path. -/
def placed (session : Session) (output : String) (entries : List ArchiveEntry) : Session :=
  (session.drafted (session.tree.spot (temporary output)) entries).advance
    (.rename (session.tree.spot (temporary output)) (session.tree.spot output))

theorem workingPlace_placed (session : Session) (output : String) (entries : List ArchiveEntry) :
    (session.placed output entries).tree.workingPlace = session.tree.workingPlace := by
  simp only [placed, drafted, advance_tree, workingPlace_apply, workingPlace_extended]

theorem node?_placed_other (final : other ≠ before.tree.spot output)
    (draft : other ≠ before.tree.spot (temporary output)) (entries : List ArchiveEntry) :
    (before.placed output entries).tree.node? other = before.tree.node? other := by
  rw [placed, advance_tree, node?_apply_other (by simp [places, final, draft]), node?_drafted_other draft entries]

end Session

namespace ArchiveWriter

variable {writer : ArchiveWriter} {classes : List ClassEntry} {copied : List ArchiveEntry} {content : FileContent}
  {draft : Place}

/-- No directory stands where an output is written, nor where its temporary file is. -/
structure Clear (tree : FileTree) (output : String) : Prop where
  final : tree.node? (tree.spot output) ≠ some .directory
  draft : tree.node? (tree.spot (temporary output)) ≠ some .directory

theorem Clear.not_directory_placed (clear : Clear before.tree output)
    (entries : List ArchiveEntry) (noDirectory : before.tree.node? other ≠ some .directory) :
    (before.placed output entries).tree.node? other ≠ some .directory := by
  have different := before.tree.spot_ne_own_temporary output
  have free : (before.drafted (before.tree.spot (temporary output)) entries).tree.node?
      (before.tree.spot output) ≠ some .directory := by
    rw [node?_drafted_other different]
    exact clear.final
  have moved := node?_rename (node?_drafted clear.draft entries) free
  by_cases final : other = before.tree.spot output
  · rw [final, placed, advance_tree, moved.1]
    simp
  by_cases draft : other = before.tree.spot (temporary output)
  · rw [draft, placed, advance_tree, moved.2 different.symm]
    simp
  · rwa [node?_placed_other final draft]

theorem Clear.placed (clear : Clear before.tree output) (entries : List ArchiveEntry)
    (others : Clear before.tree path) : Clear (before.placed output entries).tree path where
  final := by
    rw [spot_congr (workingPlace_placed before output entries)]
    exact clear.not_directory_placed entries others.final
  draft := by
    rw [spot_congr (workingPlace_placed before output entries)]
    exact clear.not_directory_placed entries others.draft

section

variable (free : before.tree.node? draft ≠ some .directory) (found : before.tree.file? source = some content)
  (apart : before.tree.spot source ≠ draft)
include free found apart

theorem file?_create : (before.advance (.create draft)).tree.file? source = some content :=
  file?_eq_some.mpr ((keeps_create free).find (file?_eq_some.mp found) fun _ _ => apart)

theorem ends_draft (held : content.entries? = some copied) (composed : writer.compose classes copied = .ok entries) :
    (writer.writeEntries draft classes source).Ends (before.advance (.create draft)) (.ok ())
      (before.drafted draft entries) := by
  obtain ⟨names, filled⟩ := exists_ends_fillEntries (file?_create free found apart)
    ⟨_, node?_create free⟩ (by rwa [(keeps_create free).spot_eq]) held composed
  rw [writeEntries_eq]
  exact ends_bind_ok.mpr ⟨names, _, filled, ends_perform.mpr ⟨rfl, rfl⟩⟩

end

theorem composed_of_ends_draft (free : before.tree.node? draft ≠ some .directory)
    (ended : (writer.writeEntries draft classes source).Ends (before.advance (.create draft)) (.ok ()) after) :
    ∃ copied entries content, writer.compose classes copied = .ok entries ∧ after = before.drafted draft entries ∧
      before.tree.node? (before.tree.spot source) = some (.file content) ∧ content.entries? = some copied := by
  rw [writeEntries_eq] at ended
  obtain ⟨names, middle, filled, finished⟩ := ends_bind_ok.mp ended
  obtain ⟨copied, entries, content, composed, rfl, apart, standing, held⟩ :=
    composed_of_ends_fillEntries (node?_create free) filled
  refine ⟨copied, entries, content, composed, (ends_perform.mp finished).2, ?_, held⟩
  rw [(keeps_create free).spot_eq] at apart standing
  exact ((keeps_create free).files _ apart content).mp standing

/-- Where there are ways and no directory, an archive whose entries can be composed is put in its place. -/
theorem ends_writeAndMove_placed (ways : Ways before.tree (temporary output) output) (clear : Clear before.tree output)
    (found : before.tree.file? source = some content)
    (apart : before.tree.spot source ≠ before.tree.spot (temporary output))
    (held : content.entries? = some copied) (composed : writer.compose classes copied = .ok entries) :
    (writer.writeAndMove output classes source).Ends before (.ok ()) (before.placed output entries) := by
  have drafts := keeps_drafted clear.draft entries
  have movable : Movable (before.drafted (before.tree.spot (temporary output)) entries).tree
      (temporary output) output := by
    refine ⟨ways.keeps drafts, ?_, ?_⟩
    · rw [drafts.spot_eq, node?_drafted clear.draft]
      exact ⟨_, rfl⟩
    · rw [drafts.spot_eq, node?_drafted_other (before.tree.spot_ne_own_temporary output)]
      exact clear.final
  have moved := movable.ends
  rw [drafts.spot_eq, drafts.spot_eq] at moved
  exact ends_bind_ok.mpr ⟨_, _, ends_create_ok.mpr ⟨ways.noSlash.1, ways.sourceLed, clear.draft, rfl⟩,
    ends_bind_ok.mpr ⟨(), _, ends_draft clear.draft found apart held composed, moved⟩⟩

theorem composed_of_ends_writeAndMove (ended : (writer.writeAndMove output classes source).Ends before (.ok ()) after) :
    ∃ copied entries content, writer.compose classes copied = .ok entries ∧
      Ways after.tree (temporary output) output ∧ after.tree.file? output = some (.archive entries) ∧
      before.tree.node? (before.tree.spot source) = some (.file content) ∧ content.entries? = some copied := by
  obtain ⟨_, begun, created, ended⟩ := ends_bind_ok.mp ended
  obtain ⟨_, led, free, rfl⟩ := ends_create_ok.mp created
  obtain rfl := placeOf_eq_spot led
  obtain ⟨_, drafted, filled, ended⟩ := ends_bind_ok.mp ended
  obtain ⟨copied, entries, content, composed, rfl, copies⟩ := composed_of_ends_draft free filled
  rcases ends_rename ended with ⟨_, movable, rfl⟩ | ⟨⟨_, failed⟩, _⟩
  · have complete : (before.drafted (before.tree.spot (temporary output)) entries).tree.node?
        ((before.drafted (before.tree.spot (temporary output)) entries).tree.spot (temporary output)) =
          some (.file (.archive entries)) := by
      rw [(keeps_drafted free entries).spot_eq, node?_drafted free]
    have keeps := (Builds.move (Set.mem_singleton output) complete movable.free).keeps
    exact ⟨copied, entries, content, composed, movable.toWays.keeps keeps, file?_of_movable movable complete, copies⟩
  · cases failed

/-- All directories that an output needs are there. -/
structure Writable (tree : FileTree) (output : String) : Prop where
  folder : HasFolder tree output
  ways : Ways tree (temporary output) output

theorem Writable.keeps {first : FileTree} (writable : Writable first output)
    (keeps : Keeps touched first second) : Writable second output :=
  ⟨writable.folder.keeps keeps, writable.ways.keeps keeps⟩

/-- Where all directories are there and none is in the way, an archive whose entries can be composed is
written. -/
theorem Writable.ends_write (writable : Writable before.tree output)
    (clear : Clear before.tree output) (found : before.tree.file? source = some content)
    (apart : before.tree.spot source ≠ before.tree.spot (temporary output))
    (held : content.entries? = some copied) (composed : writer.compose classes copied = .ok entries) :
    (writer.write output classes source).Ends before (.ok ()) (before.placed output entries) := by
  have placed := ends_writeAndMove_placed writable.ways clear found apart held composed
  rw [write_eq]
  exact ends_bind_ok.mpr ⟨(), before, ends_makeFolder writable.folder, ends_writeOrDiscard_ok.mpr placed⟩

theorem composed_of_ends_write (ended : (writer.write output classes source).Ends before (.ok ()) after) :
    ∃ copied entries content, writer.compose classes copied = .ok entries ∧ Writable after.tree output ∧
      after.tree.file? output = some (.archive entries) ∧
      before.tree.node? (before.tree.spot source) = some (.file content) ∧ content.entries? = some copied := by
  rw [write_eq] at ended
  obtain ⟨_, middle, made, ended⟩ := ends_bind_ok.mp ended
  have trail : Trail (Drafts ∅) before middle := (takes_makeFolder output).trail made
  have makes := trail.keeps_of_drafts
  have moved := ends_writeOrDiscard_ok.mp ended
  obtain ⟨copied, entries, content, composed, ways, standing, read, held⟩ := composed_of_ends_writeAndMove moved
  have folder := (hasFolder_of_ends_makeFolder made).keeps (takes_writeAndMove.trail moved).keeps_of_builds
  rw [makes.spot_eq] at read
  exact ⟨copied, entries, content, composed, ⟨folder, ways⟩, standing, (makes.files _ (by simp) _).mp read, held⟩

end ArchiveWriter

end placing

end JarRemap
