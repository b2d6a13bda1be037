import JarRemap.Proofs.ExpectedOutputs
import JarRemap.Proofs.MemberSearch
import JarRemap.Proofs.TableRemapping

/-!
# The classes of a remapped archive

Remapping an archive to a target takes each of its classes to one entry of the archive that is written. The
class gets its new name, and the entry follows it if its path ended in the old one. No class is lost and none is
added, and two of them that would come to the same path are found out by the writer.
-/
namespace JarRemap

open Session FileM List Outcome ArchiveWriter ClassEntry ClassFile Text

namespace ClassEntry

variable {table : MappingTable} {entry before after later : ClassEntry} {path folder oldName newName : String}

/-- What can stand in front of the name of a class in a path: nothing, or directories. -/
def IsFolder (text : String) : Prop := text = "" ∨ text.toList.getLast? = some '/'

theorem strip_of_folder (folder name : String) :
    (stripEnd? ".class" (folder ++ name ++ ".class")).bind (stripEnd? name) = some folder := by
  have first : dropEnd? ".class".toList (folder ++ name ++ ".class").toList = some (folder ++ name).toList :=
    dropEnd?_eq_some.mpr String.toList_append
  have second : dropEnd? name.toList (folder ++ name).toList = some folder.toList :=
    dropEnd?_eq_some.mpr String.toList_append
  rw [stripEnd?, first, Option.map_some, String.ofList_toList, Option.bind_some, stripEnd?, second,
    Option.map_some, String.ofList_toList]

theorem eq_of_strip (stripped : (stripEnd? ".class" path).bind (stripEnd? oldName) = some folder) :
    path = folder ++ oldName ++ ".class" := by
  obtain ⟨stem, cut, rest⟩ := Option.bind_eq_some_iff.mp stripped
  obtain ⟨front, dropped, rfl⟩ := Option.map_eq_some_iff.mp cut
  obtain ⟨above, droppedName, rfl⟩ := Option.map_eq_some_iff.mp rest
  rw [String.toList_ofList] at droppedName
  apply String.toList_inj.mp
  rw [dropEnd?_eq_some.mp dropped, dropEnd?_eq_some.mp droppedName]
  simp

theorem renamedPath_of_folder (isFolder : IsFolder folder) :
    renamedPath (folder ++ oldName ++ ".class") oldName newName = folder ++ newName ++ ".class" := by
  rw [renamedPath, strip_of_folder]
  exact if_pos (by simpa [IsFolder] using isFolder)

theorem renamedPath_of_other (other : ∀ folder, IsFolder folder → path ≠ folder ++ oldName ++ ".class") :
    renamedPath path oldName newName = path := by
  rw [renamedPath]
  split
  case h_1 above stripped =>
    apply if_neg
    intro isFolder
    exact other above (by simpa [IsFolder] using isFolder) (eq_of_strip stripped)
  case h_2 => rfl

/-- The path at which a table puts the entry: after the directories of the entry and the new name of its class,
if the path of the entry is made of directories and the old name. -/
def MovesTo (table : MappingTable) (entry : ClassEntry) (path : String) : Prop :=
  ∃ file name, read entry.bytes = .ok file ∧ file.name = .ok name ∧
    (∀ folder, IsFolder folder → entry.path = folder ++ name ++ ".class" →
      path = folder ++ table.className name ++ ".class") ∧
    ((∀ folder, IsFolder folder → entry.path ≠ folder ++ name ++ ".class") → path = entry.path)

theorem MovesTo.unique {other : String} (moves : entry.MovesTo table path) (movesToo : entry.MovesTo table other) :
    path = other := by
  obtain ⟨file, name, read, named, follows, stays⟩ := moves
  obtain ⟨again, nameAgain, readAgain, namedAgain, followsToo, staysToo⟩ := movesToo
  obtain rfl := Outcome.unique read readAgain
  obtain rfl := Outcome.unique named namedAgain
  by_cases placed : ∃ folder, IsFolder folder ∧ entry.path = folder ++ name ++ ".class"
  · obtain ⟨folder, isFolder, spelled⟩ := placed
    rw [follows folder isFolder spelled, followsToo folder isFolder spelled]
  · have elsewhere : ∀ folder, IsFolder folder → entry.path ≠ folder ++ name ++ ".class" :=
      fun folder isFolder spelled => placed ⟨folder, isFolder, spelled⟩
    rw [stays elsewhere, staysToo elsewhere]

theorem movesTo_renamedPath {file : ClassFile} (read : read entry.bytes = .ok file) (named : file.name = .ok oldName) :
    entry.MovesTo table (renamedPath entry.path oldName (table.className oldName)) := by
  refine ⟨file, oldName, read, named, ?_, fun other => renamedPath_of_other other⟩
  intro folder isFolder spelled
  rw [spelled, renamedPath_of_folder isFolder]

theorem MovesTo.isClassPath (moves : entry.MovesTo table path) (isClass : isClassPath entry.path = true) :
    isClassPath path = true := by
  obtain ⟨file, name, _, _, follows, stays⟩ := moves
  by_cases placed : ∃ folder, IsFolder folder ∧ entry.path = folder ++ name ++ ".class"
  · obtain ⟨folder, isFolder, spelled⟩ := placed
    rw [follows folder isFolder spelled, JarRemap.isClassPath, stripEnd?, dropEnd?_eq_some.mpr String.toList_append]
    rfl
  · rwa [stays fun folder isFolder spelled => placed ⟨folder, isFolder, spelled⟩]

/-- An entry, and the one that a table makes of it. -/
structure Renamed (table : MappingTable) (before after : ClassEntry) : Prop where
  moved : before.MovesTo table after.path
  named : ∀ file name, read before.bytes = .ok file → file.name = .ok name →
    ¬ startsWith '[' name →
      ∃ new, read after.bytes = .ok new ∧ new.name = .ok (table.className name)
  modified : after.modified = before.modified

/-- Two entries at one path, with classes of one name. -/
structure SameClass (before after : ClassEntry) : Prop where
  path : after.path = before.path
  named : ∀ file, read before.bytes = .ok file →
    ∃ new, read after.bytes = .ok new ∧ new.name = file.name
  modified : after.modified = before.modified

theorem Renamed.sameClass (renamed : Renamed table before after) (same : after.SameClass later) :
    Renamed table before later where
  moved := by
    rw [same.path]
    exact renamed.moved
  named file name read named plain := by
    obtain ⟨new, readNew, namedNew⟩ := renamed.named file name read named plain
    obtain ⟨last, readLast, sameName⟩ := same.named new readNew
    exact ⟨last, readLast, sameName.trans namedNew⟩
  modified := same.modified.trans renamed.modified

end ClassEntry

theorem ConstantPool.className_congr {pool other : ConstantPool} (same : other.slots = pool.slots) (index : UInt16) :
    other.className index = pool.className index := by
  have held : ∀ index, other.constant? index = pool.constant? index := by
    intro index
    rw [constant?, constant?, same]
  have counted : other.count = pool.count := by rw [count, count, same]
  simp only [className, get, text, held, counted]

namespace PackageAccess

variable {files : List ClassFile} {names : List String} {sites : List AccessSite} {file : ClassFile} {index count : Nat}
  {classes after : List ClassEntry} {entry changed : ClassEntry}

theorem getElem?_publishMembers (members : List Member) (chosen : Nat → Bool) (position : Nat) :
    (publishMembers members chosen)[position]? = members[position]?.map fun member =>
      if chosen position then { member with access := AccessTransform.publish.apply member.access } else member := by
  simp [publishMembers, getElem?_zipIdx]
  rfl

theorem publish_of_absent (absent : ∀ site ∈ sites, site.index ≠ index) : publish file index sites = file := by
  have ofClass : AccessSite.ofClass index ∉ sites := fun listed => absent _ listed rfl
  have ofMember (kind : MemberKind) (position : Nat) : AccessSite.ofMember kind index position ∉ sites :=
    fun listed => absent _ listed rfl
  have kept (members : List Member) : publishMembers members (fun _ => false) = members := by
    apply ext_getElem?
    intro position
    simp [getElem?_publishMembers]
  simp [publish, ofClass, ofMember, kept]

theorem read_publishEntry (parsed : read entry.bytes = .ok file) (held : files[index]? = some file)
    (published : publishEntry (tableOf files names) sites entry index = .ok changed) :
    changed.path = entry.path ∧ changed.modified = entry.modified ∧ ∃ pool,
      read changed.bytes = .ok { publish file index sites with pool } ∧ pool.slots = file.pool.slots := by
  rw [publishEntry, getElem?_tableOf, held] at published
  split at published
  case isTrue =>
    simp only [bind_eq_ok, within_eq_ok, pure_eq_ok] at published
    obtain ⟨bytes, produced, rfl⟩ := published
    obtain ⟨constants, laidOut⟩ := (read_wellFormed parsed).laidOut
    exact ⟨rfl, rfl, read_of_toBytes laidOut produced⟩
  case isFalse unlisted =>
    cases published
    have absent : ∀ site ∈ sites, site.index ≠ index := by simpa using unlisted
    rw [publish_of_absent absent]
    exact ⟨rfl, rfl, file.pool, parsed, rfl⟩

theorem fix_eq_ok :
    fix classes = .ok (count, after) ↔ ∃ files names sites, Opened classes files ∧ AreNames files names ∧
      (tableOf files names).sites = .ok sites ∧
      (range classes.length).countP (fun index => sites.any (·.index = index)) = count ∧
      Forall₂ (fun item changed => publishEntry (tableOf files names) sites item.1 item.2 = .ok changed)
        classes.zipIdx after := by
  simp only [fix, bind_eq_ok, pure_eq_ok, mapM_eq_ok, Prod.mk.injEq, read_eq_ok]
  constructor
  · rintro ⟨_, ⟨files, names, opened, areNames, rfl⟩, sites, run, _, each, counted, rfl⟩
    exact ⟨files, names, sites, opened, areNames, run, counted, each⟩
  · rintro ⟨files, names, sites, opened, areNames, run, counted, each⟩
    exact ⟨_, ⟨files, names, opened, areNames, rfl⟩, sites, run, after, each, counted, rfl⟩

/-- What holds of each class that is written back holds of all. -/
theorem forall₂_of_published {R : ClassEntry → ClassEntry → Prop} (opened : Opened classes files)
    (each : Forall₂ (fun item changed => publishEntry (tableOf files names) sites item.1 item.2 = .ok changed)
      classes.zipIdx after)
    (step : ∀ entry file changed index, read entry.bytes = .ok file → files[index]? = some file →
      publishEntry (tableOf files names) sites entry index = .ok changed → R entry changed) :
    Forall₂ R classes after := by
  obtain ⟨lengths, published⟩ := forall₂_iff_get.mp each
  rw [length_zipIdx] at lengths
  refine forall₂_iff_get.mpr ⟨lengths, fun index inside insideAfter => ?_⟩
  have here := published index (by rwa [length_zipIdx]) insideAfter
  simp only [get_eq_getElem, getElem_zipIdx, Nat.zero_add] at here
  have held := getElem?_eq_getElem inside
  obtain ⟨file, fileHeld⟩ := forall₂_exists_getElem? opened held
  exact step _ file _ index (forall₂_getElem? opened held fileHeld) fileHeld here

/-- The repair of package access goes through the classes in order and keeps their paths and names. -/
theorem fix_sameClass (repaired : fix classes = .ok (count, after)) : Forall₂ SameClass classes after := by
  obtain ⟨files, names, sites, opened, _, _, _, each⟩ := fix_eq_ok.mp repaired
  refine forall₂_of_published opened each fun entry file changed index parsed held published => ?_
  obtain ⟨path, modified, pool, reparsed, slots⟩ := read_publishEntry parsed held published
  refine ⟨path, fun other read => ⟨_, reparsed, ?_⟩, modified⟩
  obtain rfl := Outcome.unique parsed read
  exact ConstantPool.className_congr slots _

end PackageAccess

theorem ClassEntry.sorted_perm (classes : List ClassEntry) : (sorted classes).Perm classes :=
  mergeSort_perm classes _

theorem ClassEntry.pairwise_sorted (classes : List ClassEntry) :
    (sorted classes).Pairwise fun first second => first.path ≤ second.path := by
  have ordered : (sorted classes).Pairwise fun first second => decide (first.path ≤ second.path) = true :=
    pairwise_mergeSort (fun first second third => by simpa using le_trans)
      (fun first second => by simpa using le_total _ _) classes
  exact ordered.imp of_decide_eq_true

namespace ArchiveWriter

variable {writer : ArchiveWriter} {taken : List String} {items : List (String × Outcome ArchiveEntry)}
  {classes : List ClassEntry} {copied entries : List ArchiveEntry}

theorem collect_eq_ok :
    collect taken items = .ok entries ↔ (items.map Prod.fst).Nodup ∧ (∀ name ∈ items.map Prod.fst, name ∉ taken) ∧
      Forall₂ (fun item entry => item.2 = .ok entry) items entries := by
  induction items generalizing taken entries with
  | nil => simp [collect, eq_comm]
  | cons item items ih =>
    obtain ⟨name, made⟩ := item
    rw [collect, map_cons, nodup_cons, forall_mem_cons, forall₂_cons_left_iff]
    split
    case isTrue held =>
      refine iff_of_false (by simp) ?_
      rintro ⟨_, ⟨free, _⟩, _⟩
      exact free (by simpa using held)
    case isFalse new =>
      simp only [bind_eq_ok, pure_eq_ok, ih]
      constructor
      · rintro ⟨entry, given, others, ⟨nodup, free, each⟩, rfl⟩
        refine ⟨⟨fun again => free name again (.head _), nodup⟩, ⟨by simpa using new, ?_⟩, entry, others, given,
          each, rfl⟩
        exact fun other listed held => free other listed (.tail _ held)
      · rintro ⟨⟨later, nodup⟩, ⟨_, free⟩, entry, others, given, each, rfl⟩
        refine ⟨entry, given, others, ⟨nodup, fun other listed held => ?_, each⟩, rfl⟩
        rcases mem_cons.mp held with rfl | held
        · exact later listed
        · exact free other listed held

/-- The names that entries get, if none is taken twice. -/
def namesOf (writer : ArchiveWriter) (classes : List ClassEntry) (copied : List ArchiveEntry) : List String :=
  classes.map path ++ (copied.filter fun entry => !writer.skips entry).map ArchiveEntry.name

theorem map_fst_items (writer : ArchiveWriter) (classes : List ClassEntry) (copied : List ArchiveEntry) :
    (classItems classes ++ writer.copiedItems copied).map Prod.fst = writer.namesOf classes copied := by
  simp [classItems, copiedItems, namesOf, Function.comp_def]

/-- The entries for classes come first, and the copies of the others follow. -/
theorem copies_of_compose (composed : writer.compose classes copied = .ok entries) :
    (writer.namesOf classes copied).Nodup ∧ ∃ copies, entries = classes.map classEntry ++ copies ∧
      Forall₂ (fun entry copy => ∃ data, writer.contentOf entry = .ok data ∧ { entry with data } = copy)
        (copied.filter fun entry => !writer.skips entry) copies := by
  obtain ⟨nodup, _, _⟩ := collect_eq_ok.mp composed
  rw [map_fst_items] at nodup
  obtain ⟨first, second, collected, added, rfl⟩ := collect_append_eq_ok.mp composed
  obtain ⟨_, _, made⟩ := collect_eq_ok.mp collected
  obtain ⟨_, _, copies⟩ := collect_eq_ok.mp added
  refine ⟨nodup, second, ?_, ?_⟩
  · have same : classes.map classEntry = first := by
      simpa [classItems, forall₂_map_left_iff, ← forall₂_eq_eq_eq] using made
    rw [same]
  · simpa only [copiedItems, forall₂_map_left_iff, bind_eq_ok, pure_eq_ok] using copies

theorem skips_of_forall₂ {Related : ArchiveEntry → ArchiveEntry → Prop} {copies : List ArchiveEntry}
    (related : Forall₂ Related (copied.filter fun entry => !writer.skips entry) copies)
    (named : ∀ entry copy, Related entry copy → copy.name = entry.name) :
    ∀ copy ∈ copies, writer.skips copy = false := by
  intro copy listed
  obtain ⟨place, held⟩ := mem_iff_getElem?.mp listed
  obtain ⟨entry, entryHeld⟩ := forall₂_exists_getElem? related.flip held
  have kept := (mem_filter.mp (mem_of_getElem? entryHeld)).2
  rw [Bool.not_eq_true'] at kept
  rwa [skips, ArchiveEntry.isDirectory, ArchiveEntry.isClass,
    named entry copy (forall₂_getElem? related entryHeld held)]

theorem isClass_of_skips {entry : ArchiveEntry} (kept : writer.skips entry = false) : entry.isClass = false := by
  rw [skips, Bool.or_eq_false_iff, Bool.or_eq_false_iff] at kept
  exact kept.1.2

end ArchiveWriter

namespace RemapEngine

variable {engine next : RemapEngine} {archive : LoadedArchive} {target output : String} {owners : Option InnerOwners}
  {table : MappingTable} {classpath : ClassHierarchy} {classes : List ClassEntry} {entry after : ClassEntry}

theorem renamed_of_remapEntry {hierarchies : List ClassHierarchy}
    (remapped : engine.remapEntry (table.inheritingRenamer hierarchies) target entry = .ok after) :
    Renamed table entry after := by
  simp only [remapEntry, bind_eq_ok, within_eq_ok, pure_eq_ok] at remapped
  obtain ⟨out, remapped, rfl⟩ := remapped
  obtain ⟨old, new, bootstraps, parsed, reparsed, _, named, renamed, file⟩ := remapClass_remapped remapped
  have newName : table.className out.oldName = out.newName := Except.ok.inj renamed
  rw [← newName]
  refine ⟨movesTo_renamedPath parsed named, fun again name read called plain => ?_, rfl⟩
  obtain rfl := Outcome.unique parsed read
  refine ⟨new, reparsed, ?_⟩
  obtain ⟨newName, mapped, written⟩ := file.className_eq called
  rw [Renamer.mapClassOrArray, if_neg plain] at mapped
  obtain rfl : table.className name = newName := Except.ok.inj mapped
  rw [ClassFile.name, file.classes.1, written]

/-- The classes that are written are those that the table makes of the classes of the archive, sorted. -/
theorem renamed_of_remapClasses (remapped : engine.remapClasses archive classpath target owners = .ok classes) :
    ∃ table renamed, engine.tableFor target owners = .ok table ∧
      Forall₂ (Renamed table) archive.image.classes renamed ∧ classes.Perm renamed ∧
      classes.Pairwise fun first second => first.path ≤ second.path := by
  simp only [remapClasses, bind_eq_ok] at remapped
  obtain ⟨table, resolved, moved, each, remapped⟩ := remapped
  have renamed := (mapM_eq_ok.mp each).imp fun _ _ => renamed_of_remapEntry
  have ordered := pairwise_sorted moved
  have reordered := sorted_perm moved
  split at remapped
  case isFalse =>
    obtain rfl := pure_eq_ok.mp remapped
    exact ⟨table, moved, resolved, renamed, reordered, ordered⟩
  case isTrue =>
    simp only [bind_eq_ok, within_eq_ok, pure_eq_ok, Prod.exists] at remapped
    obtain ⟨changes, fixed, repaired, rfl⟩ := remapped
    have same := PackageAccess.fix_sameClass repaired
    obtain ⟨settled, sameSettled, reorderedSettled⟩ := perm_comp_forall₂ reordered.symm same
    refine ⟨table, settled, resolved, ?_, reorderedSettled.symm, ?_⟩
    · refine (forall₂_comp renamed sameSettled).imp ?_
      rintro entry last ⟨moved, renamed, same⟩
      exact renamed.sameClass same
    · have paths := map_eq_of_forall₂ (same.imp fun _ _ => SameClass.path)
      exact pairwise_map.mp (paths ▸ pairwise_map.mpr ordered)

theorem trail_of_ends_remapTo_error {failure : Failure} {before after : Session}
    (ended : (engine.remapTo archive target output owners).Ends before (.error failure) after) :
    Trail (FileStep.Drafts {output}) before after := by
  rcases engine.reads_classpathHierarchy.ends_bind ended with ⟨_, _, _, rfl⟩ | ⟨classpath, _, ended⟩
  · exact .refl _
  rcases ends_bind.mp ended with ⟨_, refused, _⟩ | ⟨classes, middle, given, rest⟩
  · rw [(ends_lift.mp refused).2]
    exact .refl _
  rw [(ends_lift.mp given).2] at rest
  rcases (engine.reads_editorsFor archive target).ends_bind rest with ⟨_, _, _, rfl⟩ | ⟨editors, _, writing⟩
  · exact .refl _
  rcases ends_bind.mp writing with ⟨_, stopped, _⟩ | ⟨_, _, _, finished⟩
  · exact trail_of_ends_write_error stopped
  · cases (ends_pure.mp finished).1

/-- A hop that succeeds has written the classes that it remapped, and other entries that hold no class. -/
theorem classes_of_ends_remapTo {before after : Session}
    (ended : (engine.remapTo archive target output owners).Ends before (.ok next) after) :
    ∃ classpath classes others, engine.remapClasses archive classpath target owners = .ok classes ∧
      after.tree.file? output = some (.archive (classes.map ArchiveWriter.classEntry ++ others)) ∧
      (classes.map path).Nodup ∧ ∀ entry ∈ others, entry.isClass = false := by
  obtain ⟨classpath, classes, _, _, remapped, _, wrote, _⟩ := ends_remapTo_ok.mp ended
  obtain ⟨copied, entries, _, composed, _, standing, _⟩ := composed_of_ends_write wrote
  obtain ⟨nodup, others, rfl, copies⟩ := copies_of_compose composed
  refine ⟨classpath, classes, others, remapped, standing, (nodup_append.mp nodup).1, fun entry listed => ?_⟩
  exact isClass_of_skips
    (skips_of_forall₂ copies (fun _ _ ⟨_, _, same⟩ => same ▸ rfl) entry listed)

/-- Classes that move to different paths are entries of the archive in no other way than before. -/
theorem eq_of_movesTo {renamed : List ClassEntry} (related : Forall₂ (Renamed table) archive.image.classes renamed)
    (nodup : (renamed.map path).Nodup) {place other : Nat} {first second : ClassEntry} {path : String}
    (held : archive.image.classes[place]? = some first) (heldOther : archive.image.classes[other]? = some second)
    (moves : first.MovesTo table path) (movesOther : second.MovesTo table path) : place = other := by
  obtain ⟨after, afterHeld⟩ := forall₂_exists_getElem? related held
  obtain ⟨afterOther, afterOtherHeld⟩ := forall₂_exists_getElem? related heldOther
  have arrives := (forall₂_getElem? related held afterHeld).moved.unique moves
  have arrivesOther := (forall₂_getElem? related heldOther afterOtherHeld).moved.unique movesOther
  have inside : place < (renamed.map ClassEntry.path).length := by
    rw [length_map]
    exact (List.getElem?_eq_some_iff.mp afterHeld).1
  refine (getElem?_inj inside nodup).mp ?_
  rw [getElem?_map, getElem?_map, afterHeld, afterOtherHeld, Option.map_some, Option.map_some, arrives,
    arrivesOther]

/-- A hop that succeeds takes each class of the archive to one entry of the archive that it writes, and writes no
other classes. A class gets the name that the table of the hop gives it. The entry keeps the directories in front
of the name, and an entry whose path is not made of directories and the name stays where it is. The entries are
sorted by path, and no two have the same one.

A hop that fails leaves what is at the place of its output. It does so whenever two classes would come to the
same path. -/
theorem remapTo_moves_every_class (engine : RemapEngine) (archive : LoadedArchive) (target output : String)
    (owners : Option InnerOwners) (tree : FileTree) :
    (match (engine.remapTo archive target output owners).runOn tree with
    | (.ok _, last, _) => ∃ (table : MappingTable) (renamed written : List ClassEntry) (others : List ArchiveEntry),
        engine.tableFor target owners = .ok table ∧
        List.Forall₂ (ClassEntry.Renamed table) archive.image.classes renamed ∧ written.Perm renamed ∧
        written.Pairwise (fun first second => first.path < second.path) ∧
        last.file? output = some (.archive (written.map ArchiveWriter.classEntry ++ others)) ∧
        (∀ entry ∈ others, entry.isClass = false) ∧
        ((∀ entry ∈ archive.image.classes, isClassPath entry.path = true) →
          ∀ entry ∈ written, isClassPath entry.path = true)
    | (.error _, last, _) => ∀ content, last.node? (tree.spot output) = some (.file content) ↔
        tree.node? (tree.spot output) = some (.file content)) ∧
    ∀ (table : MappingTable) (place other : Nat) (first second : ClassEntry) (path : String),
      engine.tableFor target owners = .ok table → place ≠ other →
      archive.image.classes[place]? = some first → archive.image.classes[other]? = some second →
      first.MovesTo table path → second.MovesTo table path →
        ((engine.remapTo archive target output owners).runOn tree).1.isOk = false := by
  obtain ⟨outcome, after, ended⟩ := (engine.remapTo archive target output owners).exists_ends ⟨tree, []⟩
  rw [runOn_of_ends ended]
  cases outcome with
  | error failure =>
    refine ⟨fun content => ?_, fun _ _ _ _ _ _ _ _ _ _ _ _ => rfl⟩
    have keeps := (trail_of_ends_remapTo_error ended).keeps_of_drafts
    refine keeps.files (tree.spot output) ?_ content
    rintro ⟨_, ⟨named, listed, rfl⟩, meets⟩
    rw [Set.mem_singleton_iff.mp listed] at meets
    exact tree.spot_ne_own_temporary output meets.symm
  | ok next =>
    obtain ⟨classpath, written, others, remapped, standing, nodup, classless⟩ := classes_of_ends_remapTo ended
    obtain ⟨table, renamed, resolved, related, reordered, ordered⟩ := renamed_of_remapClasses remapped
    refine ⟨⟨table, renamed, written, others, resolved, related, reordered, ?_, standing, classless, ?_⟩, ?_⟩
    · have distinct := List.pairwise_map.mp nodup
      exact (ordered.and distinct).imp fun ⟨le, ne⟩ => lt_of_le_of_ne le ne
    · intro allClasses entry listed
      obtain ⟨place, held⟩ := List.mem_iff_getElem?.mp (reordered.subset listed)
      obtain ⟨before, beforeHeld⟩ := forall₂_exists_getElem? related.flip held
      have moved := (forall₂_getElem? related beforeHeld held).moved
      exact moved.isClassPath (allClasses before (List.mem_of_getElem? beforeHeld))
    · intro again place other first second path resolvedAgain different held heldOther moves movesOther
      obtain rfl := Except.ok.inj (resolved.symm.trans resolvedAgain)
      have distinct := (reordered.map ClassEntry.path).nodup_iff.mp nodup
      exact absurd (eq_of_movesTo related distinct held heldOther moves movesOther) different

/-- An engine that renames the class `A` to `p/B`, and no other. -/
def joiningEngine : RemapEngine :=
  .create ⟨"official", [(MappingTable.empty "official" "named").insertClass "A" "p/B"]⟩ (.ofToolchain .fabric) []

def joinedClass : Bytes := [0xca,0xfe,0xba,0xbe,0,0,0,52,0,3,1,0,3,112,47,66,7,0,1,0,0,0,2,0,0,0,0,
  0,0,0,0,0,0]

/-- An archive with the class `A` for two releases, and the class `p/B` for the second one of them. -/
def joiningArchive : LoadedArchive where
  role := "game"
  image := ⟨"game.jar", [⟨"A.class", sampleClass, none⟩, ⟨"META-INF/versions/9/A.class", sampleClass, none⟩,
    ⟨"META-INF/versions/9/p/B.class", joinedClass, none⟩]⟩
  hierarchy := .empty

/-- The archive with its first class alone. -/
def movedArchive : LoadedArchive :=
  { joiningArchive with image := ⟨"game.jar", joiningArchive.image.classes.take 1⟩ }

def movedTree : FileTree := FileTree.empty.put ["game.jar"] (.file (.archive []))

/-- Two classes come to the same path below one directory, so nothing is written. A class
that is alone is moved. -/
theorem remapTo_moves_every_class_joining :
    (∀ tree, ((joiningEngine.remapTo joiningArchive "named" "out.jar" none).runOn tree).1.isOk = false) ∧
    ∃ (engine : RemapEngine) (last : FileTree) (steps : List FileStep) (table : MappingTable)
      (renamed written : List ClassEntry) (others : List ArchiveEntry),
      (joiningEngine.remapTo movedArchive "named" "out.jar" none).runOn movedTree =
        (.ok engine, last, steps) ∧
      List.Forall₂ (ClassEntry.Renamed table) movedArchive.image.classes renamed ∧ written.Perm renamed ∧
      last.file? "out.jar" = some (.archive (written.map ArchiveWriter.classEntry ++ others)) := by
  have answers : (do
      let table ← joiningEngine.tableFor "named" none
      return (table.className "A", table.className "p/B") : Outcome _) = .ok ("p/B", "p/B") := by decide +kernel
  simp only [Outcome.bind_eq_ok, Outcome.pure_eq_ok, Prod.mk.injEq] at answers
  obtain ⟨table, resolved, renames, keeps⟩ := answers
  have sampleNamed : ClassFile.read sampleClass >>= ClassFile.name = .ok "A" := by decide +kernel
  have joinedNamed : ClassFile.read joinedClass >>= ClassFile.name = .ok "p/B" := by decide +kernel
  obtain ⟨sample, sampleRead, sampleNamed⟩ := Outcome.bind_eq_ok.mp sampleNamed
  obtain ⟨joined, joinedRead, joinedNamed⟩ := Outcome.bind_eq_ok.mp joinedNamed
  have first : ClassEntry.MovesTo table ⟨"META-INF/versions/9/A.class", sampleClass, none⟩
      "META-INF/versions/9/p/B.class" := by
    have moves : ClassEntry.MovesTo table ⟨"META-INF/versions/9/A.class", sampleClass, none⟩
        (ClassEntry.renamedPath _ "A" (table.className "A")) :=
      ClassEntry.movesTo_renamedPath sampleRead sampleNamed
    rwa [renames] at moves
  have second : ClassEntry.MovesTo table ⟨"META-INF/versions/9/p/B.class", joinedClass, none⟩
      "META-INF/versions/9/p/B.class" := by
    have moves : ClassEntry.MovesTo table ⟨"META-INF/versions/9/p/B.class", joinedClass, none⟩
        (ClassEntry.renamedPath _ "p/B" (table.className "p/B")) :=
      ClassEntry.movesTo_renamedPath joinedRead joinedNamed
    rwa [keeps] at moves
  constructor
  · intro tree
    exact (remapTo_moves_every_class joiningEngine joiningArchive "named" "out.jar" none tree).2 table 1 2 _ _ _
      resolved (by decide) rfl rfl first second
  · have succeeds : ((joiningEngine.remapTo movedArchive "named" "out.jar" none).runOn movedTree).1.isOk = true := by
      decide +kernel
    -- With variables in their place, nothing unfolds the run again.
    generalize joiningEngine = start, movedArchive = archive, movedTree = tree at succeeds ⊢
    have moves := (remapTo_moves_every_class start archive "named" "out.jar" none tree).1
    generalize (start.remapTo archive "named" "out.jar" none).runOn tree = answer at succeeds moves ⊢
    obtain ⟨failure | engine, last, steps⟩ := answer
    · cases succeeds
    · obtain ⟨table, renamed, written, others, -, related, reordered, -, standing, -⟩ := moves
      exact ⟨engine, last, steps, table, renamed, written, others, rfl, related, reordered, standing⟩

end RemapEngine

end JarRemap
