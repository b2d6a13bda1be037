import JarRemap.Proofs.AtomicWrites
import JarRemap.Proofs.OwnerLookups
import JarRemap.Proofs.PlainText
import JarRemap.Proofs.RemappedArchives

/-!
# What is copied into an archive

An archive that is written has its classes first. What is copied from the source follows: all entries but
directories, classes and, where they are to go, signature files. Each is copied once, edited at most once, and no
two entries have one name. An archive that was written comes out the same when it is loaded and written again.
-/
namespace JarRemap

open Session FileM List Text Manifest ArchiveEntry Outcome ArchiveImage

section texts

variable {text : String}

theorem Text.isSome_stripEnd? {finish : String} :
    (stripEnd? finish text).isSome = true ↔ ∃ front, text = front ++ finish := by
  rw [stripEnd?, Option.isSome_map, Option.isSome_iff_exists]
  simp only [dropEnd?_eq_some]
  constructor
  · rintro ⟨front, whole⟩
    exact ⟨String.ofList front, by simp [← String.toList_inj, whole]⟩
  · rintro ⟨front, rfl⟩
    exact ⟨front.toList, String.toList_append⟩

theorem Text.newline_not_mem_linesFrom {line rest : List Char} (single : '\n' ∉ line) :
    ∀ other ∈ linesFrom '\n' '\r' line rest, '\n' ∉ other := by
  induction rest generalizing line with
  | nil => grind [linesFrom]
  | cons c rest ih =>
    rw [linesFrom]
    split
    · refine forall_mem_cons.mpr ⟨?_, ih not_mem_nil⟩
      cases line <;> grind [finishLine]
    · exact ih (by grind)

theorem Text.dropReturn_append (line : String) : dropReturn (line ++ "\r") = line := by
  simp [dropReturn, finishLine]

theorem Text.decodeUtf8_encodeUtf8 (text : String) : decodeUtf8 (encodeUtf8 text) = .ok text := by
  rw [decodeUtf8, encodeUtf8, decodeFrom_encodeUtf8]
  simp [Except.map]

namespace Manifest

theorem mainSection_eq (text : String) :
    mainSection text = unlines (((lines text).takeWhile (· ≠ "")).map (· ++ "\r") ++ ["\r"]) := by
  rw [mainSection, unlines, ← String.toList_inj]
  simp [String.toList_join, flatMap_map, flatMap_append]

/-- Nothing is left to take from a main section. -/
theorem mainSection_mainSection (text : String) : mainSection (mainSection text) = mainSection text := by
  have single : ∀ line ∈ ((lines text).takeWhile (· ≠ "")).map (· ++ "\r") ++ ["\r"], '\n' ∉ line.toList := by
    refine forall_mem_append.mpr ⟨forall_mem_map.mpr fun line listed => ?_, by decide⟩
    obtain ⟨chars, found, rfl⟩ := mem_map.mp ((List.takeWhile_prefix _).subset listed)
    simpa using newline_not_mem_linesFrom not_mem_nil chars found
  have found := lines_unlines_append single (show '\n' ∉ "".toList by decide)
  rw [String.append_empty, ← mainSection_eq, if_pos rfl, append_nil, map_append, map_map] at found
  have filled : ∀ line ∈ (lines text).takeWhile (· ≠ ""), (fun line => decide (line ≠ "")) line = true := by
    intro line listed
    have held := mem_takeWhile_imp listed
    exact held
  have same : dropReturn ∘ (· ++ "\r") = id := funext dropReturn_append
  have last : ["\r"].map dropReturn = [""] := by decide
  rw [mainSection_eq (mainSection text), found, same, last, map_id, takeWhile_append_of_pos filled, mainSection_eq text]
  simp

def IsSignature (path : String) : Prop :=
  ∃ name, ∃ ending ∈ [".SF", ".RSA", ".DSA", ".EC"], path = "META-INF/" ++ (name ++ ending) ∧ '/' ∉ name.toList

theorem isSignaturePath_iff : isSignaturePath text = true ↔ IsSignature text := by
  rw [isSignaturePath, IsSignature]
  cases stripped : stripStart? "META-INF/" text with
  | none =>
    refine iff_of_false (by simp) ?_
    rintro ⟨name, ending, _, whole, _⟩
    rw [stripStart?_eq_some.mpr whole] at stripped
    cases stripped
  | some rest =>
    obtain rfl := stripStart?_eq_some.mp stripped
    simp only [any_eq_true, isSome_stripEnd?, Bool.and_eq_true]
    constructor
    · rintro ⟨noSlash, ending, listed, name, rfl⟩
      exact ⟨name, ending, listed, rfl, by simp_all⟩
    · rintro ⟨name, ending, listed, whole, noSlash⟩
      obtain rfl : rest = name ++ ending := by simpa [← String.toList_inj] using whole
      refine ⟨?_, ending, listed, name, rfl⟩
      have plain : ∀ ending ∈ [".SF", ".RSA", ".DSA", ".EC"], '/' ∉ ending.toList := by decide
      simp [noSlash, plain ending listed]

end Manifest

end texts

theorem Outcome.error_of_map {α β : Type} {act : Outcome α} {change : α → β} {failure : Failure}
    (failed : (do return change (← act)) = .error failure) : act = .error failure := by
  cases act <;> cases failed
  rfl

namespace ArchiveWriter

variable {writer : ArchiveWriter} {entry copy : ArchiveEntry} {mode : CopyMode} {name : String} {data result : Bytes}
  {editors : List EntryEditor}

/-- The entry is copied: it is no directory and no class, and no signature file where those are left out. -/
structure Copies (mode : CopyMode) (entry : ArchiveEntry) : Prop where
  noDirectory : ∀ slash ∈ ['/', '\\'], entry.name.toList.getLast? ≠ some slash
  noClass : ∀ stem, entry.name ≠ stem ++ ".class"
  noSignature : mode = .unsigned → ¬ IsSignature entry.name

theorem skips_eq_false_iff : writer.skips entry = false ↔ Copies writer.mode entry := by
  have classless : entry.isClass = false ↔ ∀ stem, entry.name ≠ stem ++ ".class" := by
    rw [isClass, isClassPath, ← Bool.not_eq_true, isSome_stripEnd?, not_exists]
  have unsigned : (writer.mode = .unsigned && isSignaturePath entry.name) = false ↔
      (writer.mode = .unsigned → ¬ IsSignature entry.name) := by
    rw [← isSignaturePath_iff]
    simp
  rw [skips, Bool.or_eq_false_iff, Bool.or_eq_false_iff, classless, unsigned]
  constructor
  · rintro ⟨⟨noDirectory, noClass⟩, noSignature⟩
    exact ⟨by simpa [isDirectory] using noDirectory, noClass, noSignature⟩
  · rintro ⟨noDirectory, noClass, noSignature⟩
    exact ⟨⟨by simpa [isDirectory] using noDirectory, noClass⟩, noSignature⟩

/-- What is copied of the content of an entry: of a manifest only the main section, where signatures are left
out. -/
def Reduces (mode : CopyMode) (entry : ArchiveEntry) (data : Bytes) : Prop :=
  if mode = .unsigned ∧ entry.name = path then
    entry.damage = none ∧ ∃ text, decodeUtf8 entry.data = .ok text ∧ data = encodeUtf8 (mainSection text)
  else data = entry.data

/-- The first editor that handles the name makes the result of the data, or no editor does and nothing changes. -/
inductive Edits (editors : List EntryEditor) (name : String) (data : Bytes) : Bytes → Prop
  | idle (none : ∀ editor ∈ editors, editor.handles name = false) : Edits editors name data data
  | first {result : Bytes} {earlier later : List EntryEditor} {editor : EntryEditor}
      (listed : editors = earlier ++ editor :: later) (idle : ∀ other ∈ earlier, other.handles name = false)
      (handled : editor.handles name = true) (edited : editor.edit name data = .ok result) :
      Edits editors name data result

theorem Edits.eq_of_idle (idle : ∀ editor ∈ editors, editor.handles name = false)
    (edits : Edits editors name data result) :
    result = data := by
  cases edits with
  | idle => rfl
  | first listed _ handled _ =>
    rw [idle _ (listed ▸ mem_append_right _ (.head _))] at handled
    cases handled

/-- The second entry is the copy of the first. -/
structure CopiedAs (writer : ArchiveWriter) (entry copy : ArchiveEntry) : Prop where
  name : copy.name = entry.name
  modified : copy.modified = entry.modified
  damage : copy.damage = entry.damage
  data : ∃ data, Reduces writer.mode entry data ∧ Edits writer.editors entry.name data copy.data

theorem content_eq_ok : entry.content = .ok data ↔ entry.damage = none ∧ entry.data = data := by
  rw [ArchiveEntry.content, within_eq_ok, ArchiveEntry.read]
  split <;> simp [*]

theorem reduces_of_copiedData (given : writer.copiedData entry = .ok data) : Reduces writer.mode entry data := by
  rw [copiedData] at given
  rw [Reduces]
  split at given
  case isTrue manifest =>
    rw [if_pos (by simpa using manifest)]
    obtain ⟨_, read, given⟩ := bind_eq_ok.mp given
    obtain ⟨sound, rfl⟩ := content_eq_ok.mp read
    rw [unsignManifest] at given
    split at given
    · exact ⟨sound, _, ‹_›, (Except.ok.inj given).symm⟩
    · cases given
  case isFalse other =>
    rw [if_neg (by simpa using other)]
    exact (Except.ok.inj given).symm

theorem copied_of_contentOf (given : writer.contentOf entry = .ok data) :
    writer.CopiedAs entry { entry with data } := by
  obtain ⟨reduced, copied, given⟩ := bind_eq_ok.mp given
  refine ⟨rfl, rfl, rfl, reduced, reduces_of_copiedData copied, ?_⟩
  split at given
  case h_1 editor chosen =>
    obtain ⟨_, _, given⟩ := bind_eq_ok.mp given
    obtain ⟨handled, earlier, later, listed, idle⟩ := List.find?_eq_some_iff_append.mp chosen
    exact .first listed (by simpa using idle) handled (within_eq_ok.mp given)
  case h_2 none =>
    obtain rfl := pure_eq_ok.mp given
    exact .idle (by simpa using none)

section composing

variable {classes : List ClassEntry} {copied entries : List ArchiveEntry}

/-- A copy is copied again without change. -/
theorem contentOf_copy (idle : ∀ editor ∈ writer.editors, editor.handles path = false)
    (copies : writer.CopiedAs entry copy) : contentOf ⟨writer.mode, []⟩ copy = .ok copy.data := by
  have same : contentOf ⟨writer.mode, []⟩ copy = copiedData ⟨writer.mode, []⟩ copy := by
    rw [contentOf]
    exact bind_pure _
  rw [same, copiedData]
  split
  case isFalse => rfl
  case isTrue manifest =>
    obtain ⟨named, _, same, data, reduced, edits⟩ := copies
    simp only [Bool.and_eq_true, decide_eq_true_eq, named] at manifest
    rw [Reduces, if_pos manifest] at reduced
    obtain ⟨sound, text, _, rfl⟩ := reduced
    rw [manifest.2] at edits
    rw [content_eq_ok.mpr ⟨same.trans sound, rfl⟩]
    have again : decodeUtf8 copy.data = .ok (mainSection text) := by
      rw [edits.eq_of_idle idle, decodeUtf8_encodeUtf8]
    change unsignManifest _ _ = _
    rw [unsignManifest, again, edits.eq_of_idle idle]
    exact congrArg (fun text => Except.ok (encodeUtf8 text)) (mainSection_mainSection text)

theorem collect_of_nodup (nodup : (entries.map ArchiveEntry.name).Nodup) :
    collect [] (entries.map fun entry => (entry.name, .ok entry)) = .ok entries := by
  refine collect_eq_ok.mpr ⟨by simpa [Function.comp_def] using nodup, fun _ _ => not_mem_nil, ?_⟩
  rw [forall₂_map_left_iff, forall₂_same]
  exact fun _ _ => rfl

section written

variable {copies : List ArchiveEntry}

theorem map_name_written
    (related : List.Forall₂ writer.CopiedAs (copied.filter fun entry => !writer.skips entry) copies) :
    (classes.map classEntry ++ copies).map ArchiveEntry.name = writer.namesOf classes copied := by
  have names := map_eq_of_forall₂ (related.imp fun _ _ copies => copies.name)
  rw [map_append, map_map, names]
  rfl

variable (named : ∀ entry ∈ classes, isClassPath entry.path = true) (kept : ∀ copy ∈ copies, writer.skips copy = false)
include named kept

/-- The classes that were written are those that are loaded. -/
theorem ofEntries_written : ClassEntry.ofEntries (classes.map classEntry ++ copies) =
    .ok (classes.map fun entry => { entry with modified := some (classEntry entry).modified }) := by
  have all : (classes.map classEntry).filter isClass = classes.map classEntry :=
    filter_eq_self.mpr (forall_mem_map.mpr named)
  have none : copies.filter isClass = [] :=
    filter_eq_nil_iff.mpr fun copy listed => by simp [isClass_of_skips (kept copy listed)]
  rw [ClassEntry.ofEntries, filter_append, all, none, append_nil, mapM_eq_ok, forall₂_map_left_iff,
    forall₂_map_right_iff, forall₂_same]
  exact fun _ _ => rfl

/-- The copies that were written are those that are copied again. -/
theorem filter_skips_written :
    (classes.map classEntry ++ copies).filter (fun entry => !skips ⟨writer.mode, []⟩ entry) = copies := by
  have none : (classes.map classEntry).filter (fun entry => !skips ⟨writer.mode, []⟩ entry) = [] := by
    refine filter_eq_nil_iff.mpr (forall_mem_map.mpr fun entry listed => ?_)
    have isClass : (classEntry entry).isClass = true := named entry listed
    simp [skips, isClass]
  have all : copies.filter (fun entry => !skips ⟨writer.mode, []⟩ entry) = copies :=
    filter_eq_self.mpr fun copy listed => Bool.not_eq_true' _ ▸ kept copy listed
  rw [filter_append, none, all, nil_append]

end written

theorem compose_again (ordered : classes.Pairwise fun first second => first.path ≤ second.path)
    (named : ∀ entry ∈ classes, isClassPath entry.path = true)
    (idle : ∀ editor ∈ writer.editors, editor.handles path = false)
    (composed : writer.compose classes copied = .ok entries) :
    ∃ loaded, ClassEntry.ofEntries entries = .ok loaded ∧
      compose ⟨writer.mode, []⟩ (ClassEntry.sorted loaded) entries = .ok entries := by
  obtain ⟨nodup, copies, rfl, made⟩ := copies_of_compose composed
  have related := made.imp fun entry copy ⟨data, given, same⟩ => same ▸ copied_of_contentOf given
  have kept := skips_of_forall₂ related fun _ _ copies => copies.name
  have classItemsAgain :
      classItems (classes.map fun entry => { entry with modified := some (classEntry entry).modified }) =
        (classes.map classEntry).map fun entry => (entry.name, .ok entry) := by
    simp [classItems, Function.comp_def, classEntry]
  have copiedItemsAgain : copiedItems ⟨writer.mode, []⟩ (classes.map classEntry ++ copies) =
      copies.map fun entry => (entry.name, .ok entry) := by
    rw [copiedItems, filter_skips_written named kept]
    refine map_congr_left fun copy listed => ?_
    obtain ⟨place, held⟩ := mem_iff_getElem?.mp listed
    obtain ⟨entry, entryHeld⟩ := forall₂_exists_getElem? related.flip held
    rw [contentOf_copy idle (forall₂_getElem? related entryHeld held)]
    rfl
  refine ⟨_, ofEntries_written named kept, ?_⟩
  rw [compose, ClassEntry.sorted, mergeSort_of_pairwise
    (pairwise_map.mpr (ordered.imp fun less => decide_eq_true less)),
    classItemsAgain, copiedItemsAgain, ← map_append]
  exact collect_of_nodup (map_name_written related ▸ nodup)

end composing

section refusing

variable {classes : List ClassEntry} {copied : List ArchiveEntry} {items : List (String × Outcome ArchiveEntry)}
  {taken : List String} {failure : Failure} {place : Place} {before : Session} {output source : String}
  {content : FileContent}

/-- Where nothing else is wrong with the entries, they are refused for a name that is taken twice. -/
theorem exists_collect_duplicate (given : ∀ item ∈ items, ∃ entry, item.2 = .ok entry)
    (twice : ¬ (taken.reverse ++ items.map Prod.fst).Nodup) (once : taken.Nodup) :
    ∃ name, collect taken items = Outcome.fail (.duplicateEntry name) ∧
      1 < (taken.reverse ++ items.map Prod.fst).count name := by
  induction items generalizing taken with
  | nil => simp [once] at twice
  | cons item items ih =>
    obtain ⟨⟨entry, made⟩, given⟩ := forall_mem_cons.mp given
    rw [collect]
    by_cases held : taken.contains item.1
    · refine ⟨item.1, if_pos held, ?_⟩
      have listed : 0 < taken.count item.1 := count_pos_iff.mpr (by simpa using held)
      simp
      omega
    · have shift : taken.reverse ++ (item :: items).map Prod.fst = (item.1 :: taken).reverse ++ items.map Prod.fst := by
        simp
      rw [shift] at twice ⊢
      obtain ⟨name, refused, counted⟩ := ih given twice (nodup_cons.mpr ⟨by simpa using held, once⟩)
      refine ⟨name, ?_, counted⟩
      rw [if_neg held, made, refused]
      rfl

theorem exists_compose_duplicate
    (readable : ∀ entry ∈ copied, Copies writer.mode entry → ∃ data, writer.contentOf entry = .ok data)
    (twice : ¬ (writer.namesOf classes copied).Nodup) :
    ∃ name, writer.compose classes copied = Outcome.fail (.duplicateEntry name) ∧
      1 < (writer.namesOf classes copied).count name := by
  rw [← map_fst_items] at twice ⊢
  refine exists_collect_duplicate (forall_mem_append.mpr ⟨?_, ?_⟩) twice nodup_nil
  · exact forall_mem_map.mpr fun entry _ => ⟨_, rfl⟩
  · refine forall_mem_map.mpr fun entry listed => ?_
    obtain ⟨listed, kept⟩ := mem_filter.mp listed
    obtain ⟨data, given⟩ := readable entry listed (skips_eq_false_iff.mp (by simpa using kept))
    exact ⟨{ entry with data }, by rw [given]; rfl⟩

theorem exists_ends_foldlM_error (refused : collect taken items = .error failure) :
    ∃ after, (items.foldlM (fun taken item => addEntry place taken item.1 item.2) taken).Ends before (.error failure)
      after := by
  induction items generalizing taken before with
  | nil => cases refused
  | cons item items ih =>
    rw [foldlM_cons]
    rw [collect] at refused
    by_cases held : taken.contains item.1
    · rw [if_pos held] at refused
      cases refused
      refine ⟨before, ends_bind.mpr (.inl ⟨_, ?_, rfl⟩)⟩
      rw [addEntry, if_pos held]
      exact ends_fail.mpr ⟨rfl, rfl⟩
    · rw [if_neg held] at refused
      cases made : item.2 with
      | error fault =>
        rw [made] at refused
        cases refused
        refine ⟨before, ends_bind.mpr (.inl ⟨_, ?_, rfl⟩)⟩
        rw [addEntry, if_neg held]
        exact ends_bind.mpr (.inl ⟨_, ends_lift.mpr ⟨rfl, rfl⟩, rfl⟩)
      | ok entry =>
        rw [made] at refused
        have later := error_of_map refused
        obtain ⟨after, ended⟩ := ih later
        exact ⟨after, ends_bind.mpr (.inr ⟨_, _,
          ends_addEntry_ok.mpr ⟨by simpa using held, rfl, entry, rfl, rfl⟩, ended⟩)⟩

/-- Entries that cannot be put together stop the filling with the same failure. -/
theorem exists_ends_fillEntries_error (found : before.tree.file? source = some content)
    (begun : ∃ draft, before.tree.node? place = some (.file draft)) (apart : before.tree.spot source ≠ place)
    (held : content.entries? = some copied) (refused : writer.compose classes copied = .error failure) :
    ∃ after, (writer.fillEntries place classes source).Ends before (.error failure) after := by
  rw [compose, collect_append] at refused
  rw [fillEntries_eq]
  cases first : collect [] (classItems classes) with
  | error fault =>
    rw [first] at refused
    cases refused
    obtain ⟨after, ended⟩ := exists_ends_foldlM_error first
    exact ⟨after, ends_bind.mpr (.inl ⟨_, ended, rfl⟩)⟩
  | ok entries =>
    rw [first] at refused
    have second := error_of_map refused
    obtain ⟨after, ended⟩ := exists_ends_foldlM_error second
    refine ⟨after, ends_bind.mpr (.inr ⟨_, _, ends_foldlM_addEntry_ok.mpr ⟨rfl, entries, first, rfl⟩, ?_⟩)⟩
    refine ends_bind.mpr (.inr ⟨_, _, ends_openPath_ok.mpr ⟨find_extended found begun apart entries, rfl⟩, ?_⟩)
    exact ends_bind.mpr (.inr ⟨copied, _, ends_within_ok.mpr (ends_archiveEntries_ok.mpr ⟨⟨_, rfl, held⟩, rfl⟩), ended⟩)

/-- Where nothing is in the way, writing fails as composing the entries does. -/
theorem exists_ends_write_error (writable : Writable before.tree output) (clear : Clear before.tree output)
    (found : before.tree.file? source = some content)
    (apart : before.tree.spot source ≠ before.tree.spot (Path.temporary output))
    (held : content.entries? = some copied) (refused : writer.compose classes copied = .error failure) :
    ∃ after, (writer.write output classes source).Ends before
      (.error (failure.within (.writeArchive output))) after := by
  obtain ⟨filled, stopped⟩ := exists_ends_fillEntries_error (file?_create clear.draft found apart)
    ⟨_, FileStep.node?_create clear.draft⟩ (by rwa [(keeps_create clear.draft).spot_eq]) held refused
  have halted : (writer.writeAndMove output classes source).Ends before (.error failure) filled := by
    refine ends_bind.mpr (.inr ⟨_, _, ends_create_ok.mpr
      ⟨writable.ways.noSlash.1, writable.ways.sourceLed, clear.draft, rfl⟩, ends_bind.mpr (.inl ⟨_, ?_, rfl⟩)⟩)
    rw [writeEntries_eq]
    exact ends_bind.mpr (.inl ⟨_, stopped, rfl⟩)
  obtain ⟨tried, after, deleted⟩ := (delete (Path.temporary output)).exists_ends filled
  have discarded : (tryCatch (delete (Path.temporary output)) fun _ => return).Ends filled (.ok ()) after := by
    cases tried with
    | ok => exact ends_tryCatch.mpr (.inl ⟨_, deleted, rfl⟩)
    | error => exact ends_tryCatch.mpr (.inr ⟨_, _, deleted, ends_pure.mpr ⟨rfl, rfl⟩⟩)
  rw [write_eq]
  refine ⟨after, ends_bind.mpr (.inr ⟨_, _, ends_makeFolder writable.folder,
    ends_within.mpr ⟨.error failure, ?_, rfl⟩⟩)⟩
  exact ends_tryCatch.mpr (.inr ⟨_, _, halted, ends_bind.mpr (.inr ⟨_, _, discarded, ends_throw.mpr ⟨rfl, rfl⟩⟩)⟩)

end refusing

/-- Writing copies everything exactly once.

An archive that is written holds the classes in order, and then the copies of the entries of the source that are to
be copied, in order. No two entries have one name; if two would, writing fails, and with this cause if nothing else
is in the way. Of sorted classes and a manifest that no editor handles, the archive comes out the same when it is
loaded and written again. -/
theorem write_copies_once (writer : ArchiveWriter) (output : String) (classes : List ClassEntry) (source : String)
    (before after : Session) (outcome : Outcome Unit)
    (ended : (writer.write output classes source).Ends before outcome after) :
    (outcome = .ok () → ∃ content copied kept copies entries,
      before.tree.node? (before.tree.spot source) = some (.file content) ∧ content.entries? = some copied ∧
      kept.Sublist copied ∧ (∀ entry, entry ∈ kept ↔ entry ∈ copied ∧ Copies writer.mode entry) ∧
      List.Forall₂ writer.CopiedAs kept copies ∧ entries = classes.map classEntry ++ copies ∧
      after.tree.file? output = some (.archive entries) ∧ (entries.map ArchiveEntry.name).Nodup ∧
      (classes.Pairwise (fun first second => first.path ≤ second.path) →
        (∀ entry ∈ classes, isClassPath entry.path = true) →
        (∀ editor ∈ writer.editors, editor.handles Manifest.path = false) →
        ∃ image, (ArchiveImage.load output).Ends after (.ok image) after ∧
          (∃ last, (write ⟨writer.mode, []⟩ output image.classes output).Ends after (.ok ()) last) ∧
          ∀ again last, (write ⟨writer.mode, []⟩ again image.classes output).Ends after (.ok ()) last →
            last.tree.file? again = some (.archive entries))) ∧
    ∀ content copied, before.tree.node? (before.tree.spot source) = some (.file content) →
      content.entries? = some copied → ¬ (writer.namesOf classes copied).Nodup →
      ∃ failure, outcome = .error failure ∧
        (Writable before.tree output → Clear before.tree output → before.tree.file? source = some content →
          before.tree.spot source ≠ before.tree.spot (Path.temporary output) →
          (∀ entry ∈ copied, Copies writer.mode entry → ∃ data, writer.contentOf entry = .ok data) →
          ∃ name, failure.cause = .duplicateEntry name ∧ 1 < (writer.namesOf classes copied).count name) := by
  refine ⟨?_, fun content copied standing held twice => ?_⟩
  · rintro rfl
    obtain ⟨copied, entries, content, composed, writable, written, read, held⟩ := composed_of_ends_write ended
    obtain ⟨nodup, copies, whole, made⟩ := copies_of_compose composed
    have related := made.imp fun entry copy ⟨data, given, same⟩ => same ▸ copied_of_contentOf given
    refine ⟨content, copied, _, copies, entries, read, held, List.filter_sublist, fun entry => ?_, related, whole,
      written, ?_, fun ordered named idle => ?_⟩
    · rw [List.mem_filter, Bool.not_eq_true', skips_eq_false_iff]
    · rw [whole, map_name_written related]
      exact nodup
    · obtain ⟨loaded, read, again⟩ := compose_again ordered named idle composed
      have standing := (FileTree.find_eq_ok.mp (FileTree.file?_eq_some.mp written)).2
      refine ⟨.ofClasses output loaded, ArchiveImage.ends_load_ok.mpr ⟨_, entries, _, written, rfl, read, rfl, rfl⟩,
        ⟨_, writable.ends_write ⟨?_, ?_⟩ written ?_ rfl again⟩, fun path last done => ?_⟩
      · simp [standing]
      · simp [(file?_and_draft_of_ends_write ended).2]
      · exact after.tree.spot_ne_own_temporary output
      · obtain ⟨copiedAgain, entriesAgain, _, composedAgain, _, writtenAgain, readAgain, heldAgain⟩ :=
          composed_of_ends_write done
        obtain rfl := FileNode.file.inj (Option.some.inj (standing.symm.trans readAgain))
        obtain rfl := Option.some.inj heldAgain
        rwa [Except.ok.inj (again.symm.trans composedAgain)]
  · cases outcome with
    | ok =>
      obtain ⟨_, _, _, composed, _, _, readAgain, heldAgain⟩ := composed_of_ends_write ended
      obtain rfl := FileNode.file.inj (Option.some.inj (standing.symm.trans readAgain))
      obtain rfl := Option.some.inj (held.symm.trans heldAgain)
      exact absurd (copies_of_compose composed).1 twice
    | error failure =>
      refine ⟨failure, rfl, fun writable clear found apart readable => ?_⟩
      obtain ⟨name, refused, counted⟩ := exists_compose_duplicate readable twice
      obtain ⟨_, stopped⟩ := exists_ends_write_error writable clear found apart held refused
      obtain rfl := Except.error.inj (ended.unique stopped).1
      exact ⟨name, rfl, counted⟩

/-- An archive with a directory, a manifest of two sections, a signature, a class and a text. -/
def signedTree : FileTree :=
  FileTree.empty.put ["in.jar"] (.file (.archive [⟨"META-INF/", [], .earliest, none⟩,
    ⟨"META-INF/MANIFEST.MF", encodeUtf8 "V: 1\n\nN: x\n", .earliest, none⟩, ⟨"META-INF/X.SF", [1], .earliest, none⟩,
    ⟨"A.class", [2], .earliest, none⟩, ⟨"notes.txt", [3], .earliest, none⟩]))

def signedWrite : FileM Unit := write ⟨.unsigned, []⟩ "out.jar" [⟨"B.class", [4], none⟩] "in.jar"

theorem write_copies_once_signed :
    ∃ entries after image last, signedWrite.Ends ⟨signedTree, []⟩ (.ok ()) after ∧
      after.tree.file? "out.jar" = some (.archive entries) ∧
      entries.map ArchiveEntry.name = ["B.class", "META-INF/MANIFEST.MF", "notes.txt"] ∧
      (ArchiveImage.load "out.jar").Ends after (.ok image) after ∧
      (write ⟨.unsigned, []⟩ "out.jar" image.classes "out.jar").Ends after (.ok ()) last ∧
      last.tree.file? "out.jar" = some (.archive entries) := by
  have succeeds : (signedWrite.runOn signedTree).1.isOk = true ∧
      ((signedWrite.runOn signedTree).2.1.file? "out.jar").bind
        (fun content => content.entries?.map (·.map ArchiveEntry.name)) =
        some ["B.class", "META-INF/MANIFEST.MF", "notes.txt"] := by
    decide +kernel
  obtain ⟨outcome, after, ended⟩ := signedWrite.exists_ends ⟨signedTree, []⟩
  have once := write_copies_once _ _ _ _ _ _ _ ended
  rw [runOn_of_ends ended] at succeeds
  cases outcome with
  | error => cases succeeds.1
  | ok =>
    obtain ⟨_, _, _, _, entries, _, _, _, _, _, _, written, _, again⟩ := once.1 rfl
    obtain ⟨image, loaded, ⟨last, rewritten⟩, same⟩ := again (by simp) (by decide) (by simp)
    refine ⟨entries, after, image, last, ended, written, ?_, loaded, rewritten, same _ _ rewritten⟩
    simpa [written, FileContent.entries?] using succeeds.2

end ArchiveWriter

end JarRemap
