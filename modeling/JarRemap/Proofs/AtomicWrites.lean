import JarRemap.Proofs.OutputNames
import JarRemap.Proofs.RepeatedWriting

/-!
# Archives are written whole or not at all

Writing may fail while directories are made, before or after the temporary file is begun, and when it is moved.
Wherever it fails, new directories are all that is left. A temporary file that was there before is gone as well.
-/
namespace JarRemap

open Session FileM List JarRemap.Path FileTree

variable {path upper directory output : String}

namespace Path

/-- A path goes on from another one, which has to lead to a directory. -/
def Above (upper path : String) : Prop := upper ≠ "" ∧ ∃ rest, path = upper ++ "/" ++ rest

theorem Above.append (above : Above upper path) (ending : String) : Above upper (path ++ ending) := by
  obtain ⟨filled, rest, rfl⟩ := above
  exact ⟨filled, rest ++ ending, by simp only [String.append_assoc]⟩

section ends

variable {offset place later : Nat} {text : List Char}

theorem lt_of_mem_componentEnds {parts : List (List Char)} (listed : place ∈ componentEnds offset parts) :
    offset < place := by
  induction parts generalizing offset with
  | nil => cases listed
  | cons part parts ih =>
    rw [componentEnds] at listed
    split at listed
    case isTrue component =>
      have filled : 0 < part.length := length_pos_of_ne_nil (by rintro rfl; simp [isComponent] at component)
      rcases mem_cons.mp listed with rfl | listed
      · omega
      · have := ih listed
        omega
    case isFalse =>
      have := ih listed
      omega

theorem pairwise_componentEnds (offset : Nat) (parts : List (List Char)) :
    (componentEnds offset parts).Pairwise (· < ·) := by
  induction parts generalizing offset with
  | nil => exact .nil
  | cons part parts ih =>
    rw [componentEnds]
    split
    · refine .cons (fun place listed => ?_) (ih _)
      have := lt_of_mem_componentEnds listed
      omega
    · exact ih _

/-- A component ends where the text does or where a slash stands. -/
theorem cut_of_mem_componentEnds {offset place : Nat} {text : List Char}
    (listed : place ∈ componentEnds offset (Text.parts '/' text)) :
    ∃ front rest, text = front ++ rest ∧ place = offset + front.length ∧ (rest = [] ∨ ∃ more, rest = '/' :: more) := by
  by_cases slash : '/' ∈ text
  · obtain ⟨first, more, rfl, absent⟩ := eq_append_cons_of_mem slash
    rw [Text.parts_append_mark, Text.parts_of_absent absent, singleton_append, componentEnds] at listed
    have either : place = offset + first.length ∨
        place ∈ componentEnds (offset + first.length + 1) (Text.parts '/' more) := by
      split at listed <;> simp_all
    rcases either with rfl | listed
    · exact ⟨first, _, rfl, rfl, .inr ⟨more, rfl⟩⟩
    · obtain ⟨front, rest, rfl, rfl, ending⟩ := cut_of_mem_componentEnds listed
      exact ⟨first ++ '/' :: front, rest, by simp, by simp; omega, ending⟩
  · rw [Text.parts_of_absent slash, componentEnds, componentEnds] at listed
    refine ⟨text, [], by simp, ?_, .inl rfl⟩
    split at listed <;> simp_all
termination_by text.length

theorem above_of_lt (listed : place ∈ componentEnds 0 (Text.parts '/' text)) (less : place < later)
    (within : later ≤ text.length) : Above (String.ofList (text.take place)) (String.ofList (text.take later)) := by
  have positive := lt_of_mem_componentEnds listed
  obtain ⟨front, rest, rfl, rfl, rfl | ⟨more, rfl⟩⟩ := cut_of_mem_componentEnds listed
  · rw [append_nil] at within
    omega
  · obtain ⟨count, rfl⟩ : ∃ count, later = front.length + (count + 1) := ⟨later - front.length - 1, by omega⟩
    rw [Nat.zero_add, take_left, take_length_add_append, take_succ_cons]
    refine ⟨?_, String.ofList (more.take count), ?_⟩
    · rintro empty
      simp_all
    · simp [← String.toList_inj]

end ends

/-- Of the paths above a path, each one goes on from the shorter ones. -/
theorem pairwise_lineage (path : String) : (lineage path).Pairwise fun lower upper => Above upper lower := by
  rw [lineage]
  split
  · exact .nil
  · rename_i last above ends
    have listed : ∀ place ∈ last :: above, place ∈ componentEnds 0 (Text.parts '/' path.toList) := by
      simp [← ends]
    have inside : ∀ place ∈ last :: above, place ≤ path.toList.length := by
      intro place isEnd
      obtain ⟨front, rest, whole, rfl, _⟩ := cut_of_mem_componentEnds (listed place isEnd)
      simp [whole]
    have sorted : (last :: above).Pairwise (· > ·) := ends ▸ pairwise_reverse.mpr (pairwise_componentEnds 0 _)
    obtain ⟨greatest, sorted⟩ := pairwise_cons.mp sorted
    refine .cons (fun upper isAbove => ?_) (pairwise_map.mpr (sorted.imp_of_mem ?_))
    · obtain ⟨place, isEnd, rfl⟩ := mem_map.mp isAbove
      have goesOn := above_of_lt (listed place (.tail _ isEnd))
        (Nat.lt_of_lt_of_le (greatest place isEnd) (inside last (.head _))) (Nat.le_refl _)
      rwa [take_length, String.ofList_toList] at goesOn
    · intro later place isLater isEnd less
      exact above_of_lt (listed place (.tail _ isEnd)) less (inside later (.tail _ isLater))

theorem above_of_parent? (named : parent? path = some directory) : lineage directory = [] ∨ Above directory path := by
  rw [parent?] at named
  split at named
  · cases named
  · obtain rfl := Option.some.inj named
    exact .inl (by split <;> decide)
  · rename_i last before rest ends
    obtain rfl := Option.some.inj named
    have chain := pairwise_lineage path
    rw [lineage, ends] at chain
    exact .inr ((pairwise_cons.mp chain).1 _ (.head _))

/-- Something is looked up after a slash: a part, or a single dot if there is none. -/
theorem rest_ne_nil (upper rest : String) :
    parts rest ++ (if endsInSlash (upper ++ "/" ++ rest) then ["."] else []) ≠ [] := by
  intro nothing
  obtain ⟨noParts, noDot⟩ := append_eq_nil_iff.mp nothing
  have noSlash : ¬ endsInSlash (upper ++ "/" ++ rest) = true := by
    intro slash
    simp [slash] at noDot
  rcases eq_nil_or_concat rest.toList with empty | ⟨front, last, shape⟩
  · exact noSlash (by simp [endsInSlash, empty])
  · obtain rfl : rest = String.ofList front ++ String.singleton last := by simp [← String.toList_inj, shape]
    have other : '/' ≠ last := by
      rintro rfl
      exact noSlash (by rw [endsInSlash, String.toList_append, List.getLast?_append]; simp)
    obtain ⟨folders, name, _, appended⟩ := exists_parts_append (String.ofList front)
    rw [appended _ (by simp [← String.toList_inj]) (by simpa using other)] at noParts
    simp at noParts

end Path

namespace FileTree

variable {tree : FileTree} {node : FileNode}

theorem checkPath_of_append {rest : String} (accepted : checkPath (path ++ rest) = .ok ()) (filled : path ≠ "") :
    checkPath path = .ok () := by
  grind [checkPath, String.toList_append, String.utf8ByteSize_append]

theorem directory_of_followed {part : String} {parts : List String} {place last : Place}
    (followed : (part :: parts).foldlM tree.follow place = .ok last) : tree.node? place = some .directory := by
  rw [foldlM_cons] at followed
  cases turned : tree.follow place part with
  | error fault =>
    rw [turned] at followed
    cases followed
  | ok next => exact (follow_eq_ok.mp turned).1

theorem isDirectory_of_above (above : Above upper path) (found : tree.find path = .ok node) :
    tree.isDirectory upper = true := by
  obtain ⟨filled, rest, rfl⟩ := above
  obtain ⟨accepted, followed⟩ := walk_eq_ok.mp (find_eq_ok.mp found).1
  have started : tree.start (upper ++ "/" ++ rest) = tree.start upper := by
    rw [start, start, String.append_assoc, isRelative_append filled]
  rw [parts_append_slash, append_assoc, foldlM_append, started] at followed
  cases reached : (parts upper).foldlM tree.follow (tree.start upper) with
  | error fault =>
    rw [reached] at followed
    cases followed
  | ok place =>
    rw [String.append_assoc] at accepted
    have led : tree.placeOf upper = .ok place := walk_eq_ok.mpr ⟨checkPath_of_append accepted filled, reached⟩
    refine isDirectory_iff.mpr (find_directory led ?_)
    obtain ⟨part, more, shape⟩ := exists_cons_of_ne_nil (rest_ne_nil upper rest)
    rw [reached, shape] at followed
    exact directory_of_followed followed

end FileTree

namespace FileM

variable {before after : Session} {failure : Failure}

theorem not_isDirectory_of_ends_makeOrKeepDirectory
    (ended : (makeOrKeepDirectory path).Ends before (.error failure) after) : after.tree.isDirectory path = false := by
  rcases ends_tryCatch.mp ended with ⟨_, _, made⟩ | ⟨_, middle, _, handled⟩
  · cases made
  · rw [ends_tree_bind] at handled
    split at handled
    · cases (ends_pure.mp handled).1
    · obtain ⟨_, rfl⟩ := ends_throw.mp handled
      simp_all

/-- Where directories cannot all be made, they are not all there. -/
theorem not_isDirectory_of_ends_makeLineage {path : String} {above : List String} {before after : Session}
    {failure : Failure} (chain : (path :: above).Pairwise fun lower upper => Above upper lower)
    (ended : (makeLineage (path :: above)).Ends before (.error failure) after) :
    after.tree.isDirectory path = false := by
  rcases ends_tryCatch.mp ended with ⟨_, _, made⟩ | ⟨_, middle, stopped, handled⟩
  · cases made
  split at handled
  case isFalse =>
    obtain ⟨_, rfl⟩ := ends_throw.mp handled
    exact not_isDirectory_of_ends_makeOrKeepDirectory stopped
  case isTrue =>
    rcases ends_bind.mp handled with ⟨_, halted, _⟩ | ⟨_, _, _, ended⟩
    · cases above with
      | nil => cases (ends_pure.mp halted).1
      | cons upper above =>
        obtain ⟨uppers, chain⟩ := pairwise_cons.mp chain
        have missing := not_isDirectory_of_ends_makeLineage chain halted
        rw [Bool.eq_false_iff]
        intro there
        have found := isDirectory_iff.mp there
        rw [isDirectory_of_above (uppers upper (.head _)) found] at missing
        cases missing
    · exact not_isDirectory_of_ends_makeOrKeepDirectory ended
termination_by above

end FileM

namespace ArchiveWriter

variable {writer : ArchiveWriter} {classes : List ClassEntry} {source : String} {before after : Session}
  {failure : Failure}

/-- Where the directory of an output cannot be made, no path leads on from it. -/
theorem not_isFile_of_ends_makeFolder (ended : (makeFolder output).Ends before (.error failure) after) :
    after.tree.isFile (temporary output) = false := by
  rw [makeFolder] at ended
  split at ended
  case h_2 => cases (ends_pure.mp ended).1
  case h_1 directory named =>
    obtain ⟨reached, ended, failed⟩ := ends_within.mp ended
    cases reached with
    | ok => cases failed
    | error =>
      rw [FileM.makeDirectories] at ended
      have chain := pairwise_lineage directory
      rcases lineage_cases directory with none | ⟨higher, listed⟩
      · rw [none] at ended
        cases (ends_pure.mp ended).1
      · rw [listed] at ended chain
        have missing := not_isDirectory_of_ends_makeLineage chain ended
        rw [Bool.eq_false_iff]
        intro present
        obtain ⟨content, found⟩ := isFile_iff_found.mp present
        rcases above_of_parent? named with none | above
        · rw [none] at listed
          cases listed
        · rw [isDirectory_of_above (above.append ".tmp") found] at missing
          cases missing

theorem not_isFile_of_ends_write (ended : (writer.write output classes source).Ends before (.error failure) after) :
    after.tree.isFile (temporary output) = false := by
  rw [write_eq] at ended
  rcases ends_bind.mp ended with ⟨_, stopped, _⟩ | ⟨_, middle, _, ended⟩
  · exact not_isFile_of_ends_makeFolder stopped
  obtain ⟨reached, ended, failed⟩ := ends_within.mp ended
  rcases ends_tryCatch.mp ended with ⟨_, _, rfl⟩ | ⟨_, drafted, _, handled⟩
  · cases failed
  rcases ends_bind.mp handled with ⟨_, halted, _⟩ | ⟨_, discarded, tried, thrown⟩
  · rcases ends_tryCatch.mp halted with ⟨_, _, done⟩ | ⟨_, _, _, settled⟩
    · cases done
    · cases (ends_pure.mp settled).1
  · obtain ⟨_, rfl⟩ := ends_throw.mp thrown
    rcases ends_tryCatch.mp tried with ⟨_, deleted, _⟩ | ⟨_, _, kept, settled⟩
    · exact isFile_of_ends_delete deleted
    · obtain ⟨_, rfl⟩ := ends_pure.mp settled
      exact isFile_of_ends_delete kept

/-- An archive is written whole or not at all. If writing fails, what the path led to is still there, no file
stands at the temporary path, also none from before, and all files at other places are as they were. If it
succeeds, the path leads to an archive of the classes and the entries copied from the source, nothing is left at
the temporary path, and all files at other places are as they were. -/
theorem write_all_or_nothing (writer : ArchiveWriter) (output : String) (classes : List ClassEntry)
    (source : String) (before after : Session) (outcome : Outcome Unit)
    (ended : (writer.write output classes source).Ends before outcome after) :
    (∀ failure, outcome = .error failure →
      (∀ node, before.tree.find output = .ok node → after.tree.find output = .ok node) ∧
      after.tree.isFile (Path.temporary output) = false ∧
      before.tree.spot output ≠ before.tree.spot (Path.temporary output) ∧
      FileTree.Keeps {before.tree.spot (Path.temporary output)} before.tree after.tree) ∧
    (outcome = .ok () →
      (∃ content copied entries, before.tree.node? (before.tree.spot source) = some (.file content) ∧
        content.entries? = some copied ∧ writer.compose classes copied = .ok entries ∧
        after.tree.file? output = some (.archive entries)) ∧
      after.tree.hasPath (Path.temporary output) = false ∧
      FileTree.Keeps {before.tree.spot output, before.tree.spot (Path.temporary output)} before.tree after.tree) := by
  constructor
  · rintro failure rfl
    have keeps := (trail_of_ends_write_error ended).keeps_of_drafts
    rw [Set.image_singleton, Set.image_singleton] at keeps
    have apart := before.tree.spot_ne_own_temporary output
    exact ⟨fun node found => keeps.find found fun _ _ => apart, not_isFile_of_ends_write ended, apart, keeps⟩
  · rintro rfl
    have keeps := (takes_write.trail ended).keeps_of_builds
    rw [Path.withTemporary, Set.image_union, Set.image_singleton, Set.image_singleton, Set.image_singleton,
      Set.singleton_union] at keeps
    obtain ⟨copied, entries, content, composed, _, standing, read, held⟩ := composed_of_ends_write ended
    refine ⟨⟨content, copied, entries, read, held, composed, standing⟩, ?_, keeps⟩
    rw [Bool.eq_false_iff, ne_eq, FileTree.hasPath_iff]
    rintro ⟨node, found⟩
    rw [FileTree.find_eq_ok, (file?_and_draft_of_ends_write ended).2] at found
    cases found.2

/-- A tree with an archive, and with a file that was left over when it should have been replaced. -/
def interruptedTree : FileTree :=
  (empty.put ["out.jar"] (.file (.archive []))).put ["out.jar.tmp"] (.file (.unfinished []))

/-- The source is missing, so the old archive stays and the file left over goes. -/
theorem write_all_or_nothing_interrupted :
    ∃ failure after, (write ⟨.unsigned, []⟩ "out.jar" [] "game.jar").Ends ⟨interruptedTree, []⟩ (.error failure) after ∧
      after.tree.find "out.jar" = .ok (.file (.archive [])) ∧ after.tree.isFile "out.jar.tmp" = false := by
  have fails : ((write ⟨.unsigned, []⟩ "out.jar" [] "game.jar").runOn interruptedTree).1.isOk = false := by
    decide +kernel
  obtain ⟨outcome, after, ended⟩ := (write ⟨.unsigned, []⟩ "out.jar" [] "game.jar").exists_ends ⟨interruptedTree, []⟩
  have kept := write_all_or_nothing _ _ _ _ _ _ _ ended
  rw [FileM.runOn_of_ends ended] at fails
  cases outcome with
  | ok => cases fails
  | error failure => exact ⟨failure, after, ended, (kept.1 _ rfl).1 _ (by decide +kernel), (kept.1 _ rfl).2.1⟩

end ArchiveWriter

end JarRemap
