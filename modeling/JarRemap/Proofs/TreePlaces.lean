import JarRemap.Files.Tree
import JarRemap.Proofs.OrderedMaps

/-!
# Where paths lead

A path names a place by its parts alone: a name goes down, two dots go up, one dot stays. `spot` is that
place. Following a path in a tree can only fail or lead to its spot. `Keeps touched` says that directories stay and
that files outside the touched places are the same; `Loses touched` says that nothing happened but that some files
at touched places are gone.
-/
namespace JarRemap

namespace Path

/-- The place that a part of a path leads to. -/
def turn (place : Place) (part : String) : Place :=
  if part = "." then place else if part = ".." then place.dropLast else place ++ [part]

end Path

namespace FileTree

variable {tree before middle after : FileTree} {path : String} {place : Place} {touched wider : Set Place}
  {parts : List String} {node : FileNode} {content : FileContent}

/-- The place that a path names, wherever directories stand. -/
def spot (tree : FileTree) (path : String) : Place := (Path.parts path).foldl Path.turn (tree.start path)

theorem start_congr (same : after.workingPlace = before.workingPlace) (path : String) :
    after.start path = before.start path := by
  rw [start, start, same]

theorem spot_congr (same : after.workingPlace = before.workingPlace) (path : String) :
    after.spot path = before.spot path := by
  rw [spot, spot, start_congr same]

@[simp] theorem node?_root : tree.node? [] = some .directory := rfl

theorem node?_put (tree : FileTree) (place other : Place) (node : FileNode) : (tree.put place node).node? other =
      if place = other ∧ other ≠ [] then some node else tree.node? other := by
  by_cases root : other = []
  · simp [root]
  · simp [node?, put, root]

theorem node?_remove (tree : FileTree) (place other : Place) : (tree.remove place).node? other =
      if place = other ∧ other ≠ [] then none else tree.node? other := by
  by_cases root : other = []
  · simp [root]
  · simp [node?, remove, root]

theorem ne_root (other : tree.node? place ≠ some .directory) : place ≠ [] := by
  rintro rfl
  exact other node?_root

theorem ne_root_of_file (standing : tree.node? place = some (.file content)) : place ≠ [] := by
  rintro rfl
  cases standing

theorem ne_root_of_none (nothing : tree.node? place = none) : place ≠ [] := by
  rintro rfl
  cases nothing

section ways

variable {last : Place}

theorem follow_eq_ok {part : String} {next : Place} : tree.follow place part = .ok next ↔
      tree.node? place = some .directory ∧ part.utf8ByteSize ≤ longestName ∧ next = Path.turn place part := by
  rw [follow]
  split
  case h_1 nothing => simp [nothing]
  case h_2 content file => simp [file]
  case h_3 directory =>
    by_cases long : longestName < part.utf8ByteSize
    · simp [long, Nat.not_le.mpr long]
    · simp [long, Nat.not_lt.mp long, directory, Path.turn, eq_comm]

theorem foldlM_follow_eq (followed : parts.foldlM tree.follow place = .ok last) :
    last = parts.foldl Path.turn place := by
  induction parts generalizing place with
  | nil =>
    cases followed
    rfl
  | cons part parts ih =>
    rw [List.foldlM_cons] at followed
    cases step : tree.follow place part with
    | error fault =>
      rw [step] at followed
      cases followed
    | ok next =>
      rw [step] at followed
      rw [List.foldl_cons, ← (follow_eq_ok.mp step).2.2]
      exact ih followed

theorem foldlM_follow_mono
    (directories : ∀ place, before.node? place = some .directory → after.node? place = some .directory)
    (followed : parts.foldlM before.follow place = .ok last) : parts.foldlM after.follow place = .ok last := by
  induction parts generalizing place with
  | nil => exact followed
  | cons part parts ih =>
    rw [List.foldlM_cons] at followed ⊢
    cases step : before.follow place part with
    | error fault =>
      rw [step] at followed
      cases followed
    | ok next =>
      rw [step] at followed
      obtain ⟨directory, short, reached⟩ := follow_eq_ok.mp step
      rw [follow_eq_ok.mpr ⟨directories place directory, short, reached⟩]
      exact ih followed

theorem walk_eq_ok : tree.walk path parts = .ok last ↔
      checkPath path = .ok () ∧ parts.foldlM tree.follow (tree.start path) = .ok last := by
  rw [walk]
  cases checkPath path with
  | error fault | ok => simp [bind, Except.bind]

theorem walk_mono (working : after.workingPlace = before.workingPlace)
    (directories : ∀ place, before.node? place = some .directory → after.node? place = some .directory)
    (walked : before.walk path parts = .ok last) : after.walk path parts = .ok last := by
  obtain ⟨accepted, followed⟩ := walk_eq_ok.mp walked
  rw [walk_eq_ok, start_congr working]
  exact ⟨accepted, foldlM_follow_mono directories followed⟩

theorem placeOf_eq_spot (found : tree.placeOf path = .ok place) : place = tree.spot path :=
  foldlM_follow_eq (walk_eq_ok.mp found).2

theorem locate_eq_spot (found : tree.locate path = .ok place) : place = tree.spot path := by
  have reached := foldlM_follow_eq (walk_eq_ok.mp found).2
  rw [List.foldl_append] at reached
  split at reached
  case isTrue => exact reached
  case isFalse => exact reached

theorem locate_of_placeOf (noSlash : Path.endsInSlash path = false) : tree.locate path = tree.placeOf path := by
  simp [locate, placeOf, noSlash]

theorem find_eq_ok : tree.find path = .ok node ↔
      tree.locate path = .ok (tree.spot path) ∧ tree.node? (tree.spot path) = some node := by
  rw [find]
  cases found : tree.locate path with
  | error fault => simp [bind, Except.bind]
  | ok place =>
    obtain rfl := locate_eq_spot found
    cases standing : tree.node? (tree.spot path) <;> simp [bind, Except.bind, pure, Except.pure, standing]

def file? (tree : FileTree) (path : String) : Option FileContent :=
  match tree.find path with
  | .ok (.file content) => some content
  | _ => none

theorem file?_eq_some : tree.file? path = some content ↔ tree.find path = .ok (.file content) := by
  rw [file?]
  split
  case h_1 found => simp [found]
  case h_2 other =>
    constructor
    · intro none
      cases none
    · intro found
      exact absurd found (other content)

theorem isFile_eq : tree.isFile path = (tree.file? path).isSome := by
  rw [isFile, file?]
  rcases tree.find path with fault | content | _ <;> rfl

theorem isFile_iff_found : tree.isFile path = true ↔ ∃ content, tree.find path = .ok (.file content) := by
  rw [isFile_eq, Option.isSome_iff_exists]
  simp only [file?_eq_some]

theorem isFile_iff : tree.isFile path = true ↔
    tree.locate path = .ok (tree.spot path) ∧ ∃ content, tree.node? (tree.spot path) = some (.file content) := by
  simp only [isFile_iff_found, find_eq_ok, exists_and_left]

theorem isDirectory_iff : tree.isDirectory path = true ↔ tree.find path = .ok .directory := by
  rw [isDirectory]
  split
  case h_1 found => simp [found]
  case h_2 other => simpa using other

theorem hasPath_iff : tree.hasPath path = true ↔ ∃ node, tree.find path = .ok node := by
  rw [hasPath]
  cases tree.find path <;> simp [Except.toOption]

end ways

/-- Directories stay, and so do the files that stand at other places than the touched ones. -/
structure Keeps (touched : Set Place) (before after : FileTree) : Prop where
  working : after.workingPlace = before.workingPlace
  directories : ∀ place, before.node? place = some .directory → after.node? place = some .directory
  files : ∀ place, place ∉ touched → ∀ content,
    after.node? place = some (.file content) ↔ before.node? place = some (.file content)

namespace Keeps

theorem refl (tree : FileTree) : Keeps touched tree tree :=
  ⟨rfl, fun _ => id, fun _ _ _ => Iff.rfl⟩

theorem trans (first : Keeps touched before middle) (second : Keeps touched middle after) :
    Keeps touched before after where
  working := second.working.trans first.working
  directories place standing := second.directories place (first.directories place standing)
  files place other content := (second.files place other content).trans (first.files place other content)

section

variable (keeps : Keeps touched before after)
include keeps

theorem mono (more : touched ⊆ wider) : Keeps wider before after where
  working := keeps.working
  directories := keeps.directories
  files place other := keeps.files place fun inside => other (more inside)

theorem spot_eq (path : String) : after.spot path = before.spot path :=
  spot_congr keeps.working path

theorem walk (walked : before.walk path parts = .ok place) : after.walk path parts = .ok place :=
  walk_mono keeps.working keeps.directories walked

theorem locate (found : before.locate path = .ok place) : after.locate path = .ok place := keeps.walk found

theorem find (found : before.find path = .ok node)
    (other : ∀ content, node = .file content → before.spot path ∉ touched) : after.find path = .ok node := by
  obtain ⟨led, standing⟩ := find_eq_ok.mp found
  rw [find_eq_ok, keeps.spot_eq]
  refine ⟨keeps.locate led, ?_⟩
  cases node with
  | directory => exact keeps.directories _ standing
  | file content => exact (keeps.files _ (other content rfl) content).mpr standing

end

end Keeps

/-- Some files at touched places are gone, and that is all. -/
structure Loses (touched : Set Place) (before after : FileTree) : Prop where
  working : after.workingPlace = before.workingPlace
  stays : ∀ place, after.node? place = before.node? place ∨
    place ∈ touched ∧ (∃ content, before.node? place = some (.file content)) ∧ after.node? place = none

namespace Loses

theorem refl (tree : FileTree) : Loses touched tree tree := ⟨rfl, fun _ => .inl rfl⟩

theorem trans (first : Loses touched before middle) (second : Loses touched middle after) :
    Loses touched before after where
  working := second.working.trans first.working
  stays place := by
    rcases second.stays place with same | ⟨inside, ⟨content, present⟩, gone⟩
    · rw [same]
      exact first.stays place
    · rcases first.stays place with same | ⟨_, _, absent⟩
      · exact .inr ⟨inside, ⟨content, same ▸ present⟩, gone⟩
      · rw [absent] at present
        cases present

section

variable (loses : Loses touched before after)
include loses

theorem node?_before (standing : after.node? place = some node) : before.node? place = some node := by
  rcases loses.stays place with same | ⟨_, _, gone⟩
  · rw [← same, standing]
  · rw [gone] at standing
    cases standing

theorem node?_other (other : place ∉ touched) : after.node? place = before.node? place :=
  (loses.stays place).resolve_right fun lost => other lost.1

theorem keeps : Keeps touched before after where
  working := loses.working
  directories place standing := by
    rcases loses.stays place with same | ⟨_, ⟨content, present⟩, _⟩
    · rw [same, standing]
    · rw [standing] at present
      cases present
  files place other content := by rw [loses.node?_other other]

theorem spot_eq (path : String) : after.spot path = before.spot path :=
  spot_congr loses.working path

theorem locate_before (found : after.locate path = .ok place) : before.locate path = .ok place :=
  walk_mono loses.working.symm (fun _ => loses.node?_before) found

theorem find_before (found : after.find path = .ok node) : before.find path = .ok node := by
  obtain ⟨led, standing⟩ := find_eq_ok.mp found
  rw [loses.spot_eq] at led standing
  exact find_eq_ok.mpr ⟨loses.locate_before led, loses.node?_before standing⟩

theorem isFile_before (present : after.isFile path = true) : before.isFile path = true := by
  obtain ⟨content, found⟩ := isFile_iff_found.mp present
  exact isFile_iff_found.mpr ⟨content, loses.find_before found⟩

theorem file?_other (other : before.spot path ∉ touched) : after.file? path = before.file? path := by
  ext content
  simp only [file?_eq_some]
  exact ⟨loses.find_before, fun found => loses.keeps.find found fun _ _ => other⟩

end

end Loses

end FileTree

end JarRemap
