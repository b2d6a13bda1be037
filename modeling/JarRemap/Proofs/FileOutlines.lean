import JarRemap.Proofs.ReadTrees
import JarRemap.Proofs.TinyRows

/-!
# What reading makes of the rows of a file

The rows after the header fall into blocks: the properties before the first class, and one block for each class.
They have to be indented well, and the rows that count have to be right: the header, the rows of classes and
members, and one of the properties. All other rows play no part.
-/
namespace JarRemap.TinyFile

open List Outcome Row

section blocks

variable {α : Type} {items : List α}

/-- The items before the first one that opens a block, and the blocks that follow. -/
def blocks (opens : α → Bool) : List α → List α × List (α × List α)
  | [] => ([], [])
  | item :: rest =>
    let later := blocks opens rest
    if opens item then ([], (item, later.1) :: later.2) else (item :: later.1, later.2)

variable {opens : α → Bool} {item : α}

theorem blocks_cons_of_opens (opened : opens item) (rest : List α) :
    blocks opens (item :: rest) = ([], (item, (blocks opens rest).1) :: (blocks opens rest).2) := by
  simp [blocks, opened]

theorem blocks_cons_of_not_opens (inside : ¬ opens item) (rest : List α) :
    blocks opens (item :: rest) = (item :: (blocks opens rest).1, (blocks opens rest).2) := by
  simp [blocks, inside]

theorem blocks_append {body : List α} (inside : ∀ item ∈ body, ¬ opens item) (rest : List α) :
    blocks opens (body ++ rest) = (body ++ (blocks opens rest).1, (blocks opens rest).2) := by
  induction body with
  | nil => rfl
  | cons item body ih =>
    obtain ⟨here, later⟩ := forall_mem_cons.mp inside
    rw [cons_append, blocks_cons_of_not_opens here, ih later, cons_append]

theorem blocks_flatten (opens : α → Bool) (items : List α) :
    (blocks opens items).1 ++ (blocks opens items).2.flatMap (fun block => block.1 :: block.2) = items := by
  induction items with
  | nil => rfl
  | cons item rest ih =>
    by_cases opened : opens item
    · simpa [blocks_cons_of_opens opened] using ih
    · simpa [blocks_cons_of_not_opens opened] using ih

theorem not_opens_of_mem_start (listed : item ∈ (blocks opens items).1) : ¬ opens item := by
  induction items with
  | nil => simp [blocks] at listed
  | cons other rest ih =>
    by_cases opened : opens other
    · simp [blocks_cons_of_opens opened] at listed
    · rw [blocks_cons_of_not_opens opened] at listed
      rcases mem_cons.mp listed with rfl | later
      · exact opened
      · exact ih later

theorem opens_of_mem_blocks {block : α × List α} (listed : block ∈ (blocks opens items).2) :
    opens block.1 ∧ ∀ inside ∈ block.2, ¬ opens inside := by
  induction items with
  | nil => simp [blocks] at listed
  | cons other rest ih =>
    by_cases opened : opens other
    · rw [blocks_cons_of_opens opened] at listed
      rcases mem_cons.mp listed with rfl | later
      · exact ⟨opened, fun inside => not_opens_of_mem_start⟩
      · exact ih later
    · rw [blocks_cons_of_not_opens opened] at listed
      exact ih listed

end blocks

def Row.line (row : Row) : Line := ⟨0, row.depth, row.first, row.fields⟩

def Row.opens (row : Row) : Bool := row.depth = 0

def Row.isMember (row : Row) : Bool := row.depth = 1 && (row.first = "f" || row.first = "m")

def propertiesOf (rows : List Row) : List Row := (blocks opens rows).1

def classBlocks (rows : List Row) : List (Row × List Row) := (blocks opens rows).2

def escaping (rows : List Row) : Bool := (propertiesOf rows).any fun row => row.first = "escaped-names"

/-- Properties are at depth one, and so is the first row below each class. -/
structure WellIndented (rows : List Row) : Prop where
  properties : ∀ row ∈ propertiesOf rows, row.depth = 1
  classes : ∀ block ∈ classBlocks rows, ∀ row ∈ block.2.head?, row.depth = 1

theorem depth_of_mem_classBlocks {rows : List Row} {block : Row × List Row}
    (listed : block ∈ classBlocks rows) : block.1.depth = 0 ∧ ∀ row ∈ block.2, row.depth ≠ 0 := by
  obtain ⟨opened, inside⟩ := opens_of_mem_blocks listed
  exact ⟨by simpa [opens] using opened, fun row below => by simpa [opens] using inside row below⟩

section members

variable {escapes : Bool} {count : Nat} {owner after : ClassNames} {row : Row} {rows : List Row} {items : Lines}

theorem classLine_numbered (number : Nat) :
    classLine escapes count owner ⟨number, row.depth, row.first, row.fields⟩ = .ok after ↔
      classLine escapes count owner row.line = .ok after := by
  by_cases field : row.first = "f"
  · simp [classLine, line, field, memberLine_eq_ok]
  · by_cases method : row.first = "m"
    · simp [classLine, line, method, memberLine_eq_ok]
    · simp [classLine, line, field, method]

theorem classLine_of_not_isMember (depth : row.depth = 1) (other : ¬ row.isMember) :
    classLine escapes count owner row.line = .ok owner := by
  have named : row.first ≠ "f" ∧ row.first ≠ "m" := by simpa [isMember, depth] using other
  simp [classLine, line, named]

def addMembers (escapes : Bool) (count : Nat) (owner : ClassNames) (rows : List Row) : Outcome ClassNames :=
  rows.foldlM (fun owner row => classLine escapes count owner row.line) owner

theorem addMembers_cons : addMembers escapes count owner (row :: rows) = .ok after ↔
      ∃ between, classLine escapes count owner row.line = .ok between ∧
        addMembers escapes count between rows = .ok after :=
  bind_eq_ok

/-- Lines below a class add its members, if the first of them is not too deep. -/
theorem classLines_shown (shown : Forall₂ Shows rows items) (inside : ∀ row ∈ rows, row.depth ≠ 0)
    (below : Bool) : classLines escapes count below owner items = .ok after ↔
      (below ∨ ∀ row ∈ rows.head?, row.depth = 1) ∧
        addMembers escapes count owner (rows.filter isMember) = .ok after := by
  induction shown generalizing below owner with
  | nil => simp [classLines, addMembers]
  | @cons row _ rows items here _ ih =>
    obtain ⟨number, rfl⟩ := here
    obtain ⟨positive, others⟩ := forall_mem_cons.mp inside
    have step : classLines escapes count below owner
        (.ok ⟨number, row.depth, row.first, row.fields⟩ :: items) =
          if row.depth ≤ 1 then (do
            let owner ← within (.inLine number)
              (classLine escapes count owner ⟨number, row.depth, row.first, row.fields⟩)
            classLines escapes count true owner items)
          else if below then classLines escapes count true owner items
          else fail (.unexpectedDepth 1 ⟨number, row.depth, row.first, row.fields⟩) := rfl
    rw [step]
    by_cases shallow : row.depth ≤ 1
    · have depth : row.depth = 1 := by omega
      simp only [if_pos shallow, bind_eq_ok, within_eq_ok, classLine_numbered, ih others, true_or, true_and]
      by_cases member : row.isMember
      · simp [filter_cons_of_pos member, addMembers_cons, depth]
      · simp [filter_cons_of_neg member, classLine_of_not_isMember depth member, depth]
    · have deep : row.depth ≠ 1 := by omega
      have other : ¬ row.isMember := by simp [isMember, deep]
      rw [if_neg shallow, filter_cons_of_neg other]
      cases below with
      | true => simp [ih others]
      | false => simp [deep]

theorem lines_of_classLines {below : Bool} (run : classLines escapes count below owner items = .ok after) :
    ∀ item ∈ items, ∃ line, item = .ok line := by
  induction items generalizing below owner with
  | nil => simp
  | cons item items ih =>
    rw [classLines] at run
    obtain ⟨line, rfl, passed⟩ := bind_eq_ok.mp run
    refine forall_mem_cons.mpr ⟨⟨line, rfl⟩, ?_⟩
    split at passed
    · obtain ⟨between, -, rest⟩ := bind_eq_ok.mp passed
      exact ih rest
    · split at passed
      · exact ih passed
      · exact absurd passed fail_ne_ok

end members

section classes

variable {escapes : Bool} {tree result : MappingTree} {block : Row × List Row} {rows : List Row} {items : Lines}

def sectionOf (escapes : Bool) (tree : MappingTree) (block : Row × List Row) : Outcome MappingTree :=
  classSection escapes tree block.1.line ((block.2.filter isMember).map fun row => .ok row.line)

theorem shows_line (rows : List Row) : Forall₂ Shows rows (rows.map fun row => .ok row.line) := by
  rw [forall₂_map_right_iff, forall₂_same]
  exact fun row _ => ⟨0, rfl⟩

theorem sectionOf_eq_ok : sectionOf escapes tree block = .ok result ↔
      ∃ names completed first classNames, block.1.first = "c" ∧ block.1.fields.length = tree.namespaces.length ∧
        block.1.fields.mapM (plainName escapes) = .ok names ∧ completeNames names = .ok completed ∧
        completed.head? = some first ∧ tree.classes.get? first = none ∧
        addMembers escapes tree.namespaces.length ⟨completed, ∅, ∅⟩ (block.2.filter isMember) = .ok classNames ∧
        result = { tree with classes := tree.classes.insert first classNames } := by
  have members : ∀ row ∈ block.2.filter isMember, row.depth = 1 := by
    simp +contextual [isMember]
  have first : ∀ row ∈ (block.2.filter isMember).head?, row.depth = 1 :=
    fun row here => members row (mem_of_mem_head? here)
  have inside : ∀ row ∈ block.2.filter isMember, row.depth ≠ 0 := by
    intro row listed
    rw [members row listed]
    exact Nat.one_ne_zero
  have below (owner classNames : ClassNames) :
      classLines escapes tree.namespaces.length false owner
          ((block.2.filter isMember).map fun row => .ok row.line) = .ok classNames ↔
        addMembers escapes tree.namespaces.length owner (block.2.filter isMember) = .ok classNames := by
    rw [classLines_shown (shows_line _) inside, filter_eq_self.mpr fun row => of_mem_filter]
    exact ⟨And.right, fun run => ⟨.inr first, run⟩⟩
  rw [sectionOf, classSection_eq_ok]
  simp only [below]
  rfl

theorem classSection_shown {number : Nat} {body : Lines} (shown : Forall₂ Shows block.2 body)
    (inside : ∀ row ∈ block.2, row.depth ≠ 0) :
    classSection escapes tree ⟨number, block.1.depth, block.1.first, block.1.fields⟩ body = .ok result ↔
      (∀ row ∈ block.2.head?, row.depth = 1) ∧ sectionOf escapes tree block = .ok result := by
  rw [sectionOf_eq_ok, classSection_eq_ok]
  simp only [classLines_shown shown inside, Bool.false_eq_true, false_or]
  tauto

/-- The part of a file shows the block of a class. -/
def ShowsBlock (block : Row × List Row) (part : Line × Lines) : Prop :=
  Shows block.1 (.ok part.1) ∧ Forall₂ Shows block.2 part.2

theorem sections_shown (shown : Forall₂ Shows rows items) : Forall₂ Shows (propertiesOf rows) (sections items).1 ∧
      Forall₂ ShowsBlock (classBlocks rows) (sections items).2 := by
  induction shown with
  | nil => exact ⟨.nil, .nil⟩
  | @cons row item rows items here _ ih =>
    obtain ⟨properties, classes⟩ := ih
    obtain ⟨number, rfl⟩ := here
    by_cases opened : row.depth = 0
    · rw [propertiesOf, classBlocks, blocks_cons_of_opens (by simpa [opens] using opened)]
      simp only [sections, opened, if_true]
      exact ⟨.nil, .cons ⟨⟨number, by rw [opened]⟩, properties⟩ classes⟩
    · rw [propertiesOf, classBlocks, blocks_cons_of_not_opens (by simpa [opens] using opened)]
      simp only [sections, opened, if_false]
      exact ⟨.cons ⟨number, rfl⟩ properties, classes⟩

def readPart (escapes : Bool) (tree : MappingTree) (part : Line × Lines) : Outcome MappingTree :=
  within (.inLine part.1.number) (classSection escapes tree part.1 part.2)

theorem foldlM_readPart {blocks : List (Row × List Row)} {parts : List (Line × Lines)}
    (shown : Forall₂ ShowsBlock blocks parts) (inside : ∀ block ∈ blocks, ∀ row ∈ block.2, row.depth ≠ 0) :
    parts.foldlM (readPart escapes) tree = .ok result ↔ (∀ block ∈ blocks, ∀ row ∈ block.2.head?, row.depth = 1) ∧
        blocks.foldlM (sectionOf escapes) tree = .ok result := by
  induction shown generalizing tree with
  | nil => simp
  | @cons block part blocks parts here _ ih =>
    obtain ⟨⟨number, line⟩, body⟩ := here
    obtain ⟨insideHere, insideLater⟩ := forall_mem_cons.mp inside
    simp only [foldlM_cons, bind_eq_ok, readPart, within_eq_ok, Except.ok.inj line,
      classSection_shown body insideHere, ih insideLater, forall_mem_cons]
    tauto

theorem properties_shown (shown : Forall₂ Shows rows items) : properties items = .ok escapes ↔
      (∀ row ∈ rows, row.depth = 1) ∧ (rows.any fun row => row.first = "escaped-names") = escapes := by
  induction shown generalizing escapes with
  | nil => simp [properties]
  | @cons row item rows items here _ ih =>
    obtain ⟨number, rfl⟩ := here
    have step : properties (.ok ⟨number, row.depth, row.first, row.fields⟩ :: items) =
        if row.depth ≠ 1 then fail (.unexpectedDepth 1 ⟨number, row.depth, row.first, row.fields⟩)
        else (do
          let later ← properties items
          return row.first = "escaped-names" || later) := rfl
    rw [step]
    by_cases depth : row.depth = 1
    · simp [depth, ih, and_assoc]
    · simp [depth]

theorem lines_of_properties (run : properties items = .ok escapes) : ∀ item ∈ items, ∃ line, item = .ok line := by
  induction items generalizing escapes with
  | nil => simp
  | cons item items ih =>
    rw [properties] at run
    obtain ⟨line, rfl, checked⟩ := bind_eq_ok.mp run
    split at checked
    · exact absurd checked fail_ne_ok
    · obtain ⟨later, rest, -⟩ := bind_eq_ok.mp checked
      exact forall_mem_cons.mpr ⟨⟨line, rfl⟩, ih rest⟩

theorem readSections_eq : readSections tree items = (do
      let escapes ← within .headerProperties (properties (sections items).1)
      within .mappingLines ((sections items).2.foldlM (readPart escapes) tree)) :=
  rfl

theorem readSections_shown (shown : Forall₂ Shows rows items) : readSections tree items = .ok result ↔
      WellIndented rows ∧ (classBlocks rows).foldlM (sectionOf (escaping rows)) tree = .ok result := by
  obtain ⟨start, parts⟩ := sections_shown shown
  have inside : ∀ block ∈ classBlocks rows, ∀ row ∈ block.2, row.depth ≠ 0 :=
    fun block listed => (depth_of_mem_classBlocks listed).2
  simp only [readSections_eq, bind_eq_ok, within_eq_ok, properties_shown start, foldlM_readPart parts inside]
  constructor
  · rintro ⟨_, ⟨properties, rfl⟩, classes, run⟩
    exact ⟨⟨properties, classes⟩, run⟩
  · rintro ⟨indented, run⟩
    exact ⟨_, ⟨indented.properties, rfl⟩, indented.classes, run⟩

end classes

section files

variable {tree : MappingTree} {head : Row} {rows : List Row} {items : Lines} {bytes : Bytes}

theorem header_eq_ok {line : Line} {namespaces : List String} :
    header line = .ok namespaces ↔ line.first = "tiny" ∧ line.fields = "2" :: "0" :: namespaces := by
  obtain ⟨number, depth, first, fields⟩ := line
  by_cases tiny : first = "tiny"
  · rcases fields with _ | ⟨major, _ | ⟨minor, fields⟩⟩
    · simp [header, tiny, nextField, bind_eq_ok]
    · by_cases two : major = "2" <;> simp [header, tiny, nextField, two]
    · by_cases two : major = "2" <;> by_cases zero : minor = "0" <;> simp [header, tiny, nextField, two, zero]
  · simp [header, tiny]

/-- The header and the rows after it give the tree. -/
def Tells (head : Row) (rows : List Row) (tree : MappingTree) : Prop :=
  ∃ namespaces start, head.first = "tiny" ∧ head.fields = "2" :: "0" :: namespaces ∧
    MappingTree.create namespaces = .ok start ∧
    (classBlocks rows).foldlM (sectionOf (escaping rows)) start = .ok tree

theorem lines_of_readSections {start : MappingTree} (run : readSections start items = .ok tree) :
    ∀ item ∈ items, ∃ line, item = .ok line := by
  simp only [readSections_eq, bind_eq_ok, within_eq_ok] at run
  obtain ⟨escapes, properties, classes⟩ := run
  have start := lines_of_properties properties
  have parts : ∀ part ∈ (sections items).2, ∀ item ∈ part.2, ∃ line, item = .ok line := by
    refine foldlM_induction (fun done _ => ∀ part ∈ done, ∀ item ∈ part.2, ∃ line, item = .ok line)
      ?_ (by simp) classes
    intro done state part next before stepped
    obtain ⟨_, _, _, _, -, -, -, -, -, -, below, -⟩ := classSection_eq_ok.mp (within_eq_ok.mp stepped)
    intro listed member
    rcases mem_append.mp member with earlier | here
    · exact before listed earlier
    · rw [mem_singleton.mp here]
      exact lines_of_classLines below
  clear properties classes
  induction items with
  | nil => simp
  | cons item items ih =>
    cases item with
    | error failure =>
      simp [sections] at start
    | ok line =>
      refine forall_mem_cons.mpr ⟨⟨line, rfl⟩, ?_⟩
      by_cases opened : line.depth = 0
      · simp only [sections, opened, if_true, forall_mem_cons] at parts
        exact ih parts.1 parts.2
      · simp only [sections, opened, if_false, forall_mem_cons] at start parts
        exact ih start.2 parts

theorem read_shown (shown : Forall₂ Shows (head :: rows) (linesOf bytes)) :
    read bytes = .ok tree ↔ WellIndented rows ∧ Tells head rows tree := by
  rw [read]
  generalize linesOf bytes = items at shown
  cases shown with
  | cons here later =>
    obtain ⟨number, rfl⟩ := here
    simp only [bind_eq_ok, Except.ok.injEq, exists_eq_left', header_eq_ok, within_eq_ok,
      readSections_shown later, Tells]
    constructor
    · rintro ⟨namespaces, ⟨tiny, fields⟩, start, created, indented, run⟩
      exact ⟨indented, namespaces, start, tiny, fields, created, run⟩
    · rintro ⟨indented, namespaces, start, tiny, fields, created, run⟩
      exact ⟨namespaces, ⟨tiny, fields⟩, start, created, indented, run⟩

theorem read_eq_ok : read bytes = .ok tree ↔ ∃ head rows, Forall₂ Shows (head :: rows) (linesOf bytes) ∧
      WellIndented rows ∧ Tells head rows tree := by
  constructor
  · intro run
    have readable : linesOf bytes ≠ [] ∧ ∀ item ∈ linesOf bytes, ∃ row : Row, row.Shows item := by
      rw [read] at run
      split at run
      case h_1 => exact absurd run fail_ne_ok
      case h_2 first rest lines =>
        simp only [bind_eq_ok] at run
        obtain ⟨line, rfl, _, -, _, -, later⟩ := run
        rw [lines]
        refine ⟨by simp, fun item listed => ?_⟩
        obtain ⟨line, rfl⟩ := forall_mem_cons.mpr ⟨⟨line, rfl⟩, lines_of_readSections later⟩ item listed
        exact ⟨⟨line.depth, line.first, line.fields⟩, line.number, rfl⟩
    obtain ⟨rows, shown⟩ := exists_forall₂.mpr readable.2
    cases rows with
    | nil => exact absurd (forall₂_nil_right_iff.mp shown) readable.1
    | cons head rows => exact ⟨head, rows, shown.flip, (read_shown shown.flip).mp run⟩
  · rintro ⟨head, rows, shown, told⟩
    exact (read_shown shown).mpr told

end files

end JarRemap.TinyFile
