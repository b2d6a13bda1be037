import JarRemap.Proofs.FileOutlines

/-!
# Lines that play no part

Properties other than the one about escapes, comments, parameters and sections that are not known can be taken
out of a file, or put into one, and the same tree is read. A section is taken out with all that is below it. Lines
are marked here, and the file with them is compared to the one without.
-/
namespace JarRemap.TinyFile

open List Row Text

section blocks

variable {α β : Type} {opens : α → Bool} {items : List α}

theorem blocks_map (opens : β → Bool) (change : α → β) (items : List α) : blocks opens (items.map change) =
      ((blocks (fun item => opens (change item)) items).1.map change,
        (blocks (fun item => opens (change item)) items).2.map fun block => (change block.1, block.2.map change)) := by
  induction items with
  | nil => rfl
  | cons item items ih =>
    by_cases opened : opens (change item) <;> simp [blocks, opened, ih]

theorem blocks_filter {keep : α → Bool} (kept : ∀ item ∈ items, opens item → keep item) :
    blocks opens (items.filter keep) = ((blocks opens items).1.filter keep,
        (blocks opens items).2.map fun block => (block.1, block.2.filter keep)) := by
  induction items with
  | nil => rfl
  | cons item items ih =>
    obtain ⟨here, later⟩ := forall_mem_cons.mp kept
    by_cases opened : opens item
    · rw [filter_cons_of_pos (here opened), blocks_cons_of_opens opened, blocks_cons_of_opens opened, ih later]
      rfl
    · rw [blocks_cons_of_not_opens opened]
      by_cases isKept : keep item
      · rw [filter_cons_of_pos isKept, blocks_cons_of_not_opens opened, ih later, filter_cons_of_pos isKept]
      · rw [filter_cons_of_neg isKept, ih later, filter_cons_of_neg isKept]

theorem exists_split_of_mem_blocks {block : α × List α} (listed : block ∈ (blocks opens items).2) :
    ∃ before after, items = before ++ block.1 :: (block.2 ++ after) := by
  obtain ⟨earlier, later, split⟩ := append_of_mem listed
  have whole := blocks_flatten opens items
  rw [split, flatMap_append, flatMap_cons, ← append_assoc] at whole
  exact ⟨_, _, whole.symm⟩

end blocks

section marks

/-- What is left without the items that are marked. -/
def unmarked {α : Type} (items : List (α × Bool)) : List α := (items.filter fun item => !item.2).map Prod.fst

/-- One of the rows opens the block of a class. -/
def InClass (before : List (Row × Bool)) : Prop := ∃ item ∈ before, item.1.depth = 0

/-- The row, which comes after other rows, plays no part: it is a property and not the one that says that names
are escaped, or it is in the block of a class and deeper than its members or neither a field nor a method. -/
inductive Idle (before : List (Row × Bool)) (row : Row) : Prop where
  | property (outside : ¬ InClass before) (depth : row.depth = 1) (other : row.first ≠ "escaped-names")
  | deep (inside : InClass before) (depth : 2 ≤ row.depth)
  | unknown (inside : InClass before) (depth : row.depth = 1) (noField : row.first ≠ "f")
      (noMethod : row.first ≠ "m")

/-- The rows that are marked play no part. -/
def IdleMarks (rows : List (Row × Bool)) : Prop :=
  ∀ before row after, rows = before ++ (row, true) :: after → Idle before row

/-- The rows that come next and are deeper than the members of a class. -/
def nextDeeper (after : List (Row × Bool)) : List (Row × Bool) := after.takeWhile fun next => 2 ≤ next.1.depth

/-- The rows that are marked can be taken out: they play no part, and a section goes with all that is below
it. -/
structure Removable (rows : List (Row × Bool)) : Prop where
  idle : IdleMarks rows
  whole : ∀ before row after, rows = before ++ (row, true) :: after → InClass before → row.depth = 1 →
    ∀ next ∈ nextDeeper after, next.2

/-- The rows that are marked can have been put in: they play no part, and those that are deeper than the members
of a class come right after a row that is no class. -/
structure Insertable (rows : List (Row × Bool)) : Prop where
  idle : IdleMarks rows
  below : ∀ before row after, rows = before ++ (row, true) :: after → 2 ≤ row.depth →
    ∃ last ∈ before.getLast?, 1 ≤ last.1.depth

theorem forall_marked_iff {rows : List (Row × Bool)} {Holds : List (Row × Bool) → Row → List (Row × Bool) → Prop} :
    (∀ before row after, rows = before ++ (row, true) :: after → Holds before row after) ↔
      ∀ i : Fin rows.length, (rows.get i).2 = true → Holds (rows.take i) (rows.get i).1 (rows.drop (i + 1)) := by
  constructor
  · intro holds i marked
    refine holds _ _ _ ?_
    rw [← marked, get_eq_getElem, getElem_cons_drop, take_append_drop]
  · rintro holds before row after rfl
    have here := holds ⟨before.length, by simp⟩
    simpa using here

instance (before : List (Row × Bool)) : Decidable (InClass before) :=
  inferInstanceAs (Decidable (∃ item ∈ before, item.1.depth = 0))

theorem idle_iff {before : List (Row × Bool)} {row : Row} :
    Idle before row ↔ (¬ InClass before ∧ row.depth = 1 ∧ row.first ≠ "escaped-names") ∨
      (InClass before ∧ (2 ≤ row.depth ∨ row.depth = 1 ∧ row.first ≠ "f" ∧ row.first ≠ "m")) := by
  constructor
  · rintro (⟨outside, depth, other⟩ | ⟨inside, depth⟩ | ⟨inside, depth, noField, noMethod⟩)
    · exact .inl ⟨outside, depth, other⟩
    · exact .inr ⟨inside, .inl depth⟩
    · exact .inr ⟨inside, .inr ⟨depth, noField, noMethod⟩⟩
  · rintro (⟨outside, depth, other⟩ | ⟨inside, depth | ⟨depth, noField, noMethod⟩⟩)
    · exact .property outside depth other
    · exact .deep inside depth
    · exact .unknown inside depth noField noMethod

instance (before : List (Row × Bool)) (row : Row) : Decidable (Idle before row) :=
  decidable_of_iff _ idle_iff.symm

instance (rows : List (Row × Bool)) : Decidable (IdleMarks rows) :=
  decidable_of_iff _ forall_marked_iff.symm

instance (rows : List (Row × Bool)) : Decidable (Removable rows) :=
  decidable_of_iff (IdleMarks rows ∧ ∀ i : Fin rows.length, (rows.get i).2 = true →
      InClass (rows.take i) → (rows.get i).1.depth = 1 →
      ∀ next ∈ nextDeeper (rows.drop (i + 1)), next.2)
    ⟨fun found => ⟨found.1, forall_marked_iff.mpr found.2⟩,
      fun removable => ⟨removable.idle, forall_marked_iff.mp removable.whole⟩⟩

instance (rows : List (Row × Bool)) : Decidable (Insertable rows) :=
  decidable_of_iff (IdleMarks rows ∧ ∀ i : Fin rows.length, (rows.get i).2 = true →
      2 ≤ (rows.get i).1.depth → ∃ last ∈ (rows.take i).getLast?, 1 ≤ last.1.depth)
    ⟨fun found => ⟨found.1, forall_marked_iff.mpr found.2⟩,
      fun insertable => ⟨insertable.idle, forall_marked_iff.mp insertable.below⟩⟩

def markedBlocks (rows : List (Row × Bool)) : List (Row × Bool) × List ((Row × Bool) × List (Row × Bool)) :=
  blocks (fun item => item.1.opens) rows

variable {rows : List (Row × Bool)} {row : Row} {item : Row × Bool} {block : (Row × Bool) × List (Row × Bool)}

theorem propertiesOf_map : propertiesOf (rows.map Prod.fst) = (markedBlocks rows).1.map Prod.fst :=
  congrArg Prod.fst (blocks_map opens Prod.fst rows)

theorem classBlocks_map : classBlocks (rows.map Prod.fst) =
      (markedBlocks rows).2.map fun block => (block.1.1, block.2.map Prod.fst) :=
  congrArg Prod.snd (blocks_map opens Prod.fst rows)

theorem depth_of_mem_markedBlocks (listed : block ∈ (markedBlocks rows).2) :
    block.1.1.depth = 0 ∧ ∀ item ∈ block.2, item.1.depth ≠ 0 := by
  obtain ⟨opened, inside⟩ := opens_of_mem_blocks listed
  exact ⟨by simpa [opens] using opened, fun item below => by simpa [opens] using inside item below⟩

theorem exists_place (listed : block ∈ (markedBlocks rows).2) {above below : List (Row × Bool)}
    (split : block.2 = above ++ item :: below) :
    ∃ before after, rows = (before ++ block.1 :: above) ++ item :: (below ++ after) ∧
      InClass (before ++ block.1 :: above) := by
  obtain ⟨before, after, place⟩ := exists_split_of_mem_blocks listed
  refine ⟨before, after, ?_, block.1, by simp, (depth_of_mem_markedBlocks listed).1⟩
  rw [place, split]
  simp

namespace IdleMarks

section

variable (idle : IdleMarks rows)
include idle

theorem not_marked (listed : item ∈ rows) (opened : item.1.opens) : !item.2 := by
  obtain ⟨row, isMarked⟩ := item
  cases isMarked with
  | false => rfl
  | true =>
    have depth : row.depth = 0 := by simpa [opens] using opened
    obtain ⟨before, after, split⟩ := append_of_mem listed
    cases idle before row after split <;> omega

theorem markedBlocks_filter : markedBlocks (rows.filter fun item => !item.2) =
      ((markedBlocks rows).1.filter fun item => !item.2,
        (markedBlocks rows).2.map fun block => (block.1, block.2.filter fun item => !item.2)) :=
  blocks_filter fun _ => idle.not_marked

theorem propertiesOf_unmarked : propertiesOf (unmarked rows) = unmarked (markedBlocks rows).1 := by
  rw [unmarked, propertiesOf_map, idle.markedBlocks_filter, unmarked]

theorem classBlocks_unmarked :
    classBlocks (unmarked rows) = (markedBlocks rows).2.map fun block => (block.1.1, unmarked block.2) := by
  rw [unmarked, classBlocks_map, idle.markedBlocks_filter, map_map]
  rfl

theorem property (listed : (row, true) ∈ (markedBlocks rows).1) : row.depth = 1 ∧ row.first ≠ "escaped-names" := by
  obtain ⟨before, after, split⟩ := append_of_mem listed
  have outside : ¬ InClass before := by
    rintro ⟨item, member, depth⟩
    have inStart : item ∈ (markedBlocks rows).1 := split ▸ mem_append_left _ member
    exact not_opens_of_mem_start inStart (by simpa [opens] using depth)
  have place : rows = before ++ (row, true) :: (after ++
      (markedBlocks rows).2.flatMap fun block => block.1 :: block.2) := by
    rw [← cons_append, ← append_assoc, ← split]
    exact (blocks_flatten _ rows).symm
  cases idle before row _ place with
  | property _ depth other => exact ⟨depth, other⟩
  | deep inside | unknown inside => exact absurd inside outside

theorem not_isMember (listed : block ∈ (markedBlocks rows).2) (member : (row, true) ∈ block.2) : ¬ row.isMember := by
  obtain ⟨above, below, split⟩ := append_of_mem member
  obtain ⟨before, after, place, inside⟩ := exists_place listed split
  cases idle _ row _ place with
  | property outside => exact absurd inside outside
  | deep _ depth =>
    have other : row.depth ≠ 1 := by omega
    simp [isMember, other]
  | unknown _ _ noField noMethod => simp [isMember, noField, noMethod]

end

end IdleMarks

theorem mem_unmarked : row ∈ unmarked rows ↔ (row, false) ∈ rows := by
  simp [unmarked]

theorem filter_unmarked {keep : Row → Bool} (idle : ∀ row, (row, true) ∈ rows → ¬ keep row) :
    (unmarked rows).filter keep = (rows.map Prod.fst).filter keep := by
  induction rows with
  | nil => rfl
  | cons item rows ih =>
    have later := ih fun row listed => idle row (mem_cons_of_mem item listed)
    obtain ⟨row, isMarked⟩ := item
    cases isMarked with
    | false =>
      have first : unmarked ((row, false) :: rows) = row :: unmarked rows := rfl
      rw [first, filter_cons, later, map_cons, filter_cons]
    | true =>
      have first : unmarked ((row, true) :: rows) = unmarked rows := rfl
      rw [first, map_cons, filter_cons_of_neg (idle row mem_cons_self), later]

end marks

section rows

variable {rows body : List (Row × Bool)} {head : Row} {tree : MappingTree}

theorem IdleMarks.escaping_unmarked (idle : IdleMarks rows) :
    escaping (unmarked rows) = escaping (rows.map Prod.fst) := by
  rw [escaping, escaping, idle.propertiesOf_unmarked, propertiesOf_map, Bool.eq_iff_iff, any_eq_true, any_eq_true]
  constructor
  · rintro ⟨row, listed, named⟩
    exact ⟨row, mem_map_of_mem (mem_unmarked.mp listed), named⟩
  · rintro ⟨row, listed, named⟩
    obtain ⟨⟨_, isMarked⟩, member, rfl⟩ := mem_map.mp listed
    cases isMarked with
    | false => exact ⟨_, mem_unmarked.mpr member, named⟩
    | true => exact absurd (by simpa using named) (idle.property member).2

def onlyMembers (block : Row × List Row) : Row × List Row := (block.1, block.2.filter isMember)

theorem foldlM_sectionOf_onlyMembers (escapes : Bool) (start : MappingTree) (blocks : List (Row × List Row)) :
    (blocks.map onlyMembers).foldlM (sectionOf escapes) start = blocks.foldlM (sectionOf escapes) start := by
  have same (tree : MappingTree) (block : Row × List Row) :
      sectionOf escapes tree (onlyMembers block) = sectionOf escapes tree block := by
    rw [sectionOf, onlyMembers, filter_eq_self.mpr fun row => of_mem_filter]
    rfl
  rw [foldlM_map]
  simp only [same]

theorem IdleMarks.tells_unmarked (idle : IdleMarks rows) :
    Tells head (unmarked rows) tree ↔ Tells head (rows.map Prod.fst) tree := by
  have blocks : (classBlocks (unmarked rows)).map onlyMembers = (classBlocks (rows.map Prod.fst)).map onlyMembers := by
    rw [idle.classBlocks_unmarked, classBlocks_map, map_map, map_map]
    refine map_congr_left fun block listed => ?_
    exact congrArg (Prod.mk block.1.1) (filter_unmarked fun row => idle.not_isMember listed)
  have same (start : MappingTree) :
      (classBlocks (unmarked rows)).foldlM (sectionOf (escaping (unmarked rows))) start =
        (classBlocks (rows.map Prod.fst)).foldlM (sectionOf (escaping (rows.map Prod.fst))) start := by
    rw [← foldlM_sectionOf_onlyMembers, blocks, foldlM_sectionOf_onlyMembers, idle.escaping_unmarked]
  simp only [Tells, same]

/-- In the block of a class, if rows that are too deep at its start are marked, and if those below a section that
is marked are, the first row that is left is at depth one. -/
theorem depth_head_unmarked (inside : ∀ item ∈ body, item.1.depth ≠ 0) (start : ∀ next ∈ nextDeeper body, next.2)
    (whole : ∀ above row below, body = above ++ (row, true) :: below → row.depth = 1 →
      ∀ next ∈ nextDeeper below, next.2) : ∀ row ∈ (unmarked body).head?, row.depth = 1 := by
  induction body with
  | nil => simp [unmarked]
  | cons item body ih =>
    obtain ⟨row, isMarked⟩ := item
    obtain ⟨positive, others⟩ := forall_mem_cons.mp inside
    by_cases deep : 2 ≤ row.depth
    · rw [nextDeeper, takeWhile_cons_of_pos (by simpa using deep)] at start
      obtain ⟨marked, later⟩ := forall_mem_cons.mp start
      obtain rfl : isMarked = true := marked
      exact ih others later fun above row below split =>
        whole ((_, true) :: above) row below (by rw [split]; rfl)
    · have depth : row.depth = 1 := by
        simp only [ne_eq] at positive
        omega
      cases isMarked with
      | false =>
        intro first isFirst
        obtain rfl : row = first := by simpa [unmarked] using isFirst
        exact depth
      | true =>
        exact ih others (whole [] row body rfl depth) fun above row below split =>
          whole ((_, true) :: above) row below (by rw [split]; rfl)

theorem Removable.wellIndented (removable : Removable rows) (indented : WellIndented (rows.map Prod.fst)) :
    WellIndented (unmarked rows) := by
  constructor
  · intro row listed
    rw [removable.idle.propertiesOf_unmarked, mem_unmarked] at listed
    refine indented.properties row ?_
    rw [propertiesOf_map]
    exact mem_map_of_mem listed
  · intro block listed
    rw [removable.idle.classBlocks_unmarked] at listed
    obtain ⟨⟨opening, body⟩, member, rfl⟩ := mem_map.mp listed
    refine depth_head_unmarked (depth_of_mem_markedBlocks member).2 ?_ fun above row below split depth => ?_
    · cases body with
      | nil => simp [nextDeeper]
      | cons item body =>
        have first : item.1.depth = 1 := by
          refine indented.classes (opening.1, (item :: body).map Prod.fst) ?_ item.1 rfl
          rw [classBlocks_map]
          exact mem_map_of_mem member
        simp [nextDeeper, first]
    · obtain ⟨before, after, place, inClass⟩ := exists_place member split
      intro next deeper
      refine removable.whole _ row _ place inClass depth next ?_
      rw [nextDeeper, takeWhile_append]
      split
      · exact mem_append_left _ ((List.takeWhile_prefix _).subset deeper)
      · exact deeper

theorem Insertable.wellIndented (insertable : Insertable rows) (indented : WellIndented (unmarked rows)) :
    WellIndented (rows.map Prod.fst) := by
  constructor
  · intro row listed
    rw [propertiesOf_map] at listed
    obtain ⟨⟨_, isMarked⟩, member, rfl⟩ := mem_map.mp listed
    cases isMarked with
    | true => exact (insertable.idle.property member).1
    | false =>
      refine indented.properties _ ?_
      rw [insertable.idle.propertiesOf_unmarked]
      exact mem_unmarked.mpr member
  · intro block listed
    rw [classBlocks_map] at listed
    obtain ⟨⟨opening, body⟩, member, rfl⟩ := mem_map.mp listed
    intro first isFirst
    cases body with
    | nil => simp at isFirst
    | cons item body =>
      obtain ⟨row, isMarked⟩ := item
      obtain rfl : row = first := by simpa using isFirst
      cases isMarked with
      | false =>
        refine indented.classes (opening.1, unmarked ((row, false) :: body)) ?_ row rfl
        rw [insertable.idle.classBlocks_unmarked]
        exact mem_map_of_mem member
      | true =>
        obtain ⟨before, after, place, inClass⟩ := exists_place member (nil_append _).symm
        cases insertable.idle _ row _ place with
        | property outside => exact absurd inClass outside
        | deep _ depth =>
          -- the row before it is that of the class
          obtain ⟨last, isLast, positive⟩ := insertable.below _ row _ place depth
          obtain rfl : opening = last := by simpa using isLast
          have zero : opening.1.depth = 0 := (depth_of_mem_markedBlocks member).1
          omega
        | unknown _ depth => exact depth

end rows

section text

def Row.ofText (text : String) : Row :=
  ⟨(Line.ofText 0 text).depth, (Line.ofText 0 text).first, (Line.ofText 0 text).fields⟩

theorem Row.shows_ofText (number : Nat) (text : String) : Shows (ofText text) (.ok (Line.ofText number text)) := by
  refine ⟨number, congrArg Except.ok ?_⟩
  rw [ofText, Line.ofText, Line.ofText]
  cases parts '\t' (text.toList.dropWhile (· == '\t')) <;> rfl

theorem shows_lines (text : String) : List.Forall₂ Shows ((lines text).map ofText) (linesOf (encodeUtf8 text)) := by
  rw [linesOf, byteLines_encodeUtf8]
  generalize lines text = lines
  generalize 0 = start
  induction lines generalizing start with
  | nil => exact .nil
  | cons line lines ih =>
    refine .cons ?_ (ih (start + 1))
    simp only [lineOfBytes, ofStream_encodeUtf8]
    exact shows_ofText (start + 1) line

/-- The rows of marked lines that end in newlines, and of a last line that does not. -/
def rowsOf (marked : List (String × Bool)) (rest : String) : List (Row × Bool) :=
  marked.map (fun line => (ofText (dropReturn line.1), line.2)) ++
    if rest = "" then [] else [(ofText rest, false)]

/-- The text of a header, of lines that end in newlines, and of a last line that does not. -/
def textOf (header : String) (lines : List String) (rest : String) : String :=
  unlines (header :: lines) ++ rest

variable {header rest : String} {lines : List String} {marked : List (String × Bool)} {tree : MappingTree}

theorem rowsOf_fst (marked : List (String × Bool)) (rest : String) : (rowsOf marked rest).map Prod.fst =
      ((marked.map Prod.fst).map dropReturn ++ if rest = "" then [] else [rest]).map ofText := by
  by_cases empty : rest = "" <;> simp [rowsOf, empty]

theorem unmarked_rowsOf (marked : List (String × Bool)) (rest : String) : unmarked (rowsOf marked rest) =
      ((unmarked marked).map dropReturn ++ if rest = "" then [] else [rest]).map ofText := by
  by_cases empty : rest = "" <;> simp [rowsOf, unmarked, empty, filter_map, Function.comp_def]

theorem read_textOf (single : ∀ line ∈ header :: lines, '\n' ∉ line.toList) (singleRest : '\n' ∉ rest.toList)
    {rows : List Row} (shown : rows = (lines.map dropReturn ++ if rest = "" then [] else [rest]).map ofText) :
    read (encodeUtf8 (textOf header lines rest)) = .ok tree ↔
      WellIndented rows ∧ Tells (ofText (dropReturn header)) rows tree := by
  refine read_shown ?_
  have found := shows_lines (textOf header lines rest)
  rwa [textOf, lines_unlines_append single singleRest, map_cons, cons_append, map_cons, ← shown] at found

/-- Lines that are marked below the header of a file play no part. If they can be taken out and the file is
accepted, it is accepted without them and gives the same tree. If they can have been put in and the file without
them is accepted, it is accepted with them and gives the same tree. -/
theorem read_unmarked (single : ∀ line ∈ header :: marked.map Prod.fst, '\n' ∉ line.toList)
    (singleRest : '\n' ∉ rest.toList) :
    (Removable (rowsOf marked rest) →
      read (Text.encodeUtf8 (textOf header (marked.map Prod.fst) rest)) = .ok tree →
      read (Text.encodeUtf8 (textOf header (unmarked marked) rest)) = .ok tree) ∧
    (Insertable (rowsOf marked rest) →
      read (Text.encodeUtf8 (textOf header (unmarked marked) rest)) = .ok tree →
      read (Text.encodeUtf8 (textOf header (marked.map Prod.fst) rest)) = .ok tree) := by
  have singleLeft : ∀ line ∈ header :: unmarked marked, '\n' ∉ line.toList := by
    intro line listed
    refine single line (List.mem_cons.mpr ((List.mem_cons.mp listed).imp_right fun left => ?_))
    exact ((List.filter_sublist).map Prod.fst).subset left
  rw [read_textOf single singleRest (rowsOf_fst marked rest),
    read_textOf singleLeft singleRest (unmarked_rowsOf marked rest)]
  constructor
  · rintro removable ⟨indented, tells⟩
    exact ⟨removable.wellIndented indented, removable.idle.tells_unmarked.mpr tells⟩
  · rintro insertable ⟨indented, tells⟩
    exact ⟨insertable.wellIndented indented, insertable.idle.tells_unmarked.mp tells⟩

/-- A property, a comment with a carriage return, and a section with a line below it are marked. -/
def annotatedLines : List (String × Bool) :=
  [("\tauthor\tnone", true), ("\tescaped-names", false), ("c\tA\\t\tB", false), ("\tf\tI\tf\t\r", false),
    ("\t\tc\tnote\r", true), ("\tother\tI", true), ("\t\t\tdeep", true), ("\tm\t()V\tm\tn", false)]

theorem read_unmarked_annotatedLines :
    Removable (rowsOf annotatedLines "c\tC\tD") ∧ Insertable (rowsOf annotatedLines "c\tC\tD") ∧
      ∃ tree, tree.classes.size = 2 ∧
        read (Text.encodeUtf8 (textOf "tiny\t2\t0\ta\tb" (annotatedLines.map Prod.fst) "c\tC\tD")) = .ok tree ∧
        read (Text.encodeUtf8 (textOf "tiny\t2\t0\ta\tb" (unmarked annotatedLines) "c\tC\tD")) = .ok tree := by
  have single : ∀ line ∈ "tiny\t2\t0\ta\tb" :: annotatedLines.map Prod.fst, '\n' ∉ line.toList := by
    decide +kernel
  have singleRest : '\n' ∉ "c\tC\tD".toList := by decide
  have removable : Removable (rowsOf annotatedLines "c\tC\tD") := by decide +kernel
  have insertable : Insertable (rowsOf annotatedLines "c\tC\tD") := by decide +kernel
  have accepted : (read (Text.encodeUtf8
      (textOf "tiny\t2\t0\ta\tb" (annotatedLines.map Prod.fst) "c\tC\tD"))).isOk := by
    decide +kernel
  have size : (read (Text.encodeUtf8
      (textOf "tiny\t2\t0\ta\tb" (annotatedLines.map Prod.fst) "c\tC\tD"))).toOption.map
        (fun tree => tree.classes.size) = some 2 := by
    decide +kernel
  obtain ⟨tree, run⟩ := Outcome.exists_of_isOk accepted
  have without := (read_unmarked single singleRest).1 removable run
  rw [run] at size
  exact ⟨removable, insertable, tree, Option.some.inj size,
    (read_unmarked single singleRest).2 insertable without, without⟩

end text

end JarRemap.TinyFile
