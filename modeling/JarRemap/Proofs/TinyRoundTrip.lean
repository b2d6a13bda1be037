import JarRemap.Proofs.FileOutlines

/-!
# Reading what was written

A tree is written as a file with a header, then row by row: each class with its names, followed by its fields
and methods in any mixture that keeps the order of each kind. A name that is the same as the one before it
may be left out. Reading such a file gives the tree.
-/
namespace JarRemap

open List ClassNames OrderedMap Outcome Text

/-- What a member is found by, told from its names. -/
def MemberNames.key? (member : MemberNames) : Option MemberKey :=
  member.names.head?.map fun name => ⟨name, member.descriptor⟩

theorem ClassNames.WellFormed.keyed {count : Nat} {owner : ClassNames} (wellFormed : owner.WellFormed count)
    (kind : MemberKind) : (owner.members kind).Keyed MemberNames.key? := by
  intro key member held
  have member := wellFormed.members kind key member held
  rw [MemberNames.key?, member.named, member.described]
  rfl

theorem MappingTree.WellFormed.keyed {tree : MappingTree} (wellFormed : tree.WellFormed) :
    tree.classes.Keyed fun owner => owner.names.head? := by
  intro name owner held
  exact wellFormed.named name owner held

namespace TinyFile

variable {escapes : Bool} {rows : List Row} {fields : List String}

/-- The fields that names may be written as, after the name `last`, if there is one before them. -/
inductive Abbreviates (escapes : Bool) : (last : Option String) → (names fields : List String) → Prop where
  | nil (last : Option String) : Abbreviates escapes last [] []
  | full {last : Option String} {name : String} {names fields : List String}
      (later : Abbreviates escapes (some name) names fields) :
      Abbreviates escapes last (name :: names) (spelled escapes name :: fields)
  | blank {name : String} {names fields : List String} (later : Abbreviates escapes (some name) names fields) :
      Abbreviates escapes (some name) (name :: names) ("" :: fields)

namespace Abbreviates

variable {last : Option String} {names fields : List String}

theorem length_eq (abbreviates : Abbreviates escapes last names fields) : fields.length = names.length := by
  induction abbreviates with
  | nil => rfl
  | full _ ih | blank _ ih => simp [ih]

theorem all (escapes : Bool) (last : Option String) (names : List String) :
    Abbreviates escapes last names (names.map (spelled escapes)) := by
  induction names generalizing last with
  | nil => exact .nil last
  | cons name names ih => exact .full (ih (some name))

theorem oneField (abbreviates : Abbreviates escapes last names fields)
    (plain : escapes = false → ∀ name ∈ names, OneField name) : ∀ field ∈ fields, OneField field := by
  induction abbreviates with
  | nil => simp
  | full _ ih =>
    refine forall_mem_cons.mpr ⟨?_, ih fun off name listed => ?_⟩
    · exact spelled_oneField fun off => plain off _ mem_cons_self
    · exact plain off name (mem_cons_of_mem _ listed)
  | blank _ ih =>
    refine forall_mem_cons.mpr ⟨?_, ih fun off name listed => ?_⟩
    · exact ⟨⟨by simp, by simp⟩, by simp⟩
    · exact plain off name (mem_cons_of_mem _ listed)

theorem completeAfter {before : String} (abbreviates : Abbreviates escapes (some before) names fields)
    (filled : ∀ name ∈ names, name ≠ "") :
    ∃ plains, fields.mapM (plainName escapes) = .ok plains ∧ completeAfter before plains = names := by
  simp only [mapM_eq_ok]
  induction names generalizing before fields with
  | nil =>
    cases abbreviates
    exact ⟨[], .nil, rfl⟩
  | cons name names ih =>
    obtain ⟨here, others⟩ := forall_mem_cons.mp filled
    cases abbreviates with
    | full later =>
      obtain ⟨plains, spelled, completed⟩ := ih later others
      refine ⟨name :: plains, .cons (plainName_spelled escapes name) spelled, ?_⟩
      simp [JarRemap.completeAfter, here, completed]
    | blank later =>
      obtain ⟨plains, spelled, completed⟩ := ih later others
      have kept : plainName escapes "" = .ok "" := by cases escapes <;> rfl
      refine ⟨"" :: plains, .cons kept spelled, ?_⟩
      simp [JarRemap.completeAfter, completed]

theorem completeNames (abbreviates : Abbreviates escapes none names fields) (filled : ∀ name ∈ names, name ≠ "") :
    ∃ plains, fields.mapM (plainName escapes) = .ok plains ∧ completeNames plains = .ok names := by
  cases abbreviates with
  | nil => exact ⟨[], rfl, rfl⟩
  | @full _ name names fields later =>
    obtain ⟨here, others⟩ := forall_mem_cons.mp filled
    obtain ⟨plains, spelled, completed⟩ := later.completeAfter others
    refine ⟨name :: plains, ?_, ?_⟩
    · rw [mapM_eq_ok] at spelled ⊢
      exact .cons (plainName_spelled escapes name) spelled
    · rw [JarRemap.completeNames, if_neg here, completed]

end Abbreviates

def letter : MemberKind → String
  | .field => "f"
  | .method => "m"

/-- The members of one kind in a mixture of both. -/
def ofKind (kind : MemberKind) (mixture : List (MemberKind × MemberNames)) : List MemberNames :=
  (mixture.filter fun entry => entry.1 = kind).map Prod.snd

def MemberRow (escapes : Bool) (entry : MemberKind × MemberNames) (row : Row) : Prop :=
  ∃ fields, Abbreviates escapes none entry.2.names fields ∧
    row = ⟨1, letter entry.1, spelled escapes entry.2.descriptor :: fields⟩

/-- The row of a class, followed by those of its members. -/
def ClassRows (escapes : Bool) (owner : ClassNames) (rows : List Row) : Prop :=
  ∃ fields mixture members, Abbreviates escapes none owner.names fields ∧
    (∀ kind, ofKind kind mixture = (owner.members kind).values) ∧
    Forall₂ (MemberRow escapes) mixture members ∧ rows = ⟨0, "c", fields⟩ :: members

def propertyRows (escapes : Bool) : List Row := if escapes then [⟨1, "escaped-names", []⟩] else []

/-- The rows of a whole file, with those of each class as a block. -/
def fileRows (escapes : Bool) (namespaces : List String) (blocks : List (List Row)) : List Row :=
  ⟨0, "tiny", "2" :: "0" :: namespaces⟩ :: propertyRows escapes ++ blocks.flatten

/-- The text is one that the tree may be written as. -/
def Renders (escapes : Bool) (tree : MappingTree) (text : String) : Prop :=
  ∃ blocks, Forall₂ (ClassRows escapes) tree.classes.values blocks ∧
    text = unlines ((fileRows escapes tree.namespaces blocks).map Row.text)

/-- The rows of a class with all names written out, its fields before its methods. -/
def classRows (escapes : Bool) (owner : ClassNames) : List Row :=
  ⟨0, "c", owner.names.map (spelled escapes)⟩ ::
    [MemberKind.field, MemberKind.method].flatMap fun kind => (owner.members kind).values.map fun member =>
      ⟨1, letter kind, spelled escapes member.descriptor :: member.names.map (spelled escapes)⟩

def render (escapes : Bool) (tree : MappingTree) : String :=
  unlines ((fileRows escapes tree.namespaces (tree.classes.values.map (classRows escapes))).map Row.text)

theorem classRows_written (escapes : Bool) (owner : ClassNames) :
    ClassRows escapes owner (classRows escapes owner) := by
  have members (kind : MemberKind) : Forall₂ (MemberRow escapes)
      ((owner.members kind).values.map fun member => (kind, member))
      ((owner.members kind).values.map fun member =>
        ⟨1, letter kind, spelled escapes member.descriptor :: member.names.map (spelled escapes)⟩) := by
    rw [forall₂_map_left_iff, forall₂_map_right_iff, forall₂_same]
    exact fun member _ => ⟨_, .all escapes none member.names, rfl⟩
  refine ⟨_, _, _, .all escapes none owner.names, fun kind => ?_,
    rel_append (members .field) (rel_append (members .method) .nil), rfl⟩
  cases kind <;> simp [ofKind, filter_map, Function.comp_def]

theorem render_renders (escapes : Bool) (tree : MappingTree) : Renders escapes tree (render escapes tree) := by
  refine ⟨tree.classes.values.map (classRows escapes), ?_, rfl⟩
  rw [forall₂_map_right_iff, forall₂_same]
  exact fun owner _ => classRows_written escapes owner

section members

variable {count : Nat} {owner state : ClassNames} {entry : MemberKind × MemberNames}
  {mixture : List (MemberKind × MemberNames)}

theorem ofKind_cons (kind : MemberKind) : ofKind kind (entry :: mixture) =
      if entry.1 = kind then entry.2 :: ofKind kind mixture else ofKind kind mixture := by
  by_cases same : entry.1 = kind <;> simp [ofKind, same]

theorem classLine_of_letter {line : Line} {kind : MemberKind} (named : line.first = letter kind) :
    classLine escapes count state line = memberLine escapes count kind state line := by
  cases kind <;> simp [classLine, named, letter]

/-- The members of the class are those that are there and those that are still to come. -/
def Awaits (state owner : ClassNames) (mixture : List (MemberKind × MemberNames)) : Prop :=
  ∀ kind, (state.members kind).values ++ ofKind kind mixture = (owner.members kind).values

section

variable (wellFormed : owner.WellFormed count) (stateWellFormed : state.WellFormed count)
include wellFormed stateWellFormed

theorem classLine_row (awaits : Awaits state owner (entry :: mixture))
    (abbreviates : Abbreviates escapes none entry.2.names fields) : ∃ after, classLine escapes count state
        ⟨0, 1, letter entry.1, spelled escapes entry.2.descriptor :: fields⟩ = .ok after ∧
      after.names = state.names ∧ after.WellFormed count ∧ Awaits after owner mixture := by
  obtain ⟨kind, member⟩ := entry
  have ahead : (state.members kind).values ++ member :: ofKind kind mixture = (owner.members kind).values := by
    simpa [ofKind_cons] using awaits kind
  have listed : member ∈ (owner.members kind).values := by simp [← ahead]
  obtain ⟨⟨name, descriptor⟩, held⟩ := mem_values.mp listed
  obtain ⟨fits, first, described⟩ := wellFormed.members kind _ member held
  obtain rfl : member.descriptor = descriptor := described
  have fresh : (state.members kind).get? ⟨name, member.descriptor⟩ = none :=
    (stateWellFormed.keyed kind).get?_next (wellFormed.keyed kind) ahead (wellFormed.keyed kind _ member held)
  obtain ⟨plains, read, completed⟩ := abbreviates.completeNames fits.filled
  have length : fields.length = count := abbreviates.length_eq.trans fits.length
  have added := addMember_eq_ok.mpr ⟨completed, name, first, fresh, rfl⟩
  refine ⟨_, (classLine_of_letter rfl).trans (memberLine_eq_ok.mpr ⟨_, fields, member.descriptor, plains,
    member.names, rfl, plainName_spelled .., length, read, added⟩), names_setMembers .., ?_, fun other => ?_⟩
  · exact addMember_wellFormed stateWellFormed ((mapM_length read).trans length) added
  · have before := awaits other
    rw [ofKind_cons] at before
    rw [members_setMembers]
    by_cases same : kind = other
    · subst same
      rw [if_pos rfl, values_insert_of_new fresh, append_assoc]
      exact ahead
    · rw [if_neg same] at before ⊢
      exact before

theorem Awaits.eq (awaits : Awaits state owner []) (names : state.names = owner.names) : state = owner := by
  have same (kind : MemberKind) : state.members kind = owner.members kind := by
    refine (stateWellFormed.keyed kind).eq_of_values (wellFormed.keyed kind) ?_
    simpa [ofKind] using awaits kind
  obtain ⟨_, _, _⟩ := state
  obtain ⟨_, _, _⟩ := owner
  obtain rfl := names
  obtain rfl := same .field
  obtain rfl := same .method
  rfl

theorem addMembers_rows (names : state.names = owner.names) (awaits : Awaits state owner mixture)
    (written : Forall₂ (MemberRow escapes) mixture rows) : addMembers escapes count state rows = .ok owner := by
  -- Along the rows, the class holds what came before and awaits what the rows that are left will add.
  induction written generalizing state with
  | nil => exact congrArg Except.ok (awaits.eq wellFormed stateWellFormed names)
  | cons isRow _ ih =>
    obtain ⟨fields, abbreviates, rfl⟩ := isRow
    obtain ⟨after, stepped, sameNames, afterWellFormed, awaitsLess⟩ :=
      classLine_row wellFormed stateWellFormed awaits abbreviates
    exact addMembers_cons.mpr ⟨after, stepped, ih afterWellFormed (sameNames.trans names) awaitsLess⟩

end

theorem memberRows_isMember (written : Forall₂ (MemberRow escapes) mixture rows) :
    ∀ row ∈ rows, row.depth = 1 ∧ row.isMember := by
  intro row listed
  obtain ⟨⟨kind, member⟩, -, fields, -, rfl⟩ := exists_mem_of_forall₂ written.flip listed
  cases kind <;> exact ⟨rfl, rfl⟩

end members

section file

variable {tree state : MappingTree} {owner : ClassNames} {owners : List ClassNames}
  {mixture : List (MemberKind × MemberNames)}

section

variable (wellFormed : tree.WellFormed) (stateWellFormed : state.WellFormed)
  (namespaces : state.namespaces = tree.namespaces)
include wellFormed stateWellFormed namespaces

/-- The rows of a class add just this class. -/
theorem sectionOf_rows {block : Row × List Row} (ahead : state.classes.values ++ owner :: owners = tree.classes.values)
    (isBlock : ClassRows escapes owner (block.1 :: block.2)) :
    ∃ after, sectionOf escapes state block = .ok after ∧ after.WellFormed ∧
      after.namespaces = tree.namespaces ∧ after.classes.values ++ owners = tree.classes.values := by
  obtain ⟨fields, mixture, members, abbreviates, mixed, written, same⟩ := isBlock
  obtain ⟨_, _⟩ := block
  obtain ⟨rfl, rfl⟩ := cons.inj same
  have listed : owner ∈ tree.classes.values := by simp [← ahead]
  obtain ⟨name, held⟩ := mem_values.mp listed
  have ownerWellFormed := wellFormed.classes name owner held
  rw [← namespaces] at ownerWellFormed
  have first : owner.names.head? = some name := wellFormed.named name owner held
  have fresh : state.classes.get? name = none :=
    stateWellFormed.keyed.get?_next wellFormed.keyed ahead (wellFormed.keyed name owner held)
  obtain ⟨plains, read, completed⟩ := abbreviates.completeNames ownerWellFormed.names.filled
  have length : fields.length = state.namespaces.length := abbreviates.length_eq.trans ownerWellFormed.names.length
  have startWellFormed : (⟨owner.names, ∅, ∅⟩ : ClassNames).WellFormed state.namespaces.length :=
    ⟨ownerWellFormed.names, by simp⟩
  have awaits : Awaits ⟨owner.names, ∅, ∅⟩ owner mixture := by
    intro kind
    rw [members_new, mixed]
    rfl
  have below := addMembers_rows ownerWellFormed startWellFormed rfl awaits written
  rw [← filter_eq_self.mpr fun row listed => (memberRows_isMember written row listed).2] at below
  refine ⟨_, sectionOf_eq_ok.mpr ⟨plains, owner.names, name, owner, rfl, length, read, completed, first, fresh,
    below, rfl⟩, stateWellFormed.insertClass first ownerWellFormed, namespaces, ?_⟩
  rw [values_insert_of_new fresh, append_assoc]
  exact ahead

theorem foldlM_sectionOf_rows {blocks : List (Row × List Row)}
    (ahead : state.classes.values ++ owners = tree.classes.values)
    (written : Forall₂ (fun owner block => ClassRows escapes owner (block.1 :: block.2)) owners blocks) :
    blocks.foldlM (sectionOf escapes) state = .ok tree := by
  induction written generalizing state with
  | nil =>
    have same : state.classes = tree.classes :=
      stateWellFormed.keyed.eq_of_values wellFormed.keyed (by simpa using ahead)
    obtain ⟨_, _⟩ := state
    obtain rfl := namespaces
    obtain rfl := same
    rfl
  | cons isBlock _ ih =>
    obtain ⟨after, stepped, afterWellFormed, sameNamespaces, aheadLess⟩ :=
      sectionOf_rows wellFormed stateWellFormed namespaces ahead isBlock
    exact bind_eq_ok.mpr ⟨after, stepped, ih afterWellFormed sameNamespaces aheadLess⟩

end

theorem propertyRows_depth (escapes : Bool) : ∀ row ∈ propertyRows escapes, row.depth = 1 := by
  cases escapes <;> simp [propertyRows]

variable {parts : List (List Row)}

/-- What follows the rows of a class starts at depth zero or is empty, so no row of it falls to the class. -/
theorem blocks_flatten_rows (written : Forall₂ (ClassRows escapes) owners parts) :
    ∃ found, blocks Row.opens parts.flatten = ([], found) ∧ (∀ block ∈ found, ∀ row ∈ block.2, row.depth = 1) ∧
      Forall₂ (fun owner block => ClassRows escapes owner (block.1 :: block.2)) owners found := by
  induction written with
  | nil => exact ⟨[], rfl, by simp, .nil⟩
  | cons isBlock _ ih =>
    obtain ⟨found, cut, depths, areBlocks⟩ := ih
    obtain ⟨fields, mixture, members, abbreviates, mixed, rows, rfl⟩ := isBlock
    have depth : ∀ row ∈ members, row.depth = 1 := fun row listed => (memberRows_isMember rows row listed).1
    refine ⟨(⟨0, "c", fields⟩, members) :: found, ?_, forall_mem_cons.mpr ⟨depth, depths⟩,
      .cons ⟨fields, mixture, members, abbreviates, mixed, rows, rfl⟩ areBlocks⟩
    rw [flatten_cons, cons_append, blocks_cons_of_opens rfl, blocks_append, cut, append_nil]
    simp +contextual [Row.opens, depth]

/-- All names and descriptors of the class fit in fields as they are. -/
def FitsFields (owner : ClassNames) : Prop :=
  (∀ name ∈ owner.names, OneField name) ∧ ∀ kind, ∀ member ∈ (owner.members kind).values,
    OneField member.descriptor ∧ ∀ name ∈ member.names, OneField name

theorem mem_ofKind (listed : entry ∈ mixture) : entry.2 ∈ ofKind entry.1 mixture :=
  mem_map_of_mem (mem_filter.mpr ⟨listed, by simp⟩)

/-- What rows start with. -/
def marks : List String := ["tiny", "escaped-names", "c", "f", "m"]

theorem letter_mem_marks (kind : MemberKind) : letter kind ∈ marks := by
  cases kind <;> decide

theorem legible_of_mark {mark : String} (listed : mark ∈ marks) (depth : Nat)
    (oneField : ∀ field ∈ fields, OneField field) : Row.Legible ⟨depth, mark, fields⟩ := by
  have legible : ∀ mark ∈ marks, mark ≠ "" ∧ OneField mark := by decide
  obtain ⟨named, first⟩ := legible mark listed
  exact ⟨named, first, oneField⟩

theorem ClassRows.legible (written : ClassRows escapes owner rows)
    (plain : escapes = false → FitsFields owner) : ∀ row ∈ rows, row.Legible := by
  obtain ⟨fields, mixture, members, abbreviates, mixed, memberRows, rfl⟩ := written
  have classLegible : Row.Legible ⟨0, "c", fields⟩ :=
    legible_of_mark (by decide) 0 (abbreviates.oneField fun off => (plain off).1)
  refine forall_mem_cons.mpr ⟨classLegible, fun row listed => ?_⟩
  obtain ⟨entry, inMixture, fields, abbreviates, rfl⟩ := exists_mem_of_forall₂ memberRows.flip listed
  have plainMember (off : escapes = false) := (plain off).2 entry.1 entry.2 (mixed entry.1 ▸ mem_ofKind inMixture)
  refine legible_of_mark (letter_mem_marks _) 1 (forall_mem_cons.mpr ⟨?_, ?_⟩)
  · exact spelled_oneField fun off => (plainMember off).1
  · exact abbreviates.oneField fun off => (plainMember off).2

theorem rows_legible (spaces : ∀ space ∈ tree.namespaces, OneField space)
    (plain : escapes = false → ∀ owner ∈ owners, FitsFields owner)
    (written : Forall₂ (ClassRows escapes) owners parts) :
    ∀ row ∈ fileRows escapes tree.namespaces parts, row.Legible := by
  have header : Row.Legible ⟨0, "tiny", "2" :: "0" :: tree.namespaces⟩ := by
    refine legible_of_mark (by decide) 0 ?_
    exact forall_mem_cons.mpr ⟨by decide, forall_mem_cons.mpr ⟨by decide, spaces⟩⟩
  have properties : ∀ row ∈ propertyRows escapes, row.Legible := by
    cases escapes with
    | false => simp [propertyRows]
    | true => simpa [propertyRows] using legible_of_mark (by decide) 1 (by simp)
  have classes : ∀ row ∈ parts.flatten, row.Legible := by
    intro row listed
    obtain ⟨part, inParts, inPart⟩ := mem_flatten.mp listed
    obtain ⟨owner, held, isPart⟩ := exists_mem_of_forall₂ written.flip inParts
    exact ClassRows.legible isPart (fun off => plain off owner held) row inPart
  intro row listed
  rcases mem_append.mp listed with inFront | inClasses
  · exact forall_mem_cons.mpr ⟨header, properties⟩ row inFront
  · exact classes row inClasses

/-- A tree can be written, and reading any file that it may be written as gives the tree. -/
theorem read_of_renders (wellFormed : tree.WellFormed)
    (spaces : ∀ space ∈ tree.namespaces, Text.OneField space)
    (plain : escapes = false → ∀ owner ∈ tree.classes.values, FitsFields owner) :
    Renders escapes tree (render escapes tree) ∧
      ∀ text, Renders escapes tree text → read (Text.encodeUtf8 text) = .ok tree := by
  refine ⟨render_renders escapes tree, ?_⟩
  rintro text ⟨parts, written, rfl⟩
  have shown : Forall₂ Row.Shows (_ :: (propertyRows escapes ++ parts.flatten)) _ :=
    Row.shows_linesOf (rows_legible spaces plain written)
  refine (read_shown shown).mpr ?_
  obtain ⟨found, cut, depths, areBlocks⟩ := blocks_flatten_rows written
  have start := propertyRows_depth escapes
  have whole : blocks Row.opens (propertyRows escapes ++ parts.flatten) = (propertyRows escapes, found) := by
    rw [blocks_append, cut, List.append_nil]
    simp +contextual [Row.opens, start]
  have created : MappingTree.create tree.namespaces = .ok ⟨tree.namespaces, ∅⟩ :=
    MappingTree.create_eq_ok.mpr ⟨wellFormed.enough, wellFormed.distinct, rfl⟩
  have escaped : escaping (propertyRows escapes ++ parts.flatten) = escapes := by
    rw [escaping, propertiesOf, whole]
    cases escapes <;> rfl
  refine ⟨⟨?_, ?_⟩, tree.namespaces, _, rfl, rfl, created, ?_⟩
  · rwa [propertiesOf, whole]
  · rw [classBlocks, whole]
    exact fun block listed row first => depths block listed row (List.mem_of_mem_head? first)
  · rw [escaped, classBlocks, whole]
    exact foldlM_sectionOf_rows wellFormed (MappingTree.create_wellFormed created) rfl rfl areBlocks

/-- A field with a name that needs an escape and one that can be left out. -/
def tabbedField : MemberNames := ⟨"LA\t1;", ["f", "f", "f\r"]⟩

def tabbedMethod : MemberNames := ⟨"()V", ["m\n", "n", "n"]⟩

def tabbedClass : ClassNames where
  names := ["A\t1", "A\t1", "\\"]
  fields := (∅ : OrderedMap MemberKey MemberNames).insert ⟨"f", "LA\t1;"⟩ tabbedField
  methods := (∅ : OrderedMap MemberKey MemberNames).insert ⟨"m\n", "()V"⟩ tabbedMethod

def tabbedTree : MappingTree where
  namespaces := ["a", "b", "c"]
  classes := (∅ : OrderedMap String ClassNames).insert "A\t1" tabbedClass

/-- The tree as a file, with the method before the field and without the names that can be left out. -/
def tabbedText : String :=
  String.join ["tiny\t2\t0\ta\tb\tc\n", "\tescaped-names\n", "c\tA\\t1\t\t\\\\\n",
    "\tm\t()V\tm\\n\tn\t\n", "\tf\tLA\\t1;\tf\t\tf\\r\n"]

theorem tabbedTree_wellFormed : tabbedTree.WellFormed := by
  have field : tabbedField.WellFormed 3 ⟨"f", "LA\t1;"⟩ := ⟨⟨rfl, by decide⟩, rfl, rfl⟩
  have method : tabbedMethod.WellFormed 3 ⟨"m\n", "()V"⟩ := ⟨⟨rfl, by decide⟩, rfl, rfl⟩
  have names : ClassNames.WellFormed 3 ⟨tabbedClass.names, ∅, ∅⟩ := ⟨⟨rfl, by decide⟩, by simp⟩
  have owner : tabbedClass.WellFormed 3 := (names.insertMember .field field).insertMember .method method
  have start : MappingTree.WellFormed ⟨["a", "b", "c"], ∅⟩ := ⟨by decide, by decide, by simp, by simp⟩
  exact start.insertClass rfl owner

theorem tabbedText_renders : Renders true tabbedTree tabbedText := by
  have names : Abbreviates true none tabbedClass.names [spelled true "A\t1", "", spelled true "\\"] :=
    .full (.blank (.full (.nil _)))
  have methodNames : Abbreviates true none tabbedMethod.names [spelled true "m\n", spelled true "n", ""] :=
    .full (.full (.blank (.nil _)))
  have fieldNames : Abbreviates true none tabbedField.names [spelled true "f", "", spelled true "f\r"] :=
    .full (.blank (.full (.nil _)))
  have block : ClassRows true tabbedClass _ :=
    ⟨_, [(.method, tabbedMethod), (.field, tabbedField)], _, names, fun kind => by cases kind <;> rfl,
      .cons ⟨_, methodNames, rfl⟩ (.cons ⟨_, fieldNames, rfl⟩ .nil), rfl⟩
  exact ⟨[_], .cons block .nil, by decide +kernel⟩

/-- A class whose names need no escapes, though they look like it. -/
def slashedClass : ClassNames := ⟨["A\\t1", "\r1"], ∅, ∅⟩

def slashedTree : MappingTree where
  namespaces := ["a", "b"]
  classes := (∅ : OrderedMap String ClassNames).insert "A\\t1" slashedClass

theorem slashedTree_wellFormed : slashedTree.WellFormed := by
  have owner : slashedClass.WellFormed 2 := ⟨⟨rfl, by decide⟩, by simp [slashedClass]⟩
  have start : MappingTree.WellFormed ⟨["a", "b"], ∅⟩ := ⟨by decide, by decide, by simp, by simp⟩
  exact start.insertClass rfl owner

theorem read_of_renders_samples :
    (tabbedTree.WellFormed ∧ (∀ space ∈ tabbedTree.namespaces, Text.OneField space) ∧
      Renders true tabbedTree tabbedText ∧ read (Text.encodeUtf8 tabbedText) = .ok tabbedTree) ∧
    (slashedTree.WellFormed ∧ (∀ space ∈ slashedTree.namespaces, Text.OneField space) ∧
      (∀ owner ∈ slashedTree.classes.values, FitsFields owner) ∧
      read (Text.encodeUtf8 (render false slashedTree)) = .ok slashedTree) := by
  have spaces : ∀ space ∈ tabbedTree.namespaces, Text.OneField space := by decide
  have plainSpaces : ∀ space ∈ slashedTree.namespaces, Text.OneField space := by decide
  have plain : ∀ owner ∈ slashedTree.classes.values, FitsFields owner := by
    have fits : FitsFields slashedClass :=
      ⟨by decide, fun kind member held => by cases kind <;> cases held⟩
    exact List.forall_mem_cons.mpr ⟨fits, by simp⟩
  refine ⟨⟨tabbedTree_wellFormed, spaces, tabbedText_renders,
    (read_of_renders tabbedTree_wellFormed spaces (by simp)).2 tabbedText tabbedText_renders⟩,
    slashedTree_wellFormed, plainSpaces, plain, ?_⟩
  exact (read_of_renders slashedTree_wellFormed plainSpaces fun _ => plain).2 _ (render_renders false slashedTree)

end file

end TinyFile

end JarRemap
