import JarRemap.Proofs.TableContents
import JarRemap.Proofs.TableFailures

/-!
# Tables between the namespaces of a tree

A table leads from one namespace of a tree to another one (`Between`) if its classes are those of the tree
under their names in the two namespaces, and its members likewise. There is only one such table. Between clear
namespaces, turning a table around leads back, and two tables in a row lead on.
-/
namespace JarRemap

open MappingTree Outcome Descriptor List

namespace MappingTable

variable {tree : MappingTree} {i j k : Nat} {table next back composed left right : MappingTable}
  {source target : String}

/-- One of the classes has these names at `i` and `j`. -/
abbrev NamesOne (owners : List ClassNames) (i j : Nat) (name newName : String) : Prop :=
  ∃ owner ∈ owners, owner.names[i]? = some name ∧ owner.names[j]? = some newName

/-- The table holds the classes and the members of the tree, from the namespace at `i` to the one at `j`. -/
structure Between (tree : MappingTree) (i j : Nat) (table : MappingTable) : Prop where
  classes : ∀ {name newName}, table.class? name = some newName ↔
    ∃ owner ∈ tree.classes.values, owner.names[i]? = some name ∧ owner.names[j]? = some newName
  members : ∀ {entry}, entry ∈ table.memberEntries ↔ ∃ owner member, tree.IsEntry i j owner member entry

theorem Records.between (clear : tree.Clear i) (records : Records source target (NamesOne tree.classes.values i j)
      (fun entry => ∃ owner member, tree.IsEntry i j owner member entry) table) : Between tree i j table where
  classes := by
    refine records.class?_eq_some ?_
    rintro name one another ⟨owner, listed, called, renamed⟩ ⟨other, otherListed, otherCalled, otherRenamed⟩
    obtain rfl : owner = other := clear.eq_of_name listed otherListed (called.trans otherCalled.symm)
    rw [renamed] at otherRenamed
    exact Option.some.inj otherRenamed
  members := by
    refine records.mem_memberEntries ?_
    rintro one other ⟨owner, member, isOne⟩ ⟨_, _, isOther⟩ same
    obtain ⟨rfl, rfl⟩ := isOne.unique clear isOther same
    have renamed := isOne.renamed
    rw [isOther.renamed] at renamed
    exact (Option.some.inj renamed).symm

namespace Between

theorem same (leftJoins : Joins source target left)
    (rightJoins : Joins source target right) (isLeft : Between tree i j left)
    (isRight : Between tree i j right) : left.same right :=
  leftJoins.same_of_entries rightJoins (fun _ _ => isLeft.classes.trans isRight.classes.symm)
    fun _ => isLeft.members.trans isRight.members.symm

/-- Names in descriptors go from what they are in the one namespace to what they are in the other. -/
theorem className_nameIn (between : Between tree i j table) (source : tree.Clear i) (target : tree.Clear j)
    {name : String} (mentioned : tree.Mentions name) : table.className (tree.nameIn i name) = tree.nameIn j name := by
  cases held : tree.classes.get? name with
  | some owner =>
    have listed : owner ∈ tree.classes.values := OrderedMap.mem_values.mpr ⟨name, held⟩
    obtain ⟨oldName, called⟩ := source.wellFormed.exists_name source.inside listed
    obtain ⟨newName, renamed⟩ := target.wellFormed.exists_name target.inside listed
    rw [nameIn_of_class held called, nameIn_of_class held renamed]
    exact className_of_some (between.classes.mpr ⟨owner, listed, called, renamed⟩)
  | none =>
    obtain ⟨place, placeListed, kind, member, memberHeld, named⟩ := mentioned
    rw [nameIn_of_foreign held, nameIn_of_foreign held]
    refine className_of_none (Option.eq_none_iff_forall_ne_some.mpr fun newName found => ?_)
    obtain ⟨other, listed, called, -⟩ := between.classes.mp found
    exact source.foreign place placeListed kind member memberHeld name named held other listed called

section members

variable {owner : ClassNames} {member : MemberNames} {entry : MemberEntry}

section

variable (between : Between tree i j table)
include between

theorem className_owner (isEntry : tree.IsEntry i k owner member entry) {newOwner : String}
    (called : owner.names[j]? = some newOwner) : table.className entry.owner = newOwner :=
  className_of_some (between.classes.mpr ⟨owner, isEntry.listed, isEntry.owned, called⟩)

theorem mapDescriptor_entry (source : tree.Clear i) (target : tree.Clear j)
    (isEntry : tree.IsEntry i k owner member entry) : table.mapDescriptor entry.key.descriptor =
      .ok (rename (tree.nameIn j) member.descriptor) := by
  have complete : Complete member.descriptor := isEntry.complete source.described
  have separated (name : String) (named : name ∈ names member.descriptor) :
      ';' ∉ (tree.nameIn i name).toList := source.separated_nameIn (isEntry.mentions named)
  rw [mapDescriptor_eq_ok, isEntry.described]
  refine ⟨complete_rename complete separated, ?_⟩
  rw [rename_rename complete separated]
  refine rename_congr fun name named => ?_
  exact (between.className_nameIn source target (isEntry.mentions named)).symm

theorem exists_mapDescriptor (source : tree.Clear i) (target : tree.Clear j) (parallel : Between tree i k next) :
    ∀ entry ∈ next.memberEntries, ∃ descriptor, table.mapDescriptor entry.key.descriptor = .ok descriptor := by
  intro entry listed
  obtain ⟨owner, member, isEntry⟩ := parallel.members.mp listed
  exact ⟨_, between.mapDescriptor_entry source target isEntry⟩

theorem middleMember_entry (source : tree.Clear i) (target : tree.Clear j)
    (isEntry : tree.IsEntry i j owner member entry) {moved : MemberEntry}
    (isMoved : tree.IsEntry j k owner member moved) :
    table.middleMember entry = .ok (moved.owner, moved.key.name, moved.key.descriptor) := by
  refine middleMember_eq_ok.mpr ⟨between.className_owner isEntry isMoved.owned, ?_, ?_⟩
  · have renamed := isEntry.renamed
    rw [isMoved.named] at renamed
    exact (Option.some.inj renamed).symm
  · rw [between.mapDescriptor_entry source target isEntry, isMoved.described]

theorem member?_entry (isEntry : tree.IsEntry i j owner member entry) :
    table.member? entry.kind entry.owner entry.key.name entry.key.descriptor = some entry.newName :=
  mem_memberEntries.mp (between.members.mpr ⟨owner, member, isEntry⟩)

end

end members

section

variable (between : Between tree i j table) {entry : MemberEntry}
include between

theorem invert (source : tree.Clear i) (target : tree.Clear j) :
    ∃ back, table.invert = .ok back ∧ Joins table.target table.source back ∧ Between tree j i back := by
  obtain ⟨back, inverted⟩ := exists_invert (between.exists_mapDescriptor source target between)
  have records := invert_records inverted
  refine ⟨back, inverted, records.toJoins, (records.congr (fun name newName => ?_) fun entry => ?_).between target⟩
  · rw [between.classes]
    simp only [NamesOne, and_comm]
  · constructor
    · rintro ⟨old, listed, descriptor, renamed, rfl⟩
      obtain ⟨owner, member, isOld⟩ := between.members.mp listed
      obtain ⟨newOwner, called⟩ := target.wellFormed.exists_name target.inside isOld.listed
      rw [between.mapDescriptor_entry source target isOld] at renamed
      refine ⟨owner, member, ⟨?_, isOld.renamed, (Except.ok.inj renamed).symm, isOld.named⟩, isOld.listed, isOld.held⟩
      rw [called, turned, between.className_owner isOld called]
    · rintro ⟨owner, member, isEntry⟩
      obtain ⟨old, isOld, sameKind⟩ := isEntry.exists_entry source.wellFormed source.inside target.inside
      refine ⟨old, between.members.mpr ⟨owner, member, isOld⟩, _, between.mapDescriptor_entry source target isOld, ?_⟩
      rw [turned, between.className_owner isOld isEntry.owned]
      exact (kind_and_spells_iff isEntry.owned isOld.renamed isOld.named).mp
        ⟨sameKind.symm, isEntry.toSpells⟩

section

variable (further : Between tree j k next)
include further

theorem covers (source : tree.Clear i) (middle : tree.Clear j)
    (listed : entry ∈ next.memberEntries) : table.Covers entry.owner entry.key.name entry.key.descriptor := by
  obtain ⟨owner, member, isEntry⟩ := further.members.mp listed
  obtain ⟨old, isOld, -⟩ := isEntry.exists_entry source.wellFormed source.inside middle.inside
  exact ⟨old, between.members.mpr ⟨owner, member, isOld⟩, between.middleMember_entry source middle isOld isEntry⟩

/-- The composed table renames classes from the first namespace to the last. -/
theorem composed_classes (source : tree.Clear i) (middle : tree.Clear j)
    (target : tree.Clear k) (answers : Composed table next back composed) {name newName : String} :
    composed.class? name = some newName ↔ NamesOne tree.classes.values i k name newName := by
  have followed {owner : ClassNames} {middleName lastName : String} (listed : owner ∈ tree.classes.values)
      (called : owner.names[j]? = some middleName) (renamed : owner.names[k]? = some lastName) :
      next.className middleName = lastName :=
    className_of_some (further.classes.mpr ⟨owner, listed, called, renamed⟩)
  rw [answers.classes]
  constructor
  · intro found
    cases first : table.class? name with
    | some middleName =>
      obtain ⟨owner, listed, called, onward⟩ := between.classes.mp first
      obtain ⟨lastName, renamed⟩ := target.wellFormed.exists_name target.inside listed
      obtain rfl : lastName = newName := by
        rw [first, Option.some.injEq, followed listed onward renamed] at found
        exact found
      exact ⟨owner, listed, called, renamed⟩
    | none =>
      -- The second table has no class that the first one does not lead to.
      rw [first] at found
      obtain ⟨fresh, held⟩ := Option.ite_none_left_eq_some.mp found
      obtain ⟨owner, listed, called, -⟩ := further.classes.mp held
      obtain ⟨oldName, old⟩ := source.wellFormed.exists_name source.inside listed
      exact absurd (mem_classes_values.mpr ⟨oldName, between.classes.mpr ⟨owner, listed, old, called⟩⟩) fresh
  · rintro ⟨owner, listed, called, renamed⟩
    obtain ⟨middleName, onward⟩ := middle.wellFormed.exists_name middle.inside listed
    rw [between.classes.mpr ⟨owner, listed, called, onward⟩]
    exact congrArg some (followed listed onward renamed)

/-- The composed table renames members from the first namespace to the last. -/
theorem composed_members (source : tree.Clear i) (middle : tree.Clear j)
    (target : tree.Clear k) (answers : Composed table next back composed) :
    entry ∈ composed.memberEntries ↔ ∃ owner member, tree.IsEntry i k owner member entry := by
  have followed {owner : ClassNames} {member : MemberNames} {old : MemberEntry}
      (isOld : tree.IsEntry i j owner member old) :
      ∃ lastName, member.names[k]? = some lastName ∧
        composed.member? old.kind old.owner old.key.name old.key.descriptor = some lastName := by
    obtain ⟨moved, isMoved, sameKind⟩ := isOld.exists_entry middle.wellFormed middle.inside target.inside
    obtain ⟨descriptor, mapped, found⟩ := answers.followed (between.member?_entry isOld)
    obtain ⟨sameOwner, sameName, moves⟩ :=
      middleMember_eq_ok.mp (between.middleMember_entry source middle isOld isMoved)
    obtain rfl : descriptor = moved.key.descriptor := Outcome.unique mapped moves
    refine ⟨moved.newName, isMoved.renamed, ?_⟩
    rw [found, sameOwner, sameName, ← sameKind, memberName_of_some (further.member?_entry isMoved)]
  rw [mem_memberEntries]
  constructor
  · intro found
    cases first : table.member? entry.kind entry.owner entry.key.name entry.key.descriptor with
    | some middleName =>
      have listed : { entry with newName := middleName } ∈ table.memberEntries := mem_memberEntries.mpr first
      obtain ⟨owner, member, isOld⟩ := between.members.mp listed
      obtain ⟨lastName, renamed, answered⟩ := followed isOld
      obtain rfl : lastName = entry.newName := Option.mem_unique answered found
      exact ⟨owner, member, ⟨isOld.owned, isOld.named, isOld.described, renamed⟩, isOld.listed, isOld.held⟩
    | none =>
      -- Nothing is carried over: every entry of the second table is reached from the first.
      obtain ⟨carried, listed, -, -, -, -, -, uncovered⟩ := answers.carried first found
      exact absurd (between.covers further source middle listed) uncovered
  · rintro ⟨owner, member, isEntry⟩
    obtain ⟨middleName, renamed⟩ := middle.wellFormed.exists_memberName middle.inside isEntry.listed isEntry.held
    have isOld : tree.IsEntry i j owner member { entry with newName := middleName } :=
      ⟨⟨isEntry.owned, isEntry.named, isEntry.described, renamed⟩, isEntry.listed, isEntry.held⟩
    obtain ⟨lastName, last, answered⟩ := followed isOld
    rw [isEntry.renamed] at last
    rw [Option.some.inj last]
    exact answered

theorem compose (source : tree.Clear i) (middle : tree.Clear j)
    (target : tree.Clear k) (meet : table.target = next.source) :
    ∃ composed, table.compose next = .ok composed ∧ Joins table.source next.target composed ∧
      Between tree i k composed := by
  obtain ⟨back, inverted, -, backwards⟩ := between.invert source middle
  obtain ⟨composed, run⟩ := exists_compose meet inverted
    (between.exists_mapDescriptor source middle between)
    (backwards.exists_mapDescriptor middle source further)
  obtain ⟨_, answers⟩ := compose_composed run
  exact ⟨composed, run, compose_joins run, between.composed_classes further source middle target answers,
    between.composed_members further source middle target answers⟩

end

end

end Between

section ofTree

variable {source target ownerName : String} {descriptors start : MappingTable} {owner : ClassNames}
  {kind : MemberKind} {classes : String → String → Prop} {members : MemberEntry → Prop}

/-- The table for descriptors gives each class its name in the namespace. -/
theorem className_descriptors (wellFormed : tree.WellFormed) (run : tree.classes.values.foldlM (fun table owner => do
      return table.insertClass (← nameAt owner.names 0) (← nameAt owner.names i)) (empty source target) =
        .ok descriptors) : descriptors.className = tree.nameIn i := by
  have records : Records source target (NamesOne tree.classes.values 0 i) (fun _ => False) descriptors := by
    refine foldlM_induction (fun done state => Records source target (NamesOne done 0 i) (fun _ => False) state) ?_
      ((records_empty source target).congr (by simp) (by simp)) run
    intro done state owner after records stepped
    simp only [bind_eq_ok, pure_eq_ok, nameAt_eq_ok] at stepped
    obtain ⟨name, called, newName, renamed, rfl⟩ := stepped
    refine (records.insertClass name newName).congr (fun other new => ?_) (by simp)
    simp [NamesOne, or_and_right, exists_or, called, renamed, eq_comm]
  have answers {name newName : String} :
      descriptors.class? name = some newName ↔ NamesOne tree.classes.values 0 i name newName := by
    refine records.class?_eq_some ?_
    rintro name one another ⟨owner, listed, called, renamed⟩ ⟨other, otherListed, otherCalled, otherRenamed⟩
    obtain rfl : owner = other := by
      have held := wellFormed.get?_first listed called
      rw [wellFormed.get?_first otherListed otherCalled] at held
      exact (Option.some.inj held).symm
    exact Option.mem_unique renamed otherRenamed
  funext name
  have same : descriptors.class? name = (tree.classes.get? name).bind fun owner => owner.names[i]? := by
    refine Option.ext fun newName => ?_
    rw [answers, Option.bind_eq_some_iff]
    constructor
    · rintro ⟨owner, listed, called, renamed⟩
      exact ⟨owner, wellFormed.get?_first listed called, renamed⟩
    · rintro ⟨owner, held, renamed⟩
      have called : owner.names[0]? = some name := by
        rw [← head?_eq_getElem?]
        exact wellFormed.named name owner held
      exact ⟨owner, OrderedMap.mem_values.mpr ⟨name, held⟩, called, renamed⟩
  rw [className, same, MappingTree.nameIn]

section

variable (renames : descriptors.className = tree.nameIn i) (owned : owner.names[i]? = some ownerName)
  (records : Records source target classes members start)
include renames owned records

/-- Members that come in one after another are recorded with their names. -/
theorem insertMembers_records {values : List MemberNames} (run : values.foldlM (fun table member => do
      let descriptor ← descriptors.mapDescriptor member.descriptor
      let name ← nameAt member.names i
      let newName ← nameAt member.names j
      return table.insertMember ⟨ownerName, kind, ⟨name, descriptor⟩, newName⟩) start = .ok table) :
    Records source target classes
      (fun entry => members entry ∨ entry.kind = kind ∧ ∃ member ∈ values, tree.Spells i j owner member entry)
      table := by
  refine foldlM_induction (fun done state => Records source target classes
    (fun entry => members entry ∨ entry.kind = kind ∧ ∃ member ∈ done, tree.Spells i j owner member entry)
    state) ?_ (records.congr (by simp) (by simp)) run
  intro done state member after before stepped
  simp only [bind_eq_ok, pure_eq_ok, nameAt_eq_ok, mapDescriptor_eq_ok, renames] at stepped
  obtain ⟨descriptor, ⟨-, rfl⟩, name, named, newName, renamed, rfl⟩ := stepped
  refine (before.insertMember _).congr (by simp) fun entry => ?_
  rw [← kind_and_spells_iff owned named renamed]
  simp only [mem_append, mem_singleton, or_and_right, exists_or, exists_eq_left, and_or_left, or_assoc]

theorem insertMembersOf_records (run : start.insertMembersOf descriptors i j ownerName owner = .ok table) :
    Records source target classes (fun entry => members entry ∨
        ∃ member ∈ (owner.members entry.kind).values, tree.Spells i j owner member entry) table := by
  simp only [insertMembersOf, foldlM_cons, foldlM_nil, bind_eq_ok, pure_eq_ok] at run
  obtain ⟨between, fieldRun, _, methodRun, rfl⟩ := run
  have fieldRecords := insertMembers_records renames owned records fieldRun
  refine (insertMembers_records renames owned fieldRecords methodRun).congr (by simp) fun entry => ?_
  cases kind : entry.kind <;> simp

end

/-- The table that is taken from a tree holds its classes and members. It is only there if the descriptors
can be cut into pieces. -/
theorem ofTree_between (wellFormed : tree.WellFormed) (unambiguous : tree.UnambiguousAt (tree.namespaces.idxOf source))
    (run : ofTree tree source target = .ok table) :
    tree.Clear (tree.namespaces.idxOf source) ∧ target ∈ tree.namespaces ∧ Joins source target table ∧
      Between tree (tree.namespaces.idxOf source) (tree.namespaces.idxOf target) table := by
  have described : tree.Described :=
    fun owner listed kind member held => (members_of_ofTree run owner listed kind member held).1
  simp only [ofTree, bind_eq_ok, position_eq_ok] at run
  obtain ⟨_, ⟨sourceListed, rfl⟩, _, ⟨targetListed, rfl⟩, descriptors, prepared, filled⟩ := run
  have renames := className_descriptors wellFormed prepared
  generalize tree.namespaces.idxOf target = j at filled ⊢
  have inside : tree.namespaces.idxOf source < tree.namespaces.length := idxOf_lt_length_of_mem sourceListed
  generalize tree.namespaces.idxOf source = i at filled renames unambiguous inside ⊢
  -- The loop only says what may be held at each place. That nothing was written over follows at the end.
  have records : Records source target (NamesOne tree.classes.values i j)
      (fun entry => ∃ owner ∈ tree.classes.values,
        ∃ member ∈ (owner.members entry.kind).values, tree.Spells i j owner member entry) table := by
    refine foldlM_induction (fun done state => Records source target (NamesOne done i j)
      (fun entry => ∃ owner ∈ done,
        ∃ member ∈ (owner.members entry.kind).values, tree.Spells i j owner member entry) state) ?_
      ((records_empty source target).congr (by simp) (by simp)) filled
    intro done state owner after records stepped
    simp only [bind_eq_ok, nameAt_eq_ok] at stepped
    obtain ⟨ownerName, owned, newName, renamed, inserted⟩ := stepped
    refine (insertMembersOf_records renames owned (records.insertClass ownerName newName) inserted).congr ?_ ?_
    · simp [NamesOne, or_and_right, exists_or, owned, renamed, eq_comm]
    · simp [or_and_right, exists_or]
  have clear : tree.Clear i := ⟨unambiguous, wellFormed, described, inside⟩
  refine ⟨clear, targetListed, records.toJoins, Records.between clear (records.congr (by simp) fun entry => ?_)⟩
  constructor
  · rintro ⟨owner, listed, member, held, spells⟩
    exact ⟨owner, member, spells, listed, held⟩
  · rintro ⟨owner, member, isEntry⟩
    exact ⟨owner, isEntry.listed, member, isEntry.held, isEntry.toSpells⟩

end ofTree

end MappingTable

end JarRemap
