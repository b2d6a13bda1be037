import JarRemap.Proofs.TableComposition

/-!
# What tables hold

A table that is built by inserting holds what was inserted, and nothing else (`Records`). Where two entries
for one place came in, one of them is held; where places are never used twice, the table holds exactly what
was inserted. An owner is only listed together with a member, so tables that answer alike are the same.
-/
namespace JarRemap

open OrderedMap Outcome

namespace MappingTable

variable {table left right : MappingTable} {source target : String}

/-- The table leads from one namespace to the other, and every owner that it lists has a member. -/
structure Joins (source target : String) (table : MappingTable) : Prop where
  source_eq : table.source = source
  target_eq : table.target = target
  occupied : ∀ owner ∈ table.members.keys, ∃ kind name descriptor,
    (table.member? kind owner name descriptor).isSome

theorem joins_empty (source target : String) : Joins source target (empty source target) :=
  ⟨rfl, rfl, fun _ listed => by cases listed⟩

section

variable (joins : Joins source target table)
include joins

theorem Joins.insertClass (name newName : String) :
    Joins source target (table.insertClass name newName) :=
  ⟨joins.source_eq, joins.target_eq, joins.occupied⟩

theorem Joins.insertMember (entry : MemberEntry) :
    Joins source target (table.insertMember entry) := by
  refine ⟨joins.source_eq, joins.target_eq, fun owner listed => ?_⟩
  by_cases here : entry.owner = owner
  · refine ⟨entry.kind, entry.key.name, entry.key.descriptor, ?_⟩
    rw [member?_insertMember, if_pos ⟨rfl, here, rfl⟩]
    rfl
  · have before : owner ∈ table.members.keys := by
      rw [mem_keys] at listed ⊢
      simpa [MappingTable.insertMember, OrderedMap.update, here] using listed
    obtain ⟨kind, name, descriptor, held⟩ := joins.occupied owner before
    refine ⟨kind, name, descriptor, ?_⟩
    rw [member?_insertMember]
    split
    · rfl
    · exact held

theorem Joins.mem_keys {owner : String} : owner ∈ table.members.keys ↔
      ∃ kind name descriptor, (table.member? kind owner name descriptor).isSome := by
  refine ⟨joins.occupied owner, ?_⟩
  rintro ⟨kind, name, descriptor, held⟩
  obtain ⟨newName, found⟩ := Option.isSome_iff_exists.mp held
  obtain ⟨members, listed, -⟩ := Option.bind_eq_some_iff.mp found
  rw [OrderedMap.mem_keys, listed]
  rfl

end

section

variable (leftJoins : Joins source target left) (rightJoins : Joins source target right)
include leftJoins rightJoins

theorem Joins.same (classes : left.class? = right.class?) (members : left.member? = right.member?) :
    left.same right := by
  have sameOwners (owner : String) : owner ∈ left.members.keys ↔ owner ∈ right.members.keys := by
    rw [leftJoins.mem_keys, rightJoins.mem_keys, members]
  have sameMembers (owner : String) :
      Option.Rel (fun one other => MemberTable.same one other) (left.members.get? owner)
        (right.members.get? owner) := by
    have listed := sameOwners owner
    rw [OrderedMap.mem_keys, OrderedMap.mem_keys] at listed
    cases one : left.members.get? owner with
    | none =>
      cases other : right.members.get? owner with
      | none => exact .none
      | some _ => simp [one, other] at listed
    | some leftMembers =>
      cases other : right.members.get? owner with
      | none => simp [one, other] at listed
      | some rightMembers =>
        have answers (kind : MemberKind) (key : MemberKey) :
            (leftMembers.ofKind kind).get? key = (rightMembers.ofKind kind).get? key := by
          simpa [member?, one, other] using congrFun (congrFun (congrFun (congrFun members kind) owner)
            key.name) key.descriptor
        refine .some ?_
        rw [MemberTable.same, Bool.and_eq_true, OrderedMap.sameEntries_beq_iff, OrderedMap.sameEntries_beq_iff]
        exact ⟨answers .field, answers .method⟩
  rw [MappingTable.same, Bool.and_eq_true, Bool.and_eq_true, Bool.and_eq_true, beq_iff_eq, beq_iff_eq,
    OrderedMap.sameEntries_beq_iff, OrderedMap.sameEntries_iff]
  exact ⟨⟨⟨leftJoins.source_eq.trans rightJoins.source_eq.symm,
    leftJoins.target_eq.trans rightJoins.target_eq.symm⟩, fun name => congrFun classes name⟩, sameMembers⟩

theorem Joins.same_of_entries
    (classes : ∀ name newName, left.class? name = some newName ↔ right.class? name = some newName)
    (members : ∀ entry, entry ∈ left.memberEntries ↔ entry ∈ right.memberEntries) : left.same right := by
  refine leftJoins.same rightJoins ?_ ?_
  · funext name
    exact Option.ext fun newName => classes name newName
  · funext kind owner name descriptor
    refine Option.ext fun newName => ?_
    rw [member?_eq_some, member?_eq_some]
    simp only [members]

end

section records

variable {classes : String → String → Prop} {members : MemberEntry → Prop}

/-- The table holds nothing but the given classes and members, and something at the place of each. -/
structure Records (source target : String) (classes : String → String → Prop)
    (members : MemberEntry → Prop) (table : MappingTable) : Prop extends Joins source target table where
  classOf : ∀ {name newName}, table.class? name = some newName → classes name newName
  classHeld : ∀ {name newName}, classes name newName → (table.class? name).isSome
  memberOf : ∀ {entry}, entry ∈ table.memberEntries → members entry
  memberHeld : ∀ {entry : MemberEntry}, members entry →
    (table.member? entry.kind entry.owner entry.key.name entry.key.descriptor).isSome

theorem records_empty (source target : String) :
    Records source target (fun _ _ => False) (fun _ => False) (empty source target) where
  toJoins := joins_empty source target
  classOf found := by cases found
  classHeld := False.elim
  memberOf listed := by cases listed
  memberHeld := False.elim

section

variable (records : Records source target classes members table)
include records

theorem Records.congr {otherClasses : String → String → Prop} {otherMembers : MemberEntry → Prop}
    (sameClasses : ∀ name newName, classes name newName ↔ otherClasses name newName)
    (sameMembers : ∀ entry, members entry ↔ otherMembers entry) :
    Records source target otherClasses otherMembers table where
  toJoins := records.toJoins
  classOf found := (sameClasses _ _).mp (records.classOf found)
  classHeld asked := records.classHeld ((sameClasses _ _).mpr asked)
  memberOf listed := (sameMembers _).mp (records.memberOf listed)
  memberHeld asked := records.memberHeld ((sameMembers _).mpr asked)

theorem Records.insertClass (name newName : String) :
    Records source target (fun other new => classes other new ∨ other = name ∧ new = newName) members
      (table.insertClass name newName) where
  toJoins := records.toJoins.insertClass name newName
  classOf {other new} found := by
    rw [class?_insertClass] at found
    split at found
    case isTrue here => exact .inr ⟨here.symm, (Option.some.inj found).symm⟩
    case isFalse => exact .inl (records.classOf found)
  classHeld {other new} asked := by
    rw [class?_insertClass]
    split
    case isTrue => rfl
    case isFalse elsewhere =>
      rcases asked with asked | ⟨rfl, -⟩
      · exact records.classHeld asked
      · contradiction
  memberOf listed := records.memberOf listed
  memberHeld asked := records.memberHeld asked

theorem Records.insertMember (entry : MemberEntry) :
    Records source target classes (fun other => members other ∨ other = entry) (table.insertMember entry) where
  toJoins := records.toJoins.insertMember entry
  classOf found := records.classOf found
  classHeld asked := records.classHeld asked
  memberOf {other} listed := by
    rw [mem_memberEntries, member?_insertMember] at listed
    split at listed
    case isTrue here =>
      obtain ⟨owner, kind, key, newName⟩ := other
      obtain ⟨rfl, rfl, sameKey⟩ := here
      obtain rfl : entry.key = key := sameKey
      obtain rfl : entry.newName = newName := Option.some.inj listed
      exact .inr rfl
    case isFalse => exact .inl (records.memberOf (mem_memberEntries.mpr listed))
  memberHeld {other} asked := by
    rw [member?_insertMember]
    split
    case isTrue => rfl
    case isFalse elsewhere =>
      rcases asked with asked | rfl
      · exact records.memberHeld asked
      · exact absurd ⟨rfl, rfl, rfl⟩ elsewhere

end

theorem Records.insertClasses {ι : Type} (key value : ι → String) (entries : List ι)
    (records : Records source target classes members table) : Records source target
      (fun name newName => classes name newName ∨ ∃ entry ∈ entries, name = key entry ∧ newName = value entry)
      members (entries.foldl (fun table entry => table.insertClass (key entry) (value entry)) table) := by
  induction entries generalizing table classes with
  | nil => exact records.congr (by simp) (by simp)
  | cons entry rest ih =>
    refine (ih (records.insertClass (key entry) (value entry))).congr ?_ (by simp)
    simp [or_assoc]

theorem Records.class?_eq_some (records : Records source target classes members table)
    (functional : ∀ {name one other}, classes name one → classes name other → one = other)
    {name newName : String} : table.class? name = some newName ↔ classes name newName := by
  refine ⟨records.classOf, fun asked => ?_⟩
  obtain ⟨held, found⟩ := Option.isSome_iff_exists.mp (records.classHeld asked)
  rw [found, functional asked (records.classOf found)]

theorem Records.mem_memberEntries (records : Records source target classes members table)
    (functional : ∀ {one other : MemberEntry}, members one → members other →
      one.IsAt other.kind other.owner other.key.name other.key.descriptor → one.newName = other.newName)
    {entry : MemberEntry} : entry ∈ table.memberEntries ↔ members entry := by
  refine ⟨records.memberOf, fun asked => ?_⟩
  obtain ⟨newName, found⟩ := Option.isSome_iff_exists.mp (records.memberHeld asked)
  have held : { entry with newName } ∈ table.memberEntries := MappingTable.mem_memberEntries.mpr found
  have same : newName = entry.newName := functional (records.memberOf held) asked ⟨rfl, rfl, rfl⟩
  rwa [same] at held

end records

section invert

variable {back : MappingTable}

/-- The member of the entry under its new names, with the old name to lead back to. -/
def turned (table : MappingTable) (entry : MemberEntry) (descriptor : String) : MemberEntry where
  owner := table.className entry.owner
  kind := entry.kind
  key := ⟨entry.newName, descriptor⟩
  newName := entry.key.name

/-- The entry is one of the given ones, turned around. -/
def IsTurned (table : MappingTable) (entries : List MemberEntry) (entry : MemberEntry) : Prop :=
  ∃ old ∈ entries, ∃ descriptor, table.mapDescriptor old.key.descriptor = .ok descriptor ∧
    entry = table.turned old descriptor

theorem invert_records (inverted : table.invert = .ok back) :
    Records table.target table.source (fun name newName => table.class? newName = some name)
      (table.IsTurned table.memberEntries) back := by
  have start : Records table.target table.source (fun name newName => table.class? newName = some name)
      (table.IsTurned []) table.invertClasses := by
    refine ((records_empty table.target table.source).insertClasses Prod.snd Prod.fst
      table.classes.entries).congr (fun name newName => ?_) (by simp [IsTurned])
    simp [class?, ← mem_entries]
  refine foldlM_induction (fun done state => Records table.target table.source
    (fun name newName => table.class? newName = some name) (table.IsTurned done) state) ?_ start inverted
  intro done state old after records stepped
  simp only [bind_eq_ok, pure_eq_ok] at stepped
  obtain ⟨descriptor, mapped, rfl⟩ := stepped
  refine (records.insertMember (table.turned old descriptor)).congr (by simp) fun entry => ?_
  simp [IsTurned, or_and_right, exists_or, mapped]

theorem exists_invert (mapped : ∀ entry ∈ table.memberEntries,
    ∃ descriptor, table.mapDescriptor entry.key.descriptor = .ok descriptor) : ∃ back, table.invert = .ok back := by
  unfold invert
  refine exists_foldlM ?_ _
  intro entry listed state
  obtain ⟨descriptor, renamed⟩ := mapped entry listed
  exact ⟨_, bind_eq_ok.mpr ⟨descriptor, renamed, rfl⟩⟩

end invert

/-- What holds of the empty table and is kept by what is inserted holds of the table that is taken from a tree. The
owner of a member is inserted before it. -/
theorem ofTree_induction {tree : MappingTree} (Holds : MappingTable → Prop) (start : Holds (empty source target))
    (insertClass : ∀ {state} name newName, Holds state → Holds (state.insertClass name newName))
    (insertMember : ∀ {state : MappingTable} {entry : MemberEntry}, (state.class? entry.owner).isSome → Holds state →
      Holds (state.insertMember entry)) (taken : ofTree tree source target = .ok table) : Holds table := by
  simp only [ofTree, bind_eq_ok] at taken
  obtain ⟨_, -, _, -, _, -, filled⟩ := taken
  refine foldlM_induction (fun _ => Holds) ?_ start filled
  intro _ state classNames after holds stepped
  simp only [bind_eq_ok] at stepped
  obtain ⟨owner, -, newName, -, inserted⟩ := stepped
  have owned : ((state.insertClass owner newName).class? owner).isSome := by simp
  refine (foldlM_induction (fun _ state => Holds state ∧ (state.class? owner).isSome) ?_
    ⟨insertClass owner newName holds, owned⟩ inserted).1
  intro _ state kind after holds ofKind
  refine foldlM_induction (fun _ state => Holds state ∧ (state.class? owner).isSome) ?_ holds ofKind
  rintro _ state member after ⟨holds, owned⟩ stepped
  simp only [bind_eq_ok, pure_eq_ok] at stepped
  obtain ⟨_, -, _, -, _, -, rfl⟩ := stepped
  exact ⟨insertMember owned holds, owned⟩

section compose

variable {first next back : MappingTable}

theorem composeClasses_joins (first next : MappingTable) :
    Joins first.source next.target (first.composeClasses next) := by
  have followed : Joins first.source next.target (first.followClasses next) :=
    ((records_empty first.source next.target).insertClasses Prod.fst (next.className ∘ Prod.snd)
      first.classes.entries).toJoins
  rw [composeClasses_eq]
  generalize first.followClasses next = start at followed
  generalize next.classes.entries.filter _ = entries
  induction entries generalizing start with
  | nil => exact followed
  | cons entry rest ih => exact ih _ (followed.insertClass _ _)

theorem compose_joins (composed : first.compose next = .ok table) : Joins first.source next.target table := by
  rw [compose] at composed
  split at composed
  case isTrue => exact absurd composed fail_ne_ok
  case isFalse =>
    simp only [bind_eq_ok] at composed
    obtain ⟨back, -, ⟨between, covered⟩, followRun, carryRun⟩ := composed
    have followed : Joins first.source next.target between := by
      refine foldlM_induction (fun _ state => Joins first.source next.target state.1) ?_
        (composeClasses_joins first next) followRun
      intro _ state entry after joins stepped
      obtain ⟨middle, -, same, -⟩ := followMember_eq_ok stepped
      rw [same]
      exact joins.insertMember _
    refine foldlM_induction (fun _ state => Joins first.source next.target state) ?_ followed carryRun
    intro _ state entry after joins stepped
    rw [carryMember] at stepped
    split at stepped
    · rwa [← pure_eq_ok.mp stepped]
    · obtain ⟨descriptor, -, stepped⟩ := bind_eq_ok.mp stepped
      split at stepped
      · rwa [← pure_eq_ok.mp stepped]
      · rw [← pure_eq_ok.mp stepped]
        exact joins.insertMember _

/-- Two tables in a row can be composed if all descriptors can be renamed, those of the first table forwards
and those of the second one backwards. -/
theorem exists_compose (meet : first.target = next.source) (inverted : first.invert = .ok back)
    (forwards : ∀ entry ∈ first.memberEntries, ∃ descriptor, first.mapDescriptor entry.key.descriptor = .ok descriptor)
    (backwards : ∀ entry ∈ next.memberEntries, ∃ descriptor, back.mapDescriptor entry.key.descriptor = .ok descriptor) :
    ∃ table, first.compose next = .ok table := by
  have follows : ∀ entry ∈ first.memberEntries, ∀ state, ∃ after, first.followMember next state entry = .ok after := by
    intro entry listed state
    obtain ⟨descriptor, mapped⟩ := forwards entry listed
    exact ⟨_, bind_eq_ok.mpr ⟨_, middleMember_eq_ok.mpr ⟨rfl, rfl, mapped⟩, rfl⟩⟩
  obtain ⟨⟨between, covered⟩, followRun⟩ := exists_foldlM follows (first.composeClasses next, [])
  have carries : ∀ entry ∈ next.memberEntries, ∀ state, ∃ after, carryMember back covered state entry = .ok after := by
    intro entry listed state
    obtain ⟨descriptor, mapped⟩ := backwards entry listed
    rw [carryMember]
    split
    · exact ⟨_, rfl⟩
    · simp only [bind_eq_ok]
      by_cases present : (state.member? entry.kind (back.className entry.owner) entry.key.name descriptor).isSome
      · exact ⟨state, descriptor, mapped, by rw [if_pos present]; rfl⟩
      · exact ⟨_, descriptor, mapped, by rw [if_neg present]; rfl⟩
  obtain ⟨table, carryRun⟩ := exists_foldlM carries between
  refine ⟨table, ?_⟩
  rw [compose, if_neg (not_not.mpr meet)]
  exact bind_eq_ok.mpr ⟨back, inverted, bind_eq_ok.mpr ⟨_, followRun, carryRun⟩⟩

end compose

end MappingTable

end JarRemap
