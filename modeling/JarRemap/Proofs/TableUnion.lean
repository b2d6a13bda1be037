import JarRemap.Proofs.TableLookups

/-!
# Tables that are united

The entries of the second table are gone through one after another, and the first one that the other table
has under another name stops everything. The loops over classes, over owners and over the members of an owner
are one loop (`OrderedMap.mergeWith`). Since no key comes twice, the order of the entries does not matter.
-/
namespace JarRemap

open List Outcome List

theorem Outcome.foldlM_part {α σ τ : Type} {step : σ → α → Outcome σ} {partStep : τ → α → Outcome τ}
    (whole : τ → σ) (steps : ∀ part value, step (whole part) value = whole <$> partStep part value)
    (values : List α) (part : τ) : values.foldlM step (whole part) = whole <$> values.foldlM partStep part := by
  induction values generalizing part with
  | nil => rfl
  | cons value values ih =>
    rw [foldlM_cons, foldlM_cons, steps]
    cases partStep part value with
    | error failure => rfl
    | ok next => exact ih next

namespace OrderedMap

variable {κ ν : Type} [DecidableEq κ] {map result : OrderedMap κ ν} {entries : List (κ × ν)}
  {combine : κ → Option ν → ν → Outcome ν} {key : κ}

/-- Goes through some entries. The value of each is joined with what the map has for its key. -/
def mergeWith (combine : κ → Option ν → ν → Outcome ν) (map : OrderedMap κ ν) (entries : List (κ × ν)) :
    Outcome (OrderedMap κ ν) :=
  entries.foldlM (fun map entry => map.insert entry.1 <$> combine entry.1 (map.get? entry.1) entry.2) map

theorem mergeWith_cons_eq_ok {value : ν} : mergeWith combine map ((key, value) :: entries) = .ok result ↔
      ∃ joined, combine key (map.get? key) value = .ok joined ∧
        mergeWith combine (map.insert key joined) entries = .ok result := by
  simp only [mergeWith, foldlM_cons, bind_eq_ok, map_eq_ok]
  constructor
  · rintro ⟨_, ⟨joined, combined, rfl⟩, rest⟩
    exact ⟨joined, combined, rest⟩
  · rintro ⟨joined, combined, rest⟩
    exact ⟨_, ⟨joined, combined, rfl⟩, rest⟩

/-- Entries can be merged exactly if each can be combined with what the map holds. -/
theorem exists_mergeWith (distinct : (entries.map Prod.fst).Nodup) :
    (∃ result, mergeWith combine map entries = .ok result) ↔
      ∀ key value, (key, value) ∈ entries → ∃ joined, combine key (map.get? key) value = .ok joined := by
  induction entries generalizing map with
  | nil => exact iff_of_true ⟨map, rfl⟩ (by simp)
  | cons entry rest ih =>
    obtain ⟨head, stored⟩ := entry
    obtain ⟨fresh, distinct⟩ := nodup_cons.mp distinct
    -- What is joined for the first key is not seen by any other one.
    have others (joined : ν) {key : κ} {value : ν} (listed : (key, value) ∈ rest) :
        (map.insert head joined).get? key = map.get? key := by
      have different : head ≠ key := by
        rintro rfl
        exact fresh (mem_map.mpr ⟨_, listed, rfl⟩)
      rw [get?_insert, if_neg different]
    simp only [mergeWith_cons_eq_ok]
    constructor
    · rintro ⟨result, joined, combined, merged⟩ key value listed
      rcases mem_cons.mp listed with here | later
      · cases here
        exact ⟨joined, combined⟩
      · rw [← others joined later]
        exact (ih distinct).mp ⟨result, merged⟩ key value later
    · intro able
      obtain ⟨joined, combined⟩ := able head stored mem_cons_self
      have further : ∃ result, mergeWith combine (map.insert head joined) rest = .ok result := by
        refine (ih distinct).mpr fun key value later => ?_
        rw [others joined later]
        exact able key value (mem_cons_of_mem _ later)
      obtain ⟨result, merged⟩ := further
      exact ⟨result, joined, combined, merged⟩

theorem get?_mergeWith_of_absent (merged : mergeWith combine map entries = .ok result)
    (absent : key ∉ entries.map Prod.fst) : result.get? key = map.get? key := by
  induction entries generalizing map with
  | nil => rw [pure_eq_ok.mp merged]
  | cons entry rest ih =>
    obtain ⟨head, stored⟩ := entry
    obtain ⟨joined, -, merged⟩ := mergeWith_cons_eq_ok.mp merged
    rw [map_cons, mem_cons, not_or] at absent
    rw [ih merged absent.2, get?_insert, if_neg (Ne.symm absent.1)]

theorem get?_mergeWith_of_mem {value : ν} (distinct : (entries.map Prod.fst).Nodup)
    (merged : mergeWith combine map entries = .ok result) (listed : (key, value) ∈ entries) :
    ∃ joined, combine key (map.get? key) value = .ok joined ∧ result.get? key = some joined := by
  induction entries generalizing map with
  | nil => cases listed
  | cons entry rest ih =>
    obtain ⟨head, stored⟩ := entry
    obtain ⟨fresh, distinct⟩ := nodup_cons.mp distinct
    obtain ⟨joined, combined, further⟩ := mergeWith_cons_eq_ok.mp merged
    rcases mem_cons.mp listed with here | later
    · cases here
      refine ⟨joined, combined, ?_⟩
      rw [get?_mergeWith_of_absent further fresh, get?_insert, if_pos rfl]
    · have different : head ≠ key := by
        rintro rfl
        exact fresh (mem_map.mpr ⟨_, later, rfl⟩)
      have found := ih distinct further later
      rwa [get?_insert, if_neg different] at found

theorem mergeWith_self (joins : ∀ key value, map.get? key = some value →
    combine key (some value) value = .ok value) : mergeWith combine map map.entries = .ok map := by
  suffices loop : ∀ entries : List (κ × ν), entries ⊆ map.entries →
      mergeWith combine map entries = .ok map from loop map.entries fun _ listed => listed
  intro entries included
  induction entries with
  | nil => rfl
  | cons entry rest ih =>
    obtain ⟨key, value⟩ := entry
    obtain ⟨listed, included⟩ := cons_subset.mp included
    have held : map.get? key = some value := mem_entries.mp listed
    refine mergeWith_cons_eq_ok.mpr ⟨value, ?_, ?_⟩
    · rw [held]
      exact joins key value held
    · rw [insert_of_held held]
      exact ih included

section values

variable {clash : κ → ν → ν → Cause} [DecidableEq ν] {other : OrderedMap κ ν}

/-- Two values of a key are joined only if they are the same. -/
def combineSame (clash : κ → ν → ν → Cause) (key : κ) : Option ν → ν → Outcome ν
  | some existing, new => if existing = new then .ok new else Outcome.fail (clash key existing new)
  | none, new => .ok new

omit [DecidableEq κ] in
theorem combineSame_eq_ok {held : Option ν} {new joined : ν} : combineSame clash key held new = .ok joined ↔
      (∀ existing, held = some existing → existing = new) ∧ new = joined := by
  cases held with
  | none => simp [combineSame]
  | some existing => by_cases same : existing = new <;> simp [combineSame, same]

/-- The two maps have no key with different values. -/
def Agree (map other : OrderedMap κ ν) : Prop :=
  ∀ key one another, map.get? key = some one → other.get? key = some another → one = another

omit [DecidableEq ν] in
theorem Agree.or_comm (agree : map.Agree other) (key : κ) :
    (map.get? key).or (other.get? key) = (other.get? key).or (map.get? key) := by
  cases held : map.get? key with
  | none => rw [Option.none_or, Option.or_none]
  | some one =>
    cases found : other.get? key with
    | none => rfl
    | some another => rw [agree key one another held found, Option.some_or]

theorem exists_merge_iff :
    (∃ result, mergeWith (combineSame clash) map other.entries = .ok result) ↔ map.Agree other := by
  simp only [exists_mergeWith other.distinct, mem_entries, combineSame_eq_ok, exists_and_left, exists_eq', and_true]
  exact ⟨fun joins key one another held found => joins key another found one held,
    fun agree key another found one held => agree key one another held found⟩

/-- The merged map has the answers of the first map, and for other keys those of the second one. -/
theorem get?_merge (merged : mergeWith (combineSame clash) map other.entries = .ok result) (key : κ) :
    result.get? key = (map.get? key).or (other.get? key) := by
  cases found : other.get? key with
  | none => rw [get?_mergeWith_of_absent merged (get?_eq_none.mp found), Option.or_none]
  | some another =>
    obtain ⟨joined, combined, given⟩ := get?_mergeWith_of_mem other.distinct merged (mem_entries.mpr found)
    obtain ⟨same, rfl⟩ := combineSame_eq_ok.mp combined
    rw [given]
    cases held : map.get? key with
    | none => rfl
    | some one => rw [same one held, Option.some_or]

/-- A search through the merged map goes through the first map and then through the added entries. -/
theorem find?_merge (merged : mergeWith (combineSame clash) map entries = .ok result) (sought : κ × ν → Bool) :
    result.entries.find? sought = (map.entries.find? sought).or (entries.find? sought) := by
  induction entries generalizing map with
  | nil => rw [pure_eq_ok.mp merged, find?_nil, Option.or_none]
  | cons entry rest ih =>
    obtain ⟨key, value⟩ := entry
    obtain ⟨_, combined, merged⟩ := mergeWith_cons_eq_ok.mp merged
    obtain ⟨same, rfl⟩ := combineSame_eq_ok.mp combined
    rw [ih merged]
    cases held : map.get? key with
    | none =>
      rw [entries_insert_of_new held, find?_append, Option.or_assoc, ← find?_append, singleton_append]
    | some existing =>
      obtain rfl := same existing held
      rw [insert_of_held held]
      cases sees : sought (key, existing) with
      | false => rw [find?_cons_of_neg (by simp [sees])]
      | true =>
        -- The entry stands in the first map too, so the search ends there.
        obtain ⟨first, found⟩ := Option.isSome_iff_exists.mp
          (find?_isSome.mpr ⟨_, mem_entries.mpr held, sees⟩)
        rw [found, Option.some_or, Option.some_or]

theorem merge_self (map : OrderedMap κ ν) : mergeWith (combineSame clash) map map.entries = .ok map :=
  mergeWith_self fun _ _ _ => combineSame_eq_ok.mpr ⟨fun _ held => (Option.some.inj held).symm, rfl⟩

def mergeEntry (clash : κ → ν → ν → Cause) (map : OrderedMap κ ν) (entry : κ × ν) : Outcome (OrderedMap κ ν) :=
  match map.get? entry.1 with
  | some existing =>
    if existing = entry.2 then .ok map else Outcome.fail (clash entry.1 existing entry.2)
  | none => .ok (map.insert entry.1 entry.2)

theorem mergeEntry_eq (map : OrderedMap κ ν) (entry : κ × ν) : mergeEntry clash map entry =
      map.insert entry.1 <$> combineSame clash entry.1 (map.get? entry.1) entry.2 := by
  rw [mergeEntry]
  cases held : map.get? entry.1 with
  | none => rfl
  | some existing =>
    by_cases same : existing = entry.2
    · subst same
      simp only [combineSame, if_true]
      exact congrArg Except.ok (insert_of_held held).symm
    · simp only [combineSame, same, if_false]
      rfl

theorem mergeEntries_eq (clash : κ → ν → ν → Cause) (map : OrderedMap κ ν) (entries : List (κ × ν)) :
    entries.foldlM (mergeEntry clash) map = mergeWith (combineSame clash) map entries := by
  unfold mergeWith
  congr 1
  funext map entry
  exact mergeEntry_eq map entry

end values

theorem sameEntries_refl {same : ν → ν → Bool} (reflexive : ∀ value, same value value) : map.sameEntries same map := by
  rw [sameEntries_iff]
  intro key
  cases map.get? key with
  | none => exact .none
  | some value => exact .some (reflexive value)

end OrderedMap

namespace MappingTable

open OrderedMap

variable {table other united : MappingTable} {held : Option MemberTable} {others : MemberTable} {owner : String}

theorem uniteMembers_eq (kind : MemberKind) (owner : String) (others entries : OrderedMap MemberKey String) :
    uniteMembers kind owner others entries = mergeWith (combineSame fun key =>
      .conflictingMember kind.symbol owner key.name key.descriptor) entries others.entries := by
  rw [← mergeEntries_eq]
  unfold uniteMembers
  congr 1
  funext map entry
  simp only [mergeEntry]
  cases map.get? entry.1 <;> rfl

/-- The members that an owner has, with others added. -/
def combineMembers (owner : String) (held : Option MemberTable) (others : MemberTable) :
    Outcome MemberTable := do
  let members := held.getD .empty
  let fields ← uniteMembers .field owner others.fields members.fields
  let methods ← uniteMembers .method owner others.methods members.methods
  return ⟨fields, methods⟩

def uniteClass (table : MappingTable) (entry : String × String) : Outcome MappingTable :=
  match table.class? entry.1 with
  | some existing =>
    if existing = entry.2 then .ok table else Outcome.fail (.conflictingClass entry.1 existing entry.2)
  | none => .ok (table.insertClass entry.1 entry.2)

def uniteOwner (table : MappingTable) (entry : String × MemberTable) : Outcome MappingTable := do
  let members := (table.members.get? entry.1).getD .empty
  let fields ← uniteMembers .field entry.1 entry.2.fields members.fields
  let methods ← uniteMembers .method entry.1 entry.2.methods members.methods
  return { table with members := table.members.insert entry.1 ⟨fields, methods⟩ }

/-- The union merges the classes, then the members of all kinds. -/
theorem unite_eq (table other : MappingTable) : table.unite other = (do
      let classes ← mergeWith (combineSame .conflictingClass) table.classes other.classes.entries
      let members ← mergeWith combineMembers table.members other.members.entries
      return { table with classes, members }) := by
  have classes : other.classes.entries.foldlM uniteClass table = (fun classes => { table with classes }) <$>
      other.classes.entries.foldlM (mergeEntry .conflictingClass) table.classes := by
    refine foldlM_part (fun classes => { table with classes }) ?_ _ table.classes
    intro part entry
    simp only [uniteClass, class?, mergeEntry]
    cases part.get? entry.1 with
    | none => rfl
    | some existing =>
      by_cases same : existing = entry.2
      · simp only [same, if_true]
        rfl
      · simp only [same, if_false]
        rfl
  have members (table : MappingTable) : other.members.entries.foldlM uniteOwner table =
      (fun members => { table with members }) <$>
        mergeWith combineMembers table.members other.members.entries := by
    refine foldlM_part (fun members => { table with members }) ?_ _ table.members
    intro part entry
    simp only [uniteOwner, combineMembers]
    cases uniteMembers .field entry.1 entry.2.fields ((part.get? entry.1).getD .empty).fields with
    | error failure => rfl
    | ok fields =>
      cases uniteMembers .method entry.1 entry.2.methods ((part.get? entry.1).getD .empty).methods <;> rfl
  have split : table.unite other = other.classes.entries.foldlM uniteClass table >>= fun table =>
      other.members.entries.foldlM uniteOwner table := by
    unfold unite
    rfl
  rw [split, classes, mergeEntries_eq]
  cases mergeWith (combineSame .conflictingClass) table.classes other.classes.entries with
  | error failure => rfl
  | ok classes => exact members _

/-- The members of an owner, where an owner that is not listed has none. -/
def membersOf (table : MappingTable) (kind : MemberKind) (owner : String) : OrderedMap MemberKey String :=
  ((table.members.get? owner).getD .empty).ofKind kind

theorem member?_eq (table : MappingTable) (kind : MemberKind) (owner name descriptor : String) :
    table.member? kind owner name descriptor = (table.membersOf kind owner).get? ⟨name, descriptor⟩ := by
  rw [member?, membersOf]
  cases table.members.get? owner with
  | none => simp
  | some members => rfl

theorem memberByName?_eq (table : MappingTable) (kind : MemberKind) (owner name : String) :
    table.memberByName? kind owner name =
      ((table.membersOf kind owner).entries.find? fun entry => entry.1.name == name).map Prod.snd := by
  rw [memberByName?, membersOf]
  cases table.members.get? owner with
  | none => cases kind <;> rfl
  | some members => exact Option.map_eq_bind.symm

theorem combineMembers_eq_ok {joined : MemberTable} :
    combineMembers owner held others = .ok joined ↔ ∀ kind,
      uniteMembers kind owner (others.ofKind kind) ((held.getD .empty).ofKind kind) = .ok (joined.ofKind kind) := by
  simp only [combineMembers, bind_eq_ok, pure_eq_ok]
  constructor
  · rintro ⟨fields, fieldsUnited, methods, methodsUnited, rfl⟩ kind
    cases kind
    · exact fieldsUnited
    · exact methodsUnited
  · intro unites
    exact ⟨joined.fields, unites .field, joined.methods, unites .method, rfl⟩

theorem exists_combineMembers : (∃ joined, combineMembers owner held others = .ok joined) ↔
      ∀ kind, ((held.getD .empty).ofKind kind).Agree (others.ofKind kind) := by
  constructor
  · rintro ⟨joined, combined⟩ kind
    have merged := combineMembers_eq_ok.mp combined kind
    rw [uniteMembers_eq] at merged
    exact exists_merge_iff.mp ⟨_, merged⟩
  · intro agree
    have unites (kind : MemberKind) : ∃ entries,
        uniteMembers kind owner (others.ofKind kind) ((held.getD .empty).ofKind kind) = .ok entries := by
      rw [uniteMembers_eq]
      exact exists_merge_iff.mpr (agree kind)
    obtain ⟨fields, fieldsUnited⟩ := unites .field
    obtain ⟨methods, methodsUnited⟩ := unites .method
    refine ⟨⟨fields, methods⟩, combineMembers_eq_ok.mpr fun kind => ?_⟩
    cases kind
    · exact fieldsUnited
    · exact methodsUnited

theorem unite_eq_ok : table.unite other = .ok united ↔ ∃ classes members,
      mergeWith (combineSame .conflictingClass) table.classes other.classes.entries = .ok classes ∧
      mergeWith combineMembers table.members other.members.entries = .ok members ∧
      { table with classes, members } = united := by
  simp only [unite_eq, bind_eq_ok, pure_eq_ok, exists_and_left]

/-- A class, a field or a method that both tables rename, to different names. -/
inductive Conflicts (table other : MappingTable) : Prop
  | onClass {name one another : String} (held : table.class? name = some one)
    (found : other.class? name = some another) (different : one ≠ another)
  | onMember {kind : MemberKind} {owner name descriptor one another : String}
    (held : table.member? kind owner name descriptor = some one)
    (found : other.member? kind owner name descriptor = some another) (different : one ≠ another)

theorem not_conflicts_iff : ¬ table.Conflicts other ↔ table.classes.Agree other.classes ∧
      ∀ kind owner, (table.membersOf kind owner).Agree (other.membersOf kind owner) := by
  constructor
  · intro peaceful
    refine ⟨fun name one another held found => ?_, fun kind owner key one another held found => ?_⟩
    · by_contra different
      exact peaceful (.onClass held found different)
    · by_contra different
      exact peaceful
        (.onMember ((table.member?_eq ..).trans held) ((other.member?_eq ..).trans found) different)
  · rintro ⟨classes, members⟩ (⟨held, found, different⟩ | ⟨held, found, different⟩)
    · exact different (classes _ _ _ held found)
    · rw [member?_eq] at held found
      exact different (members _ _ _ _ _ held found)

theorem exists_unite : (∃ united, table.unite other = .ok united) ↔ ¬ table.Conflicts other := by
  have classes : (∃ classes, mergeWith (combineSame .conflictingClass) table.classes other.classes.entries =
      .ok classes) ↔ table.classes.Agree other.classes := exists_merge_iff
  have members : (∃ members, mergeWith combineMembers table.members other.members.entries = .ok members) ↔
      ∀ kind owner, (table.membersOf kind owner).Agree (other.membersOf kind owner) := by
    simp only [exists_mergeWith other.members.distinct, mem_entries, exists_combineMembers]
    constructor
    · intro agree kind owner
      cases listed : other.members.get? owner with
      | none => simp [Agree, membersOf, listed]
      | some others => simpa [membersOf, listed] using agree owner others listed kind
    · intro agree owner others listed kind
      simpa [membersOf, listed] using agree kind owner
  rw [not_conflicts_iff, ← classes, ← members]
  simp only [unite_eq_ok]
  constructor
  · rintro ⟨_, classes, members, classesMerged, membersMerged, -⟩
    exact ⟨⟨classes, classesMerged⟩, members, membersMerged⟩
  · rintro ⟨⟨classes, classesMerged⟩, members, membersMerged⟩
    exact ⟨_, classes, members, classesMerged, membersMerged, rfl⟩

section

variable (joined : table.unite other = .ok united) (kind : MemberKind)
include joined

theorem class?_unite (name : String) : united.class? name = (table.class? name).or (other.class? name) := by
  obtain ⟨classes, members, merged, -, rfl⟩ := unite_eq_ok.mp joined
  exact get?_merge merged name

theorem membersOf_unite (owner : String) :
    ∃ clash, mergeWith (combineSame clash) (table.membersOf kind owner) (other.membersOf kind owner).entries =
      .ok (united.membersOf kind owner) := by
  obtain ⟨classes, members, -, merged, rfl⟩ := unite_eq_ok.mp joined
  refine ⟨fun key => .conflictingMember kind.symbol owner key.name key.descriptor, ?_⟩
  simp only [membersOf]
  cases listed : other.members.get? owner with
  | none =>
    rw [get?_mergeWith_of_absent merged (get?_eq_none.mp listed)]
    cases kind <;> rfl
  | some others =>
    obtain ⟨joined, combined, given⟩ := get?_mergeWith_of_mem other.members.distinct merged (mem_entries.mpr listed)
    rw [given, ← uniteMembers_eq]
    exact combineMembers_eq_ok.mp combined kind

theorem member?_unite (owner name descriptor : String) : united.member? kind owner name descriptor =
      (table.member? kind owner name descriptor).or (other.member? kind owner name descriptor) := by
  obtain ⟨clash, merged⟩ := membersOf_unite joined kind owner
  simp only [member?_eq]
  exact get?_merge merged _

theorem memberByName?_unite (owner name : String) : united.memberByName? kind owner name =
      (table.memberByName? kind owner name).or (other.memberByName? kind owner name) := by
  obtain ⟨clash, merged⟩ := membersOf_unite joined kind owner
  simp only [memberByName?_eq, find?_merge merged, Option.map_or]

theorem unite_namespaces : united.source = table.source ∧ united.target = table.target := by
  obtain ⟨_, _, -, -, rfl⟩ := unite_eq_ok.mp joined
  exact ⟨rfl, rfl⟩

end

theorem unite_self (table : MappingTable) : table.unite table = .ok table := by
  refine unite_eq_ok.mpr ⟨_, _, merge_self table.classes, mergeWith_self ?_, rfl⟩
  intro owner members _
  refine combineMembers_eq_ok.mpr fun kind => ?_
  rw [uniteMembers_eq]
  exact merge_self _

theorem Conflicts.symm (conflicts : table.Conflicts other) : other.Conflicts table := by
  cases conflicts with
  | onClass held found different => exact .onClass found held different.symm
  | onMember held found different => exact .onMember found held different.symm

theorem same_refl (table : MappingTable) : table.same table := by
  have members : table.members.sameEntries MemberTable.same table.members := by
    refine sameEntries_refl fun members => ?_
    rw [MemberTable.same, Bool.and_eq_true]
    exact ⟨sameEntries_refl (by simp), sameEntries_refl (by simp)⟩
  rw [same, Bool.and_eq_true, Bool.and_eq_true, Bool.and_eq_true, beq_iff_eq, beq_iff_eq]
  exact ⟨⟨⟨rfl, rfl⟩, sameEntries_refl (by simp)⟩, members⟩

/-- The table renames everything that the other one renames, and to the same names. -/
structure Extends (wider narrower : MappingTable) : Prop where
  classes : ∀ name newName, narrower.class? name = some newName → wider.class? name = some newName
  members : ∀ kind owner name descriptor newName,
    narrower.member? kind owner name descriptor = some newName →
      wider.member? kind owner name descriptor = some newName

section

variable (joined : table.unite other = .ok united)
include joined

theorem unite_extends : united.Extends table := by
  refine ⟨fun name newName held => ?_, fun kind owner name descriptor newName held => ?_⟩
  · rw [class?_unite joined, held, Option.some_or]
  · rw [member?_unite joined, held, Option.some_or]

theorem extends_unite {wider : MappingTable} (first : wider.Extends table) (second : wider.Extends other) :
    wider.Extends united := by
  refine ⟨fun name newName found => ?_, fun kind owner name descriptor newName found => ?_⟩
  · rw [class?_unite joined, Option.or_eq_some_iff] at found
    rcases found with held | ⟨-, held⟩
    · exact first.classes name newName held
    · exact second.classes name newName held
  · rw [member?_unite joined, Option.or_eq_some_iff] at found
    rcases found with held | ⟨-, held⟩
    · exact first.members kind owner name descriptor newName held
    · exact second.members kind owner name descriptor newName held

theorem unite_comm : ∃ swapped, other.unite table = .ok swapped ∧ swapped.class? = united.class? ∧
      swapped.member? = united.member? := by
  have peaceful : ¬ table.Conflicts other := exists_unite.mp ⟨united, joined⟩
  obtain ⟨classes, members⟩ := not_conflicts_iff.mp peaceful
  obtain ⟨swapped, turned⟩ := exists_unite.mpr fun conflicts => peaceful (Conflicts.symm conflicts)
  refine ⟨swapped, turned, ?_, ?_⟩
  · funext name
    rw [class?_unite turned, class?_unite joined]
    exact (classes.or_comm name).symm
  · funext kind owner name descriptor
    simp only [member?_unite turned, member?_unite joined, member?_eq]
    exact ((members kind owner).or_comm _).symm

end

/-- When two tables can be united, and what the united table answers.

It fails exactly if there is a symbol that both tables rename, to different names. Otherwise every symbol goes
the way of the first table, or if this one does not rename it, the way of the second one. So no table that
extends both renames less. The other order gives the same answers, and a table united with itself is the same
table. Only where a member is asked for without its descriptor, the first of its name is given, and then the
order shows if both tables have one. -/
theorem unite_least_extension (table other : MappingTable) :
    ((∃ failure, table.unite other = .error failure) ↔ table.Conflicts other) ∧
    (∀ united, table.unite other = .ok united →
      (∀ name, united.class? name = (table.class? name).or (other.class? name)) ∧
      (∀ kind owner name descriptor, united.member? kind owner name descriptor =
        (table.member? kind owner name descriptor).or (other.member? kind owner name descriptor)) ∧
      (∀ kind owner name, united.memberByName? kind owner name =
        (table.memberByName? kind owner name).or (other.memberByName? kind owner name)) ∧
      (united.Extends table ∧ united.Extends other ∧
        ∀ wider : MappingTable, wider.Extends table → wider.Extends other → wider.Extends united) ∧
      united.source = table.source ∧ united.target = table.target ∧
      ∃ swapped, other.unite table = .ok swapped ∧ swapped.class? = united.class? ∧
        swapped.member? = united.member?) ∧
    table.unite table = .ok table ∧ table.same table := by
  refine ⟨?_, fun united joined => ?_, unite_self table, same_refl table⟩
  · rw [← not_iff_not, ← exists_unite]
    cases table.unite other <;> simp
  · obtain ⟨swapped, turned, sameClasses, sameMembers⟩ := unite_comm joined
    -- Answers are all that extending depends on, and in the other order the second table comes first.
    have second : united.Extends other := by
      obtain ⟨classes, members⟩ := unite_extends turned
      exact ⟨sameClasses ▸ classes, sameMembers ▸ members⟩
    exact ⟨class?_unite joined, member?_unite joined, memberByName?_unite joined,
      ⟨unite_extends joined, second, fun wider => extends_unite joined⟩, (unite_namespaces joined).1,
      (unite_namespaces joined).2, swapped, turned, sameClasses, sameMembers⟩

def methodTable : MappingTable :=
  ((empty "a" "b").insertClass "A" "X").insertMember ⟨"A", .method, ⟨"m", "()V"⟩, "n"⟩

/-- Renames the same class to the same name, another class, and a field of the first one. -/
def fieldTable : MappingTable :=
  (((empty "a" "c").insertClass "A" "X").insertClass "B" "Y").insertMember ⟨"A", .field, ⟨"m", "()V"⟩, "f"⟩

theorem unite_least_extension_samples :
    (∃ united, methodTable.unite fieldTable = .ok united ∧ united.target = "b" ∧ united.class? "B" = some "Y" ∧
      united.member? .method "A" "m" "()V" = some "n" ∧ united.member? .field "A" "m" "()V" = some "f" ∧
      ∃ swapped, fieldTable.unite methodTable = .ok swapped ∧ swapped.member? = united.member?) ∧
    ∃ failure,
      methodTable.unite (fieldTable.insertMember ⟨"A", .method, ⟨"m", "()V"⟩, "k"⟩) = .error failure := by
  constructor
  · have run : (methodTable.unite fieldTable).isOk := by decide +kernel
    obtain ⟨united, joined⟩ := Outcome.exists_of_isOk run
    obtain ⟨classes, members, -, -, -, target, swapped, turned, -, sameMembers⟩ :=
      (unite_least_extension methodTable fieldTable).2.1 united joined
    refine ⟨united, joined, target, ?_, ?_, ?_, swapped, turned, sameMembers⟩
    · rw [classes]
      decide
    · rw [members]
      decide
    · rw [members]
      decide
  · have held : methodTable.member? .method "A" "m" "()V" = some "n" := by decide
    have found : (fieldTable.insertMember ⟨"A", .method, ⟨"m", "()V"⟩, "k"⟩).member? .method "A" "m" "()V" =
        some "k" := by decide
    exact (unite_least_extension _ _).1.mpr (.onMember held found (by decide))

end MappingTable

end JarRemap
