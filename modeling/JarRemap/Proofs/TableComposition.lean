import JarRemap.Proofs.TableLookups

/-!
# Two tables in a row

What a composed table answers, told from the answers of its two tables. An entry of the first table is
followed through the second one. Entries of the second table that are not reached in this way are carried
over, with their places led back by the inverted first table; they never replace an entry that is there.
-/
namespace JarRemap

open Outcome List OrderedMap

namespace MappingTable

variable {first next back table : MappingTable}

def followClasses (first next : MappingTable) : MappingTable :=
  first.classes.entries.foldl
    (fun table (name, middle) => table.insertClass name (next.className middle))
    (empty first.source next.target)

theorem class?_followClasses (first next : MappingTable) (name : String) :
    (first.followClasses next).class? name = (first.class? name).map next.className := by
  rcases class?_insertClasses Prod.fst (next.className ∘ Prod.snd) first.classes.entries
      (empty first.source next.target) name with ⟨⟨_, middle⟩, listed, rfl, decided⟩ | ⟨absent, unchanged⟩
  · have renamed : first.class? _ = some middle := mem_entries.mp listed
    rw [renamed]
    exact decided
  · have missing : first.class? name = none := by
      refine Option.eq_none_iff_forall_ne_some.mpr fun middle renamed => ?_
      exact absent (name, middle) (mem_entries.mpr renamed) rfl
    rw [missing]
    exact unchanged

/-- The class is neither renamed by the table nor a name that it hands out. -/
def isFresh (table : MappingTable) (name : String) : Bool :=
  !(table.classes.contains name || table.classes.values.contains name)

theorem isFresh_iff {name : String} : table.isFresh name ↔ table.class? name = none ∧ name ∉ table.classes.values := by
  simp [isFresh, OrderedMap.contains, class?]

section

variable (first next : MappingTable)

theorem composeClasses_eq :
    first.composeClasses next = (next.classes.entries.filter fun entry => first.isFresh entry.1).foldl
      (fun table entry => table.insertClass entry.1 entry.2) (first.followClasses next) := by
  rw [foldl_filter]
  simp only [isFresh, Bool.not_eq_true', ite_not, ← Bool.not_eq_true]
  rfl

theorem member?_composeClasses (kind : MemberKind) (owner name descriptor : String) :
    (first.composeClasses next).member? kind owner name descriptor = none := by
  have followed : (first.followClasses next).member? = (empty first.source next.target).member? :=
    member?_insertClasses Prod.fst (next.className ∘ Prod.snd) _ _
  rw [composeClasses_eq, member?_insertClasses Prod.fst Prod.snd, followed, member?_empty]

/-- A class of the first table goes on to what the second one calls it. Others go the way of the second
table, unless they are names that the first table hands out. -/
theorem class?_composeClasses (name : String) : (first.composeClasses next).class? name = match first.class? name with
      | some middle => some (next.className middle)
      | none => if name ∈ first.classes.values then none else next.class? name := by
  rw [composeClasses_eq]
  rcases class?_insertClasses Prod.fst Prod.snd
      (next.classes.entries.filter fun entry => first.isFresh entry.1) (first.followClasses next) name with
    ⟨⟨_, newName⟩, listed, rfl, decided⟩ | ⟨absent, unchanged⟩
  · obtain ⟨held, fresh⟩ := mem_filter.mp listed
    obtain ⟨missing, unused⟩ := isFresh_iff.mp fresh
    rw [decided, missing]
    simp [unused, class?, mem_entries.mp held]
  · rw [unchanged, class?_followClasses]
    cases missing : first.class? name with
    | some middle => rfl
    | none =>
      by_cases used : name ∈ first.classes.values
      · simp [used]
      · have neither : next.class? name = none := by
          refine Option.eq_none_iff_forall_ne_some.mpr fun newName renamed => ?_
          have held : (name, newName) ∈ next.classes.entries := mem_entries.mpr renamed
          exact absent _ (mem_filter.mpr ⟨held, isFresh_iff.mpr ⟨missing, used⟩⟩) rfl
        simp [used, neither]

end

section members

variable {kind : MemberKind} {owner name descriptor : String} {entry : MemberEntry} {start : MappingTable}
  {state after : MappingTable × List (String × String × String)} {entries done : List MemberEntry}

theorem middleMember_eq_ok : first.middleMember entry = .ok (owner, name, descriptor) ↔
      first.className entry.owner = owner ∧ entry.newName = name ∧
        first.mapDescriptor entry.key.descriptor = .ok descriptor := by
  simp only [middleMember, bind_eq_ok, pure_eq_ok, Prod.mk.injEq]
  constructor
  · rintro ⟨_, mapped, rfl, rfl, rfl⟩
    exact ⟨rfl, rfl, mapped⟩
  · rintro ⟨rfl, rfl, mapped⟩
    exact ⟨_, mapped, rfl, rfl, rfl⟩

/-- Following inserts the entry under the name that the second table gives at its middle place, and adds
the place to those that are covered. -/
theorem followMember_eq_ok (stepped : first.followMember next state entry = .ok after) :
    ∃ middle, first.mapDescriptor entry.key.descriptor = .ok middle ∧ after.1 = state.1.insertMember { entry with
        newName := next.memberName entry.kind (first.className entry.owner) entry.newName middle } ∧
      after.2 = (first.className entry.owner, entry.newName, middle) :: state.2 := by
  simp only [followMember, bind_eq_ok, pure_eq_ok] at stepped
  obtain ⟨⟨owner, name, middle⟩, placed, rfl⟩ := stepped
  obtain ⟨rfl, rfl, mapped⟩ := middleMember_eq_ok.mp placed
  exact ⟨middle, mapped, rfl, rfl⟩

/-- The state of following after some entries of the first table. -/
structure Followed (first next start : MappingTable) (entries : List MemberEntry)
    (state : MappingTable × List (String × String × String)) : Prop where
  classes : state.1.class? = start.class?
  members : ∀ kind owner name descriptor,
    (∃ entry ∈ entries, entry.IsAt kind owner name descriptor ∧ ∃ middle, first.mapDescriptor descriptor = .ok middle ∧
        state.1.member? kind owner name descriptor =
          some (next.memberName kind (first.className owner) entry.newName middle)) ∨
    ((∀ entry ∈ entries, ¬ entry.IsAt kind owner name descriptor) ∧
      state.1.member? kind owner name descriptor = start.member? kind owner name descriptor)
  covered : ∀ place, place ∈ state.2 ↔ ∃ entry ∈ entries, first.middleMember entry = .ok place

theorem Followed.step (followed : Followed first next start done state)
    (stepped : first.followMember next state entry = .ok after) :
    Followed first next start (done ++ [entry]) after := by
  obtain ⟨middle, mapped, table_eq, covered_eq⟩ := followMember_eq_ok stepped
  have placed : first.middleMember entry = .ok (first.className entry.owner, entry.newName, middle) :=
    middleMember_eq_ok.mpr ⟨rfl, rfl, mapped⟩
  refine ⟨by simpa [table_eq] using followed.classes, ?_, ?_⟩
  · intro kind owner name descriptor
    by_cases here : entry.IsAt kind owner name descriptor
    · refine .inl ⟨entry, by simp, here, middle, ?_⟩
      obtain ⟨rfl, rfl, key⟩ := here
      simp [table_eq, MemberEntry.IsAt, key, ← mapped]
    · simpa [table_eq, here, or_imp, forall_and, or_and_right, exists_or] using
        followed.members kind owner name descriptor
  · intro place
    simp [covered_eq, followed.covered, or_and_right, exists_or, placed, or_comm, eq_comm]

theorem foldlM_followMember (run : entries.foldlM (first.followMember next) (start, []) = .ok state) :
    Followed first next start entries state := by
  refine foldlM_induction (Followed first next start) Followed.step ⟨rfl, ?_, by simp⟩ run
  intro kind owner name descriptor
  exact .inr ⟨by simp, rfl⟩

/-- Once all entries are followed, those of the first table lead on to the names of the second. -/
theorem Followed.found (followed : Followed first next start first.memberEntries state) {middleName : String}
    (held : first.member? kind owner name descriptor = some middleName) :
    ∃ middle, first.mapDescriptor descriptor = .ok middle ∧ state.1.member? kind owner name descriptor =
        some (next.memberName kind (first.className owner) middleName middle) := by
  obtain ⟨entry, listed, here, rfl⟩ := member?_eq_some.mp held
  rcases followed.members kind owner name descriptor with
    ⟨other, otherListed, otherHere, middle, mapped, found⟩ | ⟨absent, -⟩
  · have same : some other.newName = some entry.newName := by
      rw [← held, member?_eq_some.mpr ⟨other, otherListed, otherHere, rfl⟩]
    exact ⟨middle, mapped, Option.some.inj same ▸ found⟩
  · exact absurd here (absent entry listed)

theorem Followed.absent (followed : Followed first next start first.memberEntries state)
    (missing : first.member? kind owner name descriptor = none) :
    state.1.member? kind owner name descriptor = start.member? kind owner name descriptor := by
  rcases followed.members kind owner name descriptor with ⟨entry, listed, here, -⟩ | ⟨-, unchanged⟩
  · rw [member?_eq_some.mpr ⟨entry, listed, here, rfl⟩] at missing
    contradiction
  · exact unchanged

variable {covered : List (String × String × String)}

def ledBack (back : MappingTable) (entry : MemberEntry) (descriptor : String) : MemberEntry :=
  { entry with owner := back.className entry.owner, key := ⟨entry.key.name, descriptor⟩ }

/-- Carrying does nothing for a covered place. For any other it makes sure that there is an entry at the
place that `back` leads to, and changes no entry that is there. -/
theorem carryMember_eq_ok {state after : MappingTable} (stepped : carryMember back covered state entry = .ok after) :
    ((entry.owner, entry.key.name, entry.key.descriptor) ∈ covered ∧ after = state) ∨
    ((entry.owner, entry.key.name, entry.key.descriptor) ∉ covered ∧
      ∃ middle, back.mapDescriptor entry.key.descriptor = .ok middle ∧ after.class? = state.class? ∧
        ∀ kind owner name descriptor, after.member? kind owner name descriptor =
          (state.member? kind owner name descriptor).or
            (if (ledBack back entry middle).IsAt kind owner name descriptor then some entry.newName else none)) := by
  rw [carryMember] at stepped
  split at stepped
  case isTrue reached =>
    exact .inl ⟨by simpa using reached, (pure_eq_ok.mp stepped).symm⟩
  case isFalse reached =>
    obtain ⟨middle, mapped, stepped⟩ := bind_eq_ok.mp stepped
    refine .inr ⟨by simpa using reached, middle, mapped, ?_⟩
    split at stepped
    case isTrue present =>
      obtain rfl := pure_eq_ok.mp stepped
      refine ⟨rfl, fun kind owner name descriptor => ?_⟩
      split
      case isTrue here =>
        obtain ⟨rfl, rfl, key⟩ := here
        obtain ⟨rfl, rfl⟩ := MemberKey.mk.inj key
        exact (Option.or_of_isSome present).symm
      case isFalse => simp
    case isFalse absent =>
      obtain rfl := pure_eq_ok.mp stepped
      refine ⟨rfl, fun kind owner name descriptor => ?_⟩
      change (state.insertMember (ledBack back entry middle)).member? kind owner name descriptor = _
      rw [member?_insertMember]
      by_cases here : (ledBack back entry middle).IsAt kind owner name descriptor
      · rw [if_pos here, if_pos here]
        obtain ⟨rfl, rfl, key⟩ := here
        obtain ⟨rfl, rfl⟩ := MemberKey.mk.inj key
        have missing : state.member? _ _ _ _ = none := Option.not_isSome_iff_eq_none.mp absent
        exact (congrArg (Option.or · _) missing).symm
      · rw [if_neg here, if_neg here, Option.or_none]

/-- The state of carrying after some entries of the second table. -/
structure Carried (back : MappingTable) (covered : List (String × String × String))
    (start : MappingTable) (entries : List MemberEntry) (state : MappingTable) : Prop where
  classes : state.class? = start.class?
  kept : ∀ {kind owner name descriptor newName},
    start.member? kind owner name descriptor = some newName →
      state.member? kind owner name descriptor = some newName
  added : ∀ {kind owner name descriptor newName},
    state.member? kind owner name descriptor = some newName →
      start.member? kind owner name descriptor = some newName ∨
        ∃ entry ∈ entries, entry.kind = kind ∧ back.className entry.owner = owner ∧
          entry.key.name = name ∧ back.mapDescriptor entry.key.descriptor = .ok descriptor ∧
          entry.newName = newName ∧ (entry.owner, entry.key.name, entry.key.descriptor) ∉ covered
  complete : ∀ entry ∈ entries, (entry.owner, entry.key.name, entry.key.descriptor) ∉ covered →
    ∃ descriptor, back.mapDescriptor entry.key.descriptor = .ok descriptor ∧
      (state.member? entry.kind (back.className entry.owner) entry.key.name descriptor).isSome

theorem Carried.step {state after : MappingTable} (carried : Carried back covered start done state)
    (stepped : carryMember back covered state entry = .ok after) :
    Carried back covered start (done ++ [entry]) after := by
  rcases carryMember_eq_ok stepped with ⟨reached, rfl⟩ | ⟨unreached, middle, mapped, classes, members⟩
  · refine ⟨carried.classes, carried.kept, fun found => ?_, fun other listed missed => ?_⟩
    · exact (carried.added found).imp_right fun ⟨other, listed, rest⟩ => ⟨other, by simp [listed], rest⟩
    · rcases mem_append.mp listed with listed | last
      · exact carried.complete other listed missed
      · obtain rfl := mem_singleton.mp last
        exact absurd reached missed
  · refine ⟨classes.trans carried.classes, fun held => ?_, fun found => ?_, fun other listed missed => ?_⟩
    · rw [members, carried.kept held, Option.some_or]
    · rw [members, Option.or_eq_some_iff] at found
      rcases found with found | ⟨-, found⟩
      · exact (carried.added found).imp_right fun ⟨other, listed, rest⟩ => ⟨other, by simp [listed], rest⟩
      · obtain ⟨⟨rfl, rfl, key⟩, named⟩ := Option.ite_none_right_eq_some.mp found
        obtain rfl := Option.some.inj named
        obtain ⟨rfl, rfl⟩ := MemberKey.mk.inj key
        exact .inr ⟨entry, by simp, rfl, rfl, rfl, mapped, rfl, unreached⟩
    · rcases mem_append.mp listed with listed | last
      · obtain ⟨descriptor, led, present⟩ := carried.complete other listed missed
        exact ⟨descriptor, led, by simp [members, present]⟩
      · obtain rfl := mem_singleton.mp last
        exact ⟨middle, mapped, by simp [members, ledBack, MemberEntry.IsAt]⟩

theorem foldlM_carryMember {state : MappingTable} (run : entries.foldlM (carryMember back covered) start = .ok state) :
    Carried back covered start entries state :=
  foldlM_induction (Carried back covered start) Carried.step ⟨rfl, id, .inl, by simp⟩ run

end members

/-- The place in the middle namespace belongs to an entry of the first table. -/
def Covers (first : MappingTable) (owner name descriptor : String) : Prop :=
  ∃ entry ∈ first.memberEntries, first.middleMember entry = .ok (owner, name, descriptor)

/-- What the composed table answers. `back` is the first table turned around. -/
structure Composed (first next back table : MappingTable) : Prop where
  inverted : first.invert = .ok back
  classes : ∀ name, table.class? name =
    match first.class? name with
    | some middle => some (next.className middle)
    | none => if name ∈ first.classes.values then none else next.class? name
  followed : ∀ {kind owner name descriptor middleName},
    first.member? kind owner name descriptor = some middleName →
      ∃ middle, first.mapDescriptor descriptor = .ok middle ∧
        table.member? kind owner name descriptor =
          some (next.memberName kind (first.className owner) middleName middle)
  carried : ∀ {kind owner name descriptor newName},
    first.member? kind owner name descriptor = none →
    table.member? kind owner name descriptor = some newName →
      ∃ entry ∈ next.memberEntries, entry.kind = kind ∧ back.className entry.owner = owner ∧
        entry.key.name = name ∧ back.mapDescriptor entry.key.descriptor = .ok descriptor ∧
        entry.newName = newName ∧ ¬ first.Covers entry.owner entry.key.name entry.key.descriptor
  complete : ∀ entry ∈ next.memberEntries,
    ¬ first.Covers entry.owner entry.key.name entry.key.descriptor →
      ∃ descriptor, back.mapDescriptor entry.key.descriptor = .ok descriptor ∧
        (table.member? entry.kind (back.className entry.owner) entry.key.name descriptor).isSome

theorem compose_composed (composed : first.compose next = .ok table) : ∃ back, Composed first next back table := by
  rw [compose] at composed
  split at composed
  case isTrue => exact absurd composed fail_ne_ok
  case isFalse =>
    simp only [bind_eq_ok] at composed
    obtain ⟨back, inverted, ⟨between, covered⟩, followRun, carryRun⟩ := composed
    have followed := foldlM_followMember followRun
    have carried := foldlM_carryMember carryRun
    have covers (owner name descriptor : String) :
        (owner, name, descriptor) ∈ covered ↔ first.Covers owner name descriptor :=
      followed.covered (owner, name, descriptor)
    refine ⟨back, inverted, fun name => ?_, fun held => ?_, fun absent found => ?_, fun entry listed missed => ?_⟩
    · rw [carried.classes, followed.classes, class?_composeClasses]
    · obtain ⟨middle, mapped, found⟩ := followed.found held
      exact ⟨middle, mapped, carried.kept found⟩
    · rcases carried.added found with early | ⟨entry, listed, kind, owner, name, led, named, missed⟩
      · rw [followed.absent absent, member?_composeClasses] at early
        contradiction
      · exact ⟨entry, listed, kind, owner, name, led, named, by rwa [← covers]⟩
    · exact carried.complete entry listed (by rwa [covers])

end MappingTable

end JarRemap
