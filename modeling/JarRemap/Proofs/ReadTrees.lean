import JarRemap.Mapping.TinyFile
import JarRemap.Proofs.OrderedMaps
import JarRemap.Proofs.Runs

/-!
# Mapping trees that were read

A tree that was read from a file gives one name that is not empty for each of its namespaces, to every class
and every member, and finds all of them under what they are called in the first namespace. Reading adds one
class or one member at a time, and each of these steps keeps a tree that way.
-/
namespace JarRemap

open Outcome List MappingTree OrderedMap ClassNames

/-- There is a name for each of `count` namespaces, and none of them is empty. -/
structure NamesFit (count : Nat) (names : List String) : Prop where
  length : names.length = count
  filled : ∀ name ∈ names, name ≠ ""

/-- The member has all its names and is found under the first one and its descriptor. -/
structure MemberNames.WellFormed (count : Nat) (key : MemberKey) (member : MemberNames) : Prop where
  names : NamesFit count member.names
  named : member.names.head? = some key.name
  described : member.descriptor = key.descriptor

/-- The class has all its names, and so have its members. -/
structure ClassNames.WellFormed (count : Nat) (owner : ClassNames) : Prop where
  names : NamesFit count owner.names
  members : ∀ kind key member, (owner.members kind).get? key = some member → member.WellFormed count key

/-- There are at least two different namespaces, and every class has all its names and is found under the
first one. -/
structure MappingTree.WellFormed (tree : MappingTree) : Prop where
  enough : 2 ≤ tree.namespaces.length
  distinct : tree.namespaces.Nodup
  named : ∀ name classNames, tree.classes.get? name = some classNames →
    classNames.names.head? = some name
  classes : ∀ name classNames, tree.classes.get? name = some classNames →
    classNames.WellFormed tree.namespaces.length

section names

variable {names completed : List String}

theorem nameAt_eq_ok {index : Nat} {name : String} : nameAt names index = .ok name ↔ names[index]? = some name := by
  rw [nameAt]
  split <;> simp_all

theorem completeAfter_fits (last : String) (filled : last ≠ "") (names : List String) :
    NamesFit names.length (completeAfter last names) := by
  induction names generalizing last with
  | nil => exact ⟨rfl, by simp [completeAfter]⟩
  | cons name rest ih =>
    have present : (if name = "" then last else name) ≠ "" := by
      split
      · exact filled
      · assumption
    obtain ⟨length, others⟩ := ih _ present
    refine ⟨by simp [completeAfter, length], ?_⟩
    simpa [completeAfter] using ⟨present, others⟩

theorem completeNames_fits (run : completeNames names = .ok completed) : NamesFit names.length completed := by
  cases names with
  | nil =>
    obtain rfl : [] = completed := by simpa [completeNames] using run
    exact ⟨rfl, by simp⟩
  | cons first rest =>
    by_cases empty : first = ""
    · simp [completeNames, empty] at run
    · obtain rfl : first :: completeAfter first rest = completed := by
        simpa [completeNames, empty] using run
      obtain ⟨length, filled⟩ := completeAfter_fits first empty rest
      refine ⟨by simp [length], ?_⟩
      simpa using ⟨empty, filled⟩

end names

namespace ClassNames

variable {owner after : ClassNames} {kind : MemberKind} {descriptor : String} {names completed : List String}
  {count : Nat}

@[simp] theorem names_setMembers (owner : ClassNames) (kind : MemberKind)
    (members : OrderedMap MemberKey MemberNames) : (owner.setMembers kind members).names = owner.names := by
  cases kind <;> rfl

@[simp] theorem members_setMembers (owner : ClassNames) (kind other : MemberKind)
    (members : OrderedMap MemberKey MemberNames) :
    (owner.setMembers kind members).members other = if kind = other then members else owner.members other := by
  cases kind <;> cases other <;> rfl

@[simp] theorem members_new (names : List String) (kind : MemberKind) :
    (⟨names, ∅, ∅⟩ : ClassNames).members kind = ∅ := by
  cases kind <;> rfl

theorem addMember_eq_ok : owner.addMember kind descriptor names = .ok (completed, after) ↔
      completeNames names = .ok completed ∧
        ∃ first, completed.head? = some first ∧ (owner.members kind).get? ⟨first, descriptor⟩ = none ∧
          after = owner.setMembers kind ((owner.members kind).insert ⟨first, descriptor⟩ ⟨descriptor, completed⟩) := by
  simp only [addMember, bind_eq_ok, nameAt_eq_ok]
  constructor
  · rintro ⟨found, complete, first, head, stored⟩
    cases held : (owner.members kind).get? ⟨first, descriptor⟩ with
    | some existing => simp [held] at stored
    | none =>
      obtain ⟨rfl, rfl⟩ : found = completed ∧ _ = after := by simpa [held] using stored
      exact ⟨complete, first, by rwa [head?_eq_getElem?], held, rfl⟩
  · rintro ⟨complete, first, head, fresh, rfl⟩
    refine ⟨completed, complete, first, by rwa [← head?_eq_getElem?], ?_⟩
    rw [fresh]
    rfl

theorem WellFormed.insertMember (wellFormed : owner.WellFormed count) (kind : MemberKind) {key : MemberKey}
    {member : MemberNames} (memberWellFormed : member.WellFormed count key) :
    (owner.setMembers kind ((owner.members kind).insert key member)).WellFormed count := by
  refine ⟨by simpa using wellFormed.names, fun other place stored held => ?_⟩
  by_cases same : kind = other
  · subst same
    rw [members_setMembers, if_pos rfl] at held
    exact forall_get?_insert memberWellFormed (wellFormed.members kind) place stored held
  · rw [members_setMembers, if_neg same] at held
    exact wellFormed.members other place stored held

theorem addMember_wellFormed (wellFormed : owner.WellFormed count) (length : names.length = count)
    (run : owner.addMember kind descriptor names = .ok (completed, after)) : after.WellFormed count := by
  obtain ⟨complete, first, head, -, rfl⟩ := addMember_eq_ok.mp run
  exact wellFormed.insertMember kind ⟨length ▸ completeNames_fits complete, head, rfl⟩

end ClassNames

namespace MappingTree

variable {tree after : MappingTree} {names completed : List String}

theorem addClass_eq_ok : tree.addClass names = .ok (completed, after) ↔
      names.length = tree.namespaces.length ∧ completeNames names = .ok completed ∧
        ∃ first, completed.head? = some first ∧ tree.classes.get? first = none ∧
          after = { tree with classes := tree.classes.insert first ⟨completed, ∅, ∅⟩ } := by
  by_cases length : names.length = tree.namespaces.length
  · simp only [addClass, length, ne_eq, not_true_eq_false, if_false, true_and, bind_eq_ok, nameAt_eq_ok]
    constructor
    · rintro ⟨found, complete, first, head, stored⟩
      cases held : tree.classes.get? first with
      | some existing => simp [held] at stored
      | none =>
        obtain ⟨rfl, rfl⟩ : found = completed ∧ _ = after := by simpa [held] using stored
        exact ⟨complete, first, by rwa [head?_eq_getElem?], held, rfl⟩
    · rintro ⟨complete, first, head, fresh, rfl⟩
      refine ⟨completed, complete, first, by rwa [← head?_eq_getElem?], ?_⟩
      rw [fresh]
      rfl
  · simp [addClass, length]

theorem repeated?_eq_none {before : List String} :
    repeated? before names = none ↔ names.Nodup ∧ ∀ name ∈ names, name ∉ before := by
  induction names generalizing before with
  | nil => simp [repeated?]
  | cons name rest ih =>
    by_cases seen : name ∈ before
    · simp [repeated?, seen]
    · simp only [repeated?, contains_eq_mem, seen, decide_false, Bool.false_eq_true, if_false,
        ih, nodup_cons, mem_cons, not_or, forall_eq_or_imp, not_false_eq_true,
        true_and]
      constructor
      · rintro ⟨distinct, others⟩
        exact ⟨⟨fun again => (others name again).1 rfl, distinct⟩, fun other listed => (others other listed).2⟩
      · rintro ⟨⟨fresh, distinct⟩, others⟩
        exact ⟨distinct, fun other listed => ⟨fun same => fresh (same ▸ listed), others other listed⟩⟩

theorem create_eq_ok : create names = .ok tree ↔
      2 ≤ names.length ∧ names.Nodup ∧ tree = { namespaces := names, classes := ∅ } := by
  by_cases enough : names.length < 2
  · simp [create, enough]
  · cases again : repeated? [] names with
    | some name =>
      have repeats : ¬ names.Nodup := fun distinct => by
        rw [repeated?_eq_none.mpr ⟨distinct, by simp⟩] at again
        contradiction
      simp [create, enough, again, repeats]
    | none =>
      have distinct : names.Nodup := (repeated?_eq_none.mp again).1
      simp [create, enough, again, distinct, Nat.le_of_not_lt enough, eq_comm]

theorem WellFormed.insertClass (wellFormed : tree.WellFormed) {name : String}
    (named : owner.names.head? = some name) (ownerWellFormed : owner.WellFormed tree.namespaces.length) :
    WellFormed { tree with classes := tree.classes.insert name owner } :=
  ⟨wellFormed.enough, wellFormed.distinct, forall_get?_insert named wellFormed.named,
    forall_get?_insert ownerWellFormed wellFormed.classes⟩

theorem create_wellFormed (run : create names = .ok tree) : tree.WellFormed := by
  obtain ⟨enough, distinct, rfl⟩ := create_eq_ok.mp run
  exact ⟨enough, distinct, by simp, by simp⟩

end MappingTree

namespace TinyFile

variable {escapes : Bool} {count : Nat} {kind : MemberKind} {owner after : ClassNames} {line : Line}
  {tree result : MappingTree} {names : List String}

theorem namesOf_eq_ok : namesOf line count = .ok names ↔ line.fields.length = count ∧ line.fields = names := by
  by_cases length : line.fields.length = count <;> simp [namesOf, length]

theorem memberLine_eq_ok : memberLine escapes count kind owner line = .ok after ↔
      ∃ written fields descriptor names completed, line.fields = written :: fields ∧
        plainName escapes written = .ok descriptor ∧ fields.length = count ∧
        fields.mapM (plainName escapes) = .ok names ∧
        owner.addMember kind descriptor names = .ok (completed, after) := by
  cases fields : line.fields with
  | nil => simp [memberLine, nextField, fields, bind, Except.bind, Outcome.fail]
  | cons written others =>
    simp only [memberLine, nextField, fields, bind_eq_ok, namesOf_eq_ok, pure_eq_ok,
      Except.ok.injEq, Prod.exists, Prod.mk.injEq]
    constructor
    · rintro ⟨_, _, ⟨rfl, rfl⟩, descriptor, plain, _, ⟨length, rfl⟩, names, spelled, completed, _, added, rfl⟩
      exact ⟨written, others, descriptor, names, completed, rfl, plain, length, spelled, added⟩
    · rintro ⟨_, _, descriptor, names, completed, same, plain, length, spelled, added⟩
      obtain ⟨rfl, rfl⟩ := cons.inj same
      exact ⟨_, _, ⟨rfl, rfl⟩, descriptor, plain, _, ⟨length, rfl⟩, names, spelled, completed, after, added, rfl⟩

theorem mapM_length {fields : List String} (run : fields.mapM (plainName escapes) = .ok names) :
    names.length = fields.length :=
  (mapM_eq_ok.mp run).length_eq.symm

section

variable (wellFormed : owner.WellFormed count)
include wellFormed

theorem memberLine_wellFormed
    (run : memberLine escapes count kind owner line = .ok after) :
    after.names = owner.names ∧ after.WellFormed count := by
  obtain ⟨_, fields, descriptor, names, completed, -, -, length, spelled, added⟩ := memberLine_eq_ok.mp run
  have all : names.length = count := (mapM_length spelled).trans length
  refine ⟨?_, addMember_wellFormed wellFormed all added⟩
  obtain ⟨-, _, -, -, rfl⟩ := addMember_eq_ok.mp added
  exact names_setMembers ..

theorem classLine_wellFormed
    (run : classLine escapes count owner line = .ok after) : after.names = owner.names ∧ after.WellFormed count := by
  rw [classLine] at run
  split at run
  · exact memberLine_wellFormed wellFormed run
  · split at run
    · exact memberLine_wellFormed wellFormed run
    · obtain rfl := Except.ok.inj run
      exact ⟨rfl, wellFormed⟩

theorem classLines_wellFormed {below : Bool} {lines : Lines}
    (run : classLines escapes count below owner lines = .ok after) :
    after.names = owner.names ∧ after.WellFormed count := by
  induction lines generalizing below owner with
  | nil =>
    obtain rfl := Except.ok.inj run
    exact ⟨rfl, wellFormed⟩
  | cons item rest ih =>
    rw [classLines] at run
    obtain ⟨line, -, run⟩ := bind_eq_ok.mp run
    split at run
    · obtain ⟨between, stepped, rest⟩ := bind_eq_ok.mp run
      obtain ⟨sameNames, betweenWellFormed⟩ := classLine_wellFormed wellFormed (within_eq_ok.mp stepped)
      obtain ⟨keptNames, afterWellFormed⟩ := ih betweenWellFormed rest
      exact ⟨keptNames.trans sameNames, afterWellFormed⟩
    · split at run
      · exact ih wellFormed run
      · exact absurd run fail_ne_ok

end

theorem classSection_eq_ok {body : Lines} : classSection escapes tree line body = .ok result ↔
      ∃ names completed first classNames, line.first = "c" ∧ line.fields.length = tree.namespaces.length ∧
        line.fields.mapM (plainName escapes) = .ok names ∧ completeNames names = .ok completed ∧
        completed.head? = some first ∧ tree.classes.get? first = none ∧
        classLines escapes tree.namespaces.length false ⟨completed, ∅, ∅⟩ body = .ok classNames ∧
        result = { tree with classes := tree.classes.insert first classNames } := by
  by_cases isClass : line.first = "c"
  · simp only [classSection, isClass, ne_eq, not_true_eq_false, if_false, bind_eq_ok, namesOf_eq_ok,
      nameAt_eq_ok, within_eq_ok, pure_eq_ok, Prod.exists, addClass_eq_ok]
    constructor
    · rintro ⟨_, ⟨length, rfl⟩, names, spelled, completed, _, ⟨_, complete, first, head, fresh, rfl⟩, again,
        sameFirst, classNames, below, rfl⟩
      obtain rfl : first = again := by
        rw [← head?_eq_getElem?, head] at sameFirst
        exact Option.some.inj sameFirst
      exact ⟨names, completed, first, classNames, trivial, length, spelled, complete, head, fresh, below, by simp⟩
    · rintro ⟨names, completed, first, classNames, -, length, spelled, complete, head, fresh, below, rfl⟩
      refine ⟨_, ⟨length, rfl⟩, names, spelled, completed, _, ⟨?_, complete, first, head, fresh, rfl⟩, first,
        by rwa [← head?_eq_getElem?], classNames, below, by simp⟩
      exact (mapM_length spelled).trans length
  · simp [classSection, isClass]

theorem classSection_wellFormed {body : Lines} (wellFormed : tree.WellFormed)
    (run : classSection escapes tree line body = .ok result) : result.WellFormed := by
  obtain ⟨names, completed, first, classNames, -, length, spelled, complete, head, -, below, rfl⟩ :=
    classSection_eq_ok.mp run
  have all : names.length = tree.namespaces.length := (mapM_length spelled).trans length
  have fits : NamesFit tree.namespaces.length completed := all ▸ completeNames_fits complete
  have new : (⟨completed, ∅, ∅⟩ : ClassNames).WellFormed tree.namespaces.length := ⟨fits, by simp⟩
  obtain ⟨sameNames, classWellFormed⟩ := classLines_wellFormed new below
  exact wellFormed.insertClass (sameNames ▸ head) classWellFormed

theorem read_wellFormed {bytes : Bytes} (run : read bytes = .ok tree) : tree.WellFormed := by
  rw [read] at run
  split at run
  case h_1 => exact absurd run fail_ne_ok
  case h_2 first rest =>
    simp only [readSections, bind_eq_ok, within_eq_ok] at run
    obtain ⟨line, -, namespaces, -, start, created, escapes, -, finished⟩ := run
    refine foldlM_induction (fun _ tree => tree.WellFormed) ?_
      (create_wellFormed created) finished
    intro _ between classLines after wellFormed stepped
    exact classSection_wellFormed wellFormed (within_eq_ok.mp stepped)

end TinyFile

end JarRemap
