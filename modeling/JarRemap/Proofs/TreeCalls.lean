import JarRemap.Proofs.TableFailures

/-!
# Trees that are built by hand

A tree can also be built by calls. Adding a class asks for a name in each namespace; adding a member takes any
names but none at all. So a tree that was built by calls is well formed if and only if each call that succeeded
was given a name for each namespace.
-/
namespace JarRemap

open OrderedMap Outcome ClassNames Failure MappingTree MappingTable List

namespace MappingTree

/-- The tree has the member, in the class that is found under the name. -/
def Stores (tree : MappingTree) (name : String) (kind : MemberKind) (key : MemberKey) (member : MemberNames) :
    Prop :=
  ∃ owner, tree.classes.get? name = some owner ∧ (owner.members kind).get? key = some member

/-- Everything is found under its first name, no name is empty, and classes have all their names. Members have
some. -/
structure Keyed (tree : MappingTree) : Prop where
  enough : 2 ≤ tree.namespaces.length
  distinct : tree.namespaces.Nodup
  named : ∀ name owner, tree.classes.get? name = some owner → owner.names.head? = some name
  classes : ∀ name owner, tree.classes.get? name = some owner → NamesFit tree.namespaces.length owner.names
  members : ∀ name kind key member, tree.Stores name kind key member → member.WellFormed member.names.length key

/-- Members have a name for each namespace. -/
def MembersFit (tree : MappingTree) : Prop :=
  ∀ name kind key member, tree.Stores name kind key member → member.names.length = tree.namespaces.length

variable {tree after : MappingTree} {name first descriptor : String} {kind : MemberKind} {key : MemberKey}
  {member : MemberNames} {names completed : List String} {classNames : ClassNames}

theorem wellFormed_iff : tree.WellFormed ↔ tree.Keyed ∧ tree.MembersFit := by
  constructor
  · intro wellFormed
    have members : ∀ name kind key member, tree.Stores name kind key member →
        member.WellFormed tree.namespaces.length key := by
      rintro name kind key member ⟨owner, held, stored⟩
      exact (wellFormed.classes name owner held).members kind key member stored
    refine ⟨⟨wellFormed.enough, wellFormed.distinct, wellFormed.named,
      fun name owner held => (wellFormed.classes name owner held).names, ?_⟩, ?_⟩
    · intro name kind key member stored
      have fits := members name kind key member stored
      exact fits.names.length.symm ▸ fits
    · exact fun name kind key member stored => (members name kind key member stored).names.length
  · rintro ⟨keyed, fit⟩
    refine ⟨keyed.enough, keyed.distinct, keyed.named, fun name owner held =>
      ⟨keyed.classes name owner held, fun kind key member stored => ?_⟩⟩
    have there : tree.Stores name kind key member := ⟨owner, held, stored⟩
    exact fit name kind key member there ▸ keyed.members name kind key member there

theorem stores_addClass (run : tree.addClass names = .ok (completed, after)) :
    after.Stores name kind key member ↔ tree.Stores name kind key member := by
  obtain ⟨-, -, first, -, fresh, rfl⟩ := addClass_eq_ok.mp run
  by_cases here : first = name
  · subst here
    simp [Stores, fresh]
  · simp [Stores, here]

theorem stores_addMember (held : tree.classes.get? first = some classNames)
    (run : tree.addMember first classNames kind descriptor names = .ok (completed, after)) :
    ∃ head, completed.head? = some head ∧ ∀ name other key member,
      after.Stores name other key member ↔ tree.Stores name other key member ∨
        (name = first ∧ other = kind ∧ key = ⟨head, descriptor⟩ ∧ member = ⟨descriptor, completed⟩) := by
  simp only [addMember, bind_eq_ok, pure_eq_ok, Prod.exists, Prod.mk.injEq] at run
  obtain ⟨_, _, added, rfl, rfl⟩ := run
  obtain ⟨-, head, isHead, fresh, rfl⟩ := addMember_eq_ok.mp added
  refine ⟨head, isHead, fun name other key member => ?_⟩
  by_cases here : first = name
  · subst here
    by_cases same : kind = other
    · subst same
      by_cases again : ⟨head, descriptor⟩ = key
      · subst again
        simp [Stores, held, fresh, eq_comm]
      · simp [Stores, held, again, Ne.symm again]
    · simp [Stores, held, same, Ne.symm same]
  · simp [Stores, here, Ne.symm here]

end MappingTree

/-- A call that adds to a tree. -/
inductive TreeCall where
  | addClass (names : List String)
  | addMember (owner : String) (kind : MemberKind) (descriptor : String) (names : List String)

namespace TreeCall

def names : TreeCall → List String
  | .addClass names => names
  | .addMember _ _ _ names => names

/-- What adding gives. A member can only be added to a class that is there. -/
def attempt (tree : MappingTree) : TreeCall → Option (Outcome (List String × MappingTree))
  | .addClass names => some (tree.addClass names)
  | .addMember owner kind descriptor names =>
    (tree.classes.get? owner).map fun classNames => tree.addMember owner classNames kind descriptor names

def perform (tree : MappingTree) (call : TreeCall) : Option (Outcome (List String) × MappingTree) :=
  (call.attempt tree).map fun
    | .ok result => (.ok result.1, result.2)
    | .error failure => (.error failure, tree)

variable {tree after : MappingTree} {call : TreeCall} {answer : Outcome (List String)} {completed : List String}
  {classNames : ClassNames} {descriptor : String} {kind : MemberKind}

theorem perform_cases (performed : call.perform tree = some (answer, after)) :
    (∃ failure, answer = .error failure ∧ after = tree ∧ call.attempt tree = some (.error failure)) ∨
      ∃ completed, answer = .ok completed ∧ call.attempt tree = some (.ok (completed, after)) := by
  obtain ⟨outcome, attempted, same⟩ := Option.map_eq_some_iff.mp performed
  cases outcome with
  | error failure =>
    obtain ⟨rfl, rfl⟩ := Prod.mk.inj same
    exact .inl ⟨failure, rfl, rfl, attempted⟩
  | ok result =>
    obtain ⟨rfl, rfl⟩ := Prod.mk.inj same
    exact .inr ⟨result.1, rfl, attempted⟩

/-- What a call that succeeds does to a tree. -/
structure Grown (tree : MappingTree) (call : TreeCall) (after : MappingTree) : Prop where
  namespaces : after.namespaces = tree.namespaces
  keyed : tree.Keyed → after.Keyed
  membersFit : after.MembersFit ↔ tree.MembersFit ∧ call.names.length = tree.namespaces.length

theorem grown_addClass {names : List String} (run : tree.addClass names = .ok (completed, after)) :
    Grown tree (.addClass names) after := by
  obtain ⟨length, complete, first, isFirst, -, rfl⟩ := addClass_eq_ok.mp run
  refine ⟨rfl, fun keyed => ⟨keyed.enough, keyed.distinct, forall_get?_insert isFirst keyed.named,
    forall_get?_insert (length ▸ completeNames_fits complete) keyed.classes, ?_⟩, ?_⟩
  · exact fun name kind key member stored =>
      keyed.members name kind key member ((stores_addClass run).mp stored)
  · simp only [MappingTree.MembersFit, stores_addClass run, TreeCall.names, length, and_true]

theorem grown_addMember {owner : String} {names : List String} (held : tree.classes.get? owner = some classNames)
    (run : tree.addMember owner classNames kind descriptor names = .ok (completed, after)) :
    Grown tree (.addMember owner kind descriptor names) after := by
  obtain ⟨head, isHead, stores⟩ := stores_addMember held run
  simp only [MappingTree.addMember, bind_eq_ok, pure_eq_ok, Prod.exists, Prod.mk.injEq] at run
  obtain ⟨_, _, added, rfl, rfl⟩ := run
  obtain ⟨complete, _, -, -, rfl⟩ := addMember_eq_ok.mp added
  have fits := completeNames_fits complete
  refine ⟨rfl, fun keyed => ⟨keyed.enough, keyed.distinct, ?_, ?_, ?_⟩, ?_⟩
  · refine forall_get?_insert ?_ keyed.named
    rw [names_setMembers]
    exact keyed.named owner classNames held
  · refine forall_get?_insert ?_ keyed.classes
    rw [names_setMembers]
    exact keyed.classes owner classNames held
  · intro name other key member stored
    rcases (stores name other key member).mp stored with earlier | ⟨-, -, rfl, rfl⟩
    · exact keyed.members name other key member earlier
    · exact ⟨⟨rfl, fits.filled⟩, isHead, rfl⟩
  · constructor
    · intro all
      refine ⟨fun name other key member earlier => all name other key member ((stores ..).mpr (.inl earlier)), ?_⟩
      exact fits.length.symm.trans (all owner kind _ _ ((stores ..).mpr (.inr ⟨rfl, rfl, rfl, rfl⟩)))
    · rintro ⟨before, length⟩ name other key member stored
      rcases (stores name other key member).mp stored with earlier | ⟨-, -, rfl, rfl⟩
      · exact before name other key member earlier
      · exact fits.length.trans length

theorem grown_of_attempt (attempted : call.attempt tree = some (.ok (completed, after))) : Grown tree call after := by
  cases call with
  | addClass names => exact grown_addClass (Option.some.inj attempted)
  | addMember owner kind descriptor names =>
    obtain ⟨classNames, held, run⟩ := Option.map_eq_some_iff.mp attempted
    exact grown_addMember held run

section failures

variable {names : List String}

theorem completeNames_failsOnly (names : List String) :
    (completeNames names).FailsOnly fun failure => ¬ failure.OutOfBounds := by
  rcases names with _ | ⟨first, rest⟩
  · exact failsOnly_ok _
  · rw [completeNames]
    split
    · exact .fail (not_outOfBounds (by simp))
    · exact failsOnly_ok _

theorem nameAt_zero_failsOnly (complete : completeNames names = .ok completed) (given : names ≠ []) :
    (nameAt completed 0).FailsOnly fun failure => ¬ failure.OutOfBounds := by
  refine (nameAt_failsOnly completed 0).mono fun failure fault => ?_
  have length := (completeNames_fits complete).length
  exact absurd (length_eq_zero_iff.mp (length ▸ Nat.le_zero.mp fault.1)) given

theorem addClass_failsOnly (enough : 0 < tree.namespaces.length) (names : List String) :
    (tree.addClass names).FailsOnly fun failure => ¬ failure.OutOfBounds := by
  rw [MappingTree.addClass]
  split
  · exact .fail (not_outOfBounds (by simp))
  · next same =>
    have given : names ≠ [] := ne_nil_of_length_pos (not_not.mp same ▸ enough)
    refine (completeNames_failsOnly names).bind fun completed complete =>
      (nameAt_zero_failsOnly complete given).bind fun first _ => ?_
    split
    · exact .fail (not_outOfBounds (by simp))
    · exact failsOnly_ok _

theorem addMember_failsOnly {owner : String} (given : names ≠ []) :
    (tree.addMember owner classNames kind descriptor names).FailsOnly fun failure => ¬ failure.OutOfBounds := by
  refine .bind (.bind (completeNames_failsOnly names) fun completed complete =>
    (nameAt_zero_failsOnly complete given).bind fun first _ => ?_) fun _ _ => failsOnly_ok _
  dsimp only
  split
  · exact .fail (not_outOfBounds (by simp))
  · exact failsOnly_ok _

/-- A call looks for a name that is not there only if it adds a member and is given no names. -/
theorem outOfBounds_iff (keyed : tree.Keyed) (performed : call.perform tree = some (answer, after)) :
    (∃ failure, answer = .error failure ∧ failure.OutOfBounds) ↔
      ∃ owner kind descriptor, call = .addMember owner kind descriptor [] := by
  constructor
  · rintro ⟨failure, failed, outside⟩
    rcases perform_cases performed with ⟨_, same, -, attempted⟩ | ⟨_, same, -⟩
    · obtain rfl := Except.error.inj (failed.symm.trans same)
      cases call with
      | addClass names =>
        have enough : 0 < tree.namespaces.length := Nat.lt_of_lt_of_le Nat.two_pos keyed.enough
        exact absurd outside (addClass_failsOnly enough names failure (Option.some.inj attempted))
      | addMember owner kind descriptor names =>
        obtain ⟨classNames, -, run⟩ := Option.map_eq_some_iff.mp attempted
        by_cases given : names = []
        · exact ⟨owner, kind, descriptor, by rw [given]⟩
        · exact absurd outside (addMember_failsOnly given failure run)
    · rw [failed] at same
      cases same
  · rintro ⟨owner, kind, descriptor, rfl⟩
    obtain ⟨outcome, attempted, same⟩ := Option.map_eq_some_iff.mp performed
    obtain ⟨classNames, -, rfl⟩ := Option.map_eq_some_iff.mp attempted
    obtain ⟨rfl, -⟩ := Prod.mk.inj same
    exact ⟨_, rfl, 0, 0, rfl⟩

end failures

end TreeCall

namespace MappingTree

variable {namespaces : List String} {history : List (TreeCall × Outcome (List String))} {tree : MappingTree}

theorem create_failsOnly (namespaces : List String) :
    (create namespaces).FailsOnly fun failure => ¬ failure.OutOfBounds := by
  rw [create]
  split
  · exact .fail (not_outOfBounds (by simp))
  · split
    · exact .fail (not_outOfBounds (by simp))
    · exact failsOnly_ok _

/-- The calls, with their answers and the last one first, lead from the new tree with the namespaces to the
tree. -/
inductive Built (namespaces : List String) : List (TreeCall × Outcome (List String)) → MappingTree → Prop where
  | create {tree : MappingTree} (created : create namespaces = .ok tree) : Built namespaces [] tree
  | call {history : List (TreeCall × Outcome (List String))} {tree after : MappingTree} {call : TreeCall}
      {answer : Outcome (List String)} (built : Built namespaces history tree)
      (performed : call.perform tree = some (answer, after)) : Built namespaces ((call, answer) :: history) after

/-- The calls that succeeded were given a name for each namespace. -/
def GivenAll (namespaces : List String) (history : List (TreeCall × Outcome (List String))) : Prop :=
  ∀ step ∈ history, step.2.isOk → step.1.names.length = namespaces.length

theorem Built.keyed (built : Built namespaces history tree) :
    tree.namespaces = namespaces ∧ tree.Keyed ∧ (tree.MembersFit ↔ GivenAll namespaces history) := by
  induction built with
  | create created =>
    obtain ⟨enough, distinct, rfl⟩ := create_eq_ok.mp created
    have empty : ∀ name kind key member, ¬ Stores { namespaces, classes := ∅ } name kind key member := by
      simp [Stores]
    refine ⟨rfl, ⟨enough, distinct, by simp, by simp, ?_⟩, ?_⟩
    · exact fun name kind key member stored => absurd stored (empty name kind key member)
    · simp [MembersFit, GivenAll, empty]
  | @call history tree after call answer _ performed ih =>
    obtain ⟨sameNamespaces, keyed, fit⟩ := ih
    rcases TreeCall.perform_cases performed with ⟨failure, rfl, rfl, -⟩ | ⟨completed, rfl, attempted⟩
    · refine ⟨sameNamespaces, keyed, fit.trans ?_⟩
      simp [GivenAll, Except.isOk, Except.toBool]
    · have grown := TreeCall.grown_of_attempt attempted
      refine ⟨grown.namespaces.trans sameNamespaces, grown.keyed keyed, ?_⟩
      rw [grown.membersFit, fit, sameNamespaces]
      simp [GivenAll, Except.isOk, Except.toBool, and_comm]

theorem Keyed.exists_short (keyed : tree.Keyed) {source target : String} {failure : Failure}
    (failed : ofTree tree source target = .error failure) (outside : failure.OutOfBounds) :
    ∃ name kind key member, tree.Stores name kind key member ∧ member.names.length < tree.namespaces.length := by
  obtain ⟨owner, listed, short⟩ := short_of_ofTree failed outside
  obtain ⟨name, held⟩ := mem_values.mp listed
  rcases short with fewer | ⟨kind, member, memberListed, fewer⟩
  · exact absurd (keyed.classes name owner held).length (Nat.ne_of_lt fewer)
  · obtain ⟨key, stored⟩ := mem_values.mp memberListed
    exact ⟨name, kind, key, member, ⟨owner, held, stored⟩, fewer⟩

/-- If no descriptor is in the way, the last namespace is one in which a member that has too few names misses
its own. -/
theorem Keyed.outOfBounds_of_short (keyed : tree.Keyed) (described : tree.Described)
    (stores : tree.Stores name kind key member)
    (fewer : member.names.length < tree.namespaces.length) :
    ∃ source target failure, ofTree tree source target = .error failure ∧ failure.OutOfBounds := by
  obtain ⟨owner, held, stored⟩ := stores
  have listed : owner ∈ tree.classes.values := mem_values.mpr ⟨name, held⟩
  have memberListed : member ∈ (owner.members kind).values := mem_values.mpr ⟨key, stored⟩
  have there : tree.namespaces ≠ [] := ne_nil_of_length_pos (by omega)
  have place : tree.namespaces.idxOf (tree.namespaces.getLast there) = tree.namespaces.length - 1 := by
    rw [getLast_eq_getElem, keyed.distinct.idxOf_getElem]
  have lastListed := getLast_mem there
  generalize tree.namespaces.getLast there = last at place lastListed
  refine ⟨last, last, ?_⟩
  cases taken : ofTree tree last last with
  | ok table =>
    have inside := (members_of_ofTree taken owner listed kind member memberListed).2
    omega
  | error failure =>
    refine ⟨failure, rfl, ?_⟩
    cases ofTree_failsOnly tree last last failure taken with
    | unknownNamespace _ asked absent => exact absurd lastListed (asked.elim id id ▸ absent)
    | unterminated other otherListed otherKind otherMember otherHeld unterminated =>
      exact absurd unterminated
        (Descriptor.complete_iff.mp (described other otherListed otherKind otherMember otherHeld))
    | unnamedClass _ _ _ cause | unnamedMember _ _ _ _ _ _ cause => exact cause

/-- Trees that are built by calls, some of which may fail. A tree keeps its namespaces, and finds everything
under its first name. No name is empty, and classes have one for each namespace. Members have too if and only
if the calls that added them were given that many, and then no name is ever missing from a table. If they were
not, one is missing from some table, unless a descriptor is in the way.

Calls that fail leave the tree. The only call that looks for a name where there is none is one that adds a
member without any names. -/
theorem built_wellFormed_iff (built : Built namespaces history tree) :
    tree.namespaces = namespaces ∧ tree.Keyed ∧
    (tree.WellFormed ↔ GivenAll namespaces history) ∧
    (GivenAll namespaces history → ∀ source target failure,
      MappingTable.ofTree tree source target = .error failure → ¬ failure.OutOfBounds) ∧
    (tree.Described →
      ((∃ source target failure, MappingTable.ofTree tree source target = .error failure ∧
          failure.OutOfBounds) ↔
        ∃ name kind key member, tree.Stores name kind key member ∧ member.names.length < namespaces.length)) ∧
    (∀ others failure, create others = .error failure → ¬ failure.OutOfBounds) ∧
    ∀ call answer after, TreeCall.perform tree call = some (answer, after) →
      (∀ failure, answer = .error failure → after = tree) ∧
      ((∃ failure, answer = .error failure ∧ failure.OutOfBounds) ↔
        ∃ owner kind descriptor, call = .addMember owner kind descriptor []) := by
  obtain ⟨sameNamespaces, keyed, fit⟩ := built.keyed
  refine ⟨sameNamespaces, keyed, ?_, ?_, fun described => ?_, create_failsOnly, fun call answer after performed =>
    ⟨fun failure failed => ?_, TreeCall.outOfBounds_iff keyed performed⟩⟩
  · rw [wellFormed_iff, ← fit]
    exact and_iff_right keyed
  · intro given source target failure failed outside
    obtain ⟨name, kind, key, member, stores, fewer⟩ := keyed.exists_short failed outside
    exact absurd (fit.mpr given name kind key member stores) (Nat.ne_of_lt fewer)
  · rw [← sameNamespaces]
    constructor
    · rintro ⟨source, target, failure, failed, outside⟩
      exact keyed.exists_short failed outside
    · rintro ⟨name, kind, key, member, stores, fewer⟩
      exact keyed.outOfBounds_of_short described stores fewer
  · rcases TreeCall.perform_cases performed with ⟨_, -, same, -⟩ | ⟨_, succeeded, -⟩
    · exact same
    · rw [succeeded] at failed
      cases failed

def oneClass : MappingTree := ⟨["a", "b"], (∅ : OrderedMap _ _).insert "x" ⟨["x", "x"], ∅, ∅⟩⟩

def oneField (names : List String) : MappingTree :=
  ⟨["a", "b"], (∅ : OrderedMap _ _).insert "x" ⟨["x", "x"], (∅ : OrderedMap _ _).insert ⟨"f", "I"⟩ ⟨"I", names⟩, ∅⟩⟩

theorem built_oneClass : Built ["a", "b"] [(.addClass ["x", ""], .ok ["x", "x"])] oneClass :=
  .call (.create rfl) rfl

theorem built_wellFormed_oneField :
    Built ["a", "b"] [(.addMember "x" .field "I" ["f", "g"], .ok ["f", "g"]), (.addClass ["x", ""], .ok ["x", "x"])]
      (oneField ["f", "g"]) ∧ (oneField ["f", "g"]).WellFormed := by
  have built : Built ["a", "b"] [(.addMember "x" .field "I" ["f", "g"], .ok ["f", "g"]),
      (.addClass ["x", ""], .ok ["x", "x"])] (oneField ["f", "g"]) := .call built_oneClass rfl
  refine ⟨built, (built_wellFormed_iff built).2.2.1.mpr ?_⟩
  simp [GivenAll, TreeCall.names]

/-- A field is added with one name to a tree of two namespaces, and the other name is missed later. Added with
no names at all, it is missed at once. -/
theorem built_not_wellFormed :
    (∃ history, Built ["a", "b"] history (oneField ["f"])) ∧
      ¬ (oneField ["f"]).WellFormed ∧
      (∃ failure, MappingTable.ofTree (oneField ["f"]) "a" "b" = .error failure ∧ failure.OutOfBounds) ∧
      ∃ failure, TreeCall.perform oneClass (.addMember "x" .field "I" []) = some (.error failure, oneClass) ∧
        failure.OutOfBounds := by
  have added : TreeCall.perform oneClass (.addMember "x" .field "I" ["f"]) =
      some (.ok ["f"], oneField ["f"]) := rfl
  refine ⟨⟨_, built_oneClass.call added⟩, fun wellFormed => ?_, ⟨_, rfl, 1, 1, rfl⟩, ⟨_, rfl, 0, 0, rfl⟩⟩
  have fits := (wellFormed_iff.mp wellFormed).2 "x" .field ⟨"f", "I"⟩ ⟨"I", ["f"]⟩ ⟨_, rfl, rfl⟩
  cases fits

end MappingTree

end JarRemap
