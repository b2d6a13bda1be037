import JarRemap.Proofs.TreeNames

/-!
# Why there is no table between two namespaces

Taking a table from a tree fails for one of four reasons: a namespace is not there, a descriptor has an `L`
without a semicolon after it, or a class or a member has too few names. If every symbol has all its names, only
the second reason is left for namespaces of the tree, and it is always one.
-/
namespace JarRemap

open List Outcome Descriptor MappingTree OrderedMap

/-- A name was looked for at a position where there is none. -/
def Failure.OutOfBounds (failure : Failure) : Prop := ∃ index count, failure.cause = .noNameAt index count

theorem Failure.not_outOfBounds {cause : Cause} (other : ∀ index count, cause ≠ .noNameAt index count) :
    ¬ (Failure.of cause).OutOfBounds := by
  rintro ⟨index, count, missing⟩
  exact other index count missing

namespace Outcome

variable {α β σ : Type} {Allowed : Failure → Prop}

/-- Whatever goes wrong is allowed to. -/
def FailsOnly (Allowed : Failure → Prop) (outcome : Outcome α) : Prop :=
  ∀ failure, outcome = .error failure → Allowed failure

theorem failsOnly_ok (value : α) : FailsOnly Allowed (.ok value) := by
  intro failure failed
  cases failed

theorem FailsOnly.fail {cause : Cause} (allowed : Allowed (.of cause)) :
    FailsOnly Allowed (fail cause : Outcome α) := by
  rintro failure ⟨⟩
  exact allowed

theorem FailsOnly.mono {Others : Failure → Prop} {outcome : Outcome α} (only : outcome.FailsOnly Allowed)
    (more : ∀ failure, Allowed failure → Others failure) : outcome.FailsOnly Others :=
  fun failure failed => more failure (only failure failed)

/-- Two steps in a row fail as the first one does, or as the second one does on what the first one gave. -/
theorem FailsOnly.bind {first : Outcome α} {next : α → Outcome β} (start : first.FailsOnly Allowed)
    (rest : ∀ value, first = .ok value → (next value).FailsOnly Allowed) : (first >>= next).FailsOnly Allowed := by
  cases ran : first with
  | error failure =>
    rintro _ ⟨⟩
    exact start failure ran
  | ok value => exact rest value ran

theorem FailsOnly.foldlM {step : σ → α → Outcome σ} {values : List α}
    (steps : ∀ value ∈ values, ∀ state, (step state value).FailsOnly Allowed) (first : σ) :
    (values.foldlM step first).FailsOnly Allowed := by
  induction values generalizing first with
  | nil => exact failsOnly_ok first
  | cons value values ih =>
    obtain ⟨here, others⟩ := forall_mem_cons.mp steps
    exact (here first).bind fun next _ => ih others next

end Outcome

theorem nameAt_failsOnly (names : List String) (index : Nat) :
    (nameAt names index).FailsOnly fun failure => names.length ≤ index ∧ failure.OutOfBounds := by
  rw [nameAt]
  cases found : names[index]? with
  | some name => exact failsOnly_ok name
  | none => exact .fail ⟨List.getElem?_eq_none_iff.mp found, _, _, rfl⟩

namespace MappingTable

theorem mapDescriptor_failsOnly (table : MappingTable) (descriptor : String) :
    (table.mapDescriptor descriptor).FailsOnly fun failure =>
      Unterminated descriptor ∧ failure.cause = .missingSemicolon descriptor := by
  intro failure failed
  rw [mapDescriptor, Renamer.mapDescriptor_eq table.renamer_mapClass] at failed
  cases complete : (pieces descriptor.toList).2 with
  | true => simp [complete, Outcome.within] at failed
  | false =>
    refine ⟨not_not.mp (complete_iff.not.mp (by simp [Complete, complete])), ?_⟩
    simp only [complete, Bool.false_eq_true, if_false, Outcome.fail, Outcome.within, Except.error.injEq] at failed
    subst failed
    rfl

/-- Why there is no table between two namespaces of a tree. -/
inductive Fault (tree : MappingTree) (source target : String) (failure : Failure) : Prop where
  | unknownNamespace (name : String) (asked : name = source ∨ name = target) (absent : name ∉ tree.namespaces)
      (cause : failure.cause = .unknownNamespace name tree.namespaces)
  | unterminated (owner : ClassNames) (listed : owner ∈ tree.classes.values) (kind : MemberKind)
      (member : MemberNames) (held : member ∈ (owner.members kind).values)
      (unterminated : Unterminated member.descriptor)
      (cause : failure.cause = .missingSemicolon member.descriptor)
  | unnamedClass (owner : ClassNames) (listed : owner ∈ tree.classes.values)
      (short : owner.names.length < tree.namespaces.length) (cause : failure.OutOfBounds)
  | unnamedMember (owner : ClassNames) (listed : owner ∈ tree.classes.values) (kind : MemberKind)
      (member : MemberNames) (held : member ∈ (owner.members kind).values)
      (short : member.names.length < tree.namespaces.length) (cause : failure.OutOfBounds)

section ofTree

variable {tree : MappingTree} {source target : String} {table : MappingTable} {owner : ClassNames}
  {failure : Failure}

theorem position_failsOnly {name : String} (asked : name = source ∨ name = target) :
    (tree.position name).FailsOnly (Fault tree source target) := by
  rw [position]
  cases found : tree.namespaces.idxOf? name with
  | some index => exact failsOnly_ok index
  | none => exact .fail (.unknownNamespace name asked (List.idxOf?_eq_none_iff.mp found) rfl)

theorem nameAt_class_failsOnly {index : Nat} (listed : owner ∈ tree.classes.values)
    (inside : index < tree.namespaces.length) : (nameAt owner.names index).FailsOnly (Fault tree source target) :=
  (nameAt_failsOnly owner.names index).mono fun _ fault =>
    .unnamedClass owner listed (Nat.lt_of_le_of_lt fault.1 inside) fault.2

theorem insertMembersOf_failsOnly {i j : Nat} {descriptors : MappingTable}
    (listed : owner ∈ tree.classes.values) (sourceInside : i < tree.namespaces.length)
    (targetInside : j < tree.namespaces.length) (ownerName : String) (start : MappingTable) :
    (start.insertMembersOf descriptors i j ownerName owner).FailsOnly (Fault tree source target) := by
  unfold insertMembersOf
  refine .foldlM (fun kind _ state => .foldlM (fun member held state => ?_) state) start
  have named {index : Nat} (inside : index < tree.namespaces.length) :
      (nameAt member.names index).FailsOnly (Fault tree source target) :=
    (nameAt_failsOnly member.names index).mono fun _ fault =>
      .unnamedMember owner listed kind member held (Nat.lt_of_le_of_lt fault.1 inside) fault.2
  refine .bind ?_ fun descriptor _ => ?_
  · exact (mapDescriptor_failsOnly descriptors member.descriptor).mono fun _ fault =>
      .unterminated owner listed kind member held fault.1 fault.2
  · exact (named sourceInside).bind fun name _ => (named targetInside).bind fun newName _ =>
      failsOnly_ok _

theorem ofTree_failsOnly (tree : MappingTree) (source target : String) :
    (ofTree tree source target).FailsOnly (Fault tree source target) := by
  refine (position_failsOnly (.inl rfl)).bind fun i sourceAt => ?_
  refine (position_failsOnly (.inr rfl)).bind fun j targetAt => ?_
  obtain ⟨sourceListed, rfl⟩ := position_eq_ok.mp sourceAt
  obtain ⟨targetListed, rfl⟩ := position_eq_ok.mp targetAt
  have sourceInside := idxOf_lt_length_of_mem sourceListed
  have targetInside := idxOf_lt_length_of_mem targetListed
  have firstInside : 0 < tree.namespaces.length := length_pos_of_mem sourceListed
  refine .bind (.foldlM (fun owner listed state => ?_) _) fun descriptors _ =>
    .foldlM (fun owner listed state => ?_) _
  · exact (nameAt_class_failsOnly listed firstInside).bind fun _ _ =>
      (nameAt_class_failsOnly listed sourceInside).bind fun _ _ => failsOnly_ok _
  · exact (nameAt_class_failsOnly listed sourceInside).bind fun _ _ =>
      (nameAt_class_failsOnly listed targetInside).bind fun _ _ =>
        insertMembersOf_failsOnly listed sourceInside targetInside _ _

theorem short_of_ofTree (failed : ofTree tree source target = .error failure)
    (outside : failure.OutOfBounds) : ∃ owner ∈ tree.classes.values, owner.names.length < tree.namespaces.length ∨
        ∃ kind, ∃ member ∈ (owner.members kind).values, member.names.length < tree.namespaces.length := by
  obtain ⟨index, count, missing⟩ := outside
  cases ofTree_failsOnly tree source target failure failed with
  | unknownNamespace name asked absent cause | unterminated owner listed kind member held unterminated cause =>
    rw [cause] at missing
    cases missing
  | unnamedClass owner listed short => exact ⟨owner, listed, .inl short⟩
  | unnamedMember owner listed kind member held short =>
    exact ⟨owner, listed, .inr ⟨kind, member, held, short⟩⟩

theorem unterminated_of_ofTree (wellFormed : tree.WellFormed) (sourceListed : source ∈ tree.namespaces)
    (targetListed : target ∈ tree.namespaces)
    (failed : ofTree tree source target = .error failure) :
    ∃ owner ∈ tree.classes.values, ∃ kind, ∃ member ∈ (owner.members kind).values,
      Unterminated member.descriptor ∧ failure.cause = .missingSemicolon member.descriptor := by
  cases ofTree_failsOnly tree source target failure failed with
  | unknownNamespace name asked absent =>
    rcases asked with rfl | rfl
    · exact absurd sourceListed absent
    · exact absurd targetListed absent
  | unterminated owner listed kind member held unterminated cause =>
    exact ⟨owner, listed, kind, member, held, unterminated, cause⟩
  | unnamedClass owner listed short =>
    obtain ⟨name, held⟩ := mem_values.mp listed
    have length := (wellFormed.classes name owner held).names.length
    omega
  | unnamedMember owner listed kind member held short =>
    obtain ⟨name, ownerHeld⟩ := mem_values.mp listed
    obtain ⟨key, memberHeld⟩ := mem_values.mp held
    have length := ((wellFormed.classes name owner ownerHeld).members kind key member memberHeld).names.length
    omega

theorem exists_ofTree (wellFormed : tree.WellFormed) (described : tree.Described)
    (sourceListed : source ∈ tree.namespaces) (targetListed : target ∈ tree.namespaces) :
    ∃ table, ofTree tree source target = .ok table := by
  cases taken : ofTree tree source target with
  | ok table => exact ⟨table, rfl⟩
  | error failure =>
    obtain ⟨owner, listed, kind, member, held, unterminated, -⟩ :=
      unterminated_of_ofTree wellFormed sourceListed targetListed taken
    exact absurd unterminated (complete_iff.mp (described owner listed kind member held))

/-- A table that was taken from a tree met no descriptor that is unterminated, and found each member's name in
the second namespace. -/
theorem members_of_ofTree (run : ofTree tree source target = .ok table) :
    ∀ owner ∈ tree.classes.values, ∀ kind, ∀ member ∈ (owner.members kind).values,
      Complete member.descriptor ∧ tree.namespaces.idxOf target < member.names.length := by
  simp only [ofTree, bind_eq_ok, position_eq_ok] at run
  obtain ⟨_, -, _, ⟨-, rfl⟩, descriptors, -, filled⟩ := run
  generalize tree.namespaces.idxOf target = place at filled ⊢
  refine foldlM_induction (fun done _ => ∀ owner ∈ done, ∀ kind, ∀ member ∈ (owner.members kind).values,
      Complete member.descriptor ∧ place < member.names.length) ?_ (by simp) filled
  intro done state owner next before stepped
  simp only [bind_eq_ok, insertMembersOf, foldlM_cons, foldlM_nil, pure_eq_ok]
    at stepped
  obtain ⟨_, -, _, -, _, fields, _, methods, -⟩ := stepped
  have found {values : List MemberNames} {kind : MemberKind} {ownerName : String} {i : Nat}
      {start last : MappingTable} (loop : values.foldlM (fun table member => do
        let descriptor ← descriptors.mapDescriptor member.descriptor
        let name ← nameAt member.names i
        let newName ← nameAt member.names place
        return table.insertMember ⟨ownerName, kind, ⟨name, descriptor⟩, newName⟩) start = .ok last) :
      ∀ member ∈ values, Complete member.descriptor ∧ place < member.names.length := by
    refine foldlM_induction (fun done _ => ∀ member ∈ done,
      Complete member.descriptor ∧ place < member.names.length) ?_ (by simp) loop
    intro done state member next before stepped
    simp only [bind_eq_ok, nameAt_eq_ok] at stepped
    obtain ⟨_, mapped, _, -, _, named, -⟩ := stepped
    exact forall_mem_append.mpr ⟨before, forall_mem_singleton.mpr
      ⟨(mapDescriptor_eq_ok.mp mapped).1, (List.getElem?_eq_some_iff.mp named).1⟩⟩
  refine forall_mem_append.mpr ⟨before, forall_mem_singleton.mpr fun kind => ?_⟩
  cases kind with
  | field => exact found fields
  | method => exact found methods

end ofTree

end MappingTable

end JarRemap
