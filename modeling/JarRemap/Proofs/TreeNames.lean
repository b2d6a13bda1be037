import JarRemap.Proofs.ReadTrees
import JarRemap.Proofs.TableLookups

/-!
# Names in the namespaces of a tree

Descriptors are kept in the first namespace of a tree; what they are in another one follows from the names of
the classes there (`nameIn`). A namespace is `Clear` if the tree can be told apart in it: then a member is
known by its owner, its name and its descriptor in that namespace, as it is in the first one.
-/
namespace JarRemap

open OrderedMap Descriptor List

theorem idxOf?_eq_some {names : List String} {name : String} {index : Nat} :
    names.idxOf? name = some index ↔ name ∈ names ∧ names.idxOf name = index := by
  rw [idxOf?, findIdx?_eq_some_iff_findIdx_eq, ← idxOf_lt_length_iff]
  constructor
  · rintro ⟨inside, rfl⟩
    exact ⟨inside, rfl⟩
  · rintro ⟨inside, rfl⟩
    exact ⟨inside, rfl⟩

namespace MappingTree

variable {tree : MappingTree} {i j k : Nat} {owner other : ClassNames} {member : MemberNames}
  {kind : MemberKind} {name : String}

/-- The name of a class of the first namespace in the namespace at the position. Classes that are not in the
tree keep their names. -/
def nameIn (tree : MappingTree) (i : Nat) (name : String) : String :=
  ((tree.classes.get? name).bind fun owner => owner.names[i]?).getD name

theorem nameIn_of_class {newName : String} (held : tree.classes.get? name = some owner)
    (named : owner.names[i]? = some newName) : tree.nameIn i name = newName := by
  simp [nameIn, held, named]

theorem nameIn_of_foreign (foreign : tree.classes.get? name = none) : tree.nameIn i name = name := by
  simp [nameIn, foreign]

/-- The name stands in the descriptor of a member. -/
def Mentions (tree : MappingTree) (name : String) : Prop :=
  ∃ owner ∈ tree.classes.values, ∃ kind, ∃ member ∈ (owner.members kind).values,
    name ∈ names member.descriptor

/-- All descriptors of members can be cut into pieces. -/
def Described (tree : MappingTree) : Prop :=
  ∀ owner ∈ tree.classes.values, ∀ kind, ∀ member ∈ (owner.members kind).values,
    Complete member.descriptor

section

variable (wellFormed : tree.WellFormed) (inside : i < tree.namespaces.length) (listed : owner ∈ tree.classes.values)
include wellFormed inside listed

theorem WellFormed.exists_name : ∃ name, owner.names[i]? = some name := by
  obtain ⟨key, held⟩ := mem_values.mp listed
  have length := (wellFormed.classes key owner held).names.length
  exact ⟨_, getElem?_eq_getElem (length ▸ inside)⟩

theorem WellFormed.exists_memberName (held : member ∈ (owner.members kind).values) :
    ∃ name, member.names[i]? = some name := by
  obtain ⟨key, ownerHeld⟩ := mem_values.mp listed
  obtain ⟨memberKey, memberHeld⟩ := mem_values.mp held
  have length := ((wellFormed.classes key owner ownerHeld).members kind memberKey member memberHeld).names.length
  exact ⟨_, getElem?_eq_getElem (length ▸ inside)⟩

end

theorem position_eq_ok : tree.position name = .ok i ↔ name ∈ tree.namespaces ∧ tree.namespaces.idxOf name = i := by
  rw [← idxOf?_eq_some, position]
  cases tree.namespaces.idxOf? name <;> simp

theorem WellFormed.get?_first (wellFormed : tree.WellFormed) (listed : owner ∈ tree.classes.values)
    (named : owner.names[0]? = some name) : tree.classes.get? name = some owner := by
  obtain ⟨key, held⟩ := mem_values.mp listed
  have first := wellFormed.named key owner held
  rw [head?_eq_getElem?, named] at first
  rwa [Option.some.inj first]

/-- In the namespace at the position, classes and members can be told apart by what they are called, and no
name of a class stops a descriptor from being cut into pieces. Names in descriptors that are not classes of
the tree are not the names of other classes either. -/
structure UnambiguousAt (tree : MappingTree) (i : Nat) : Prop where
  classes : (tree.classes.values.map fun owner => owner.names[i]?).Nodup
  members : ∀ owner ∈ tree.classes.values, ∀ kind,
    ((owner.members kind).values.map fun member => (member.names[i]?, member.descriptor)).Nodup
  separated : ∀ owner ∈ tree.classes.values, ∀ name ∈ owner.names[i]?, ';' ∉ name.toList
  foreign : ∀ owner ∈ tree.classes.values, ∀ kind, ∀ member ∈ (owner.members kind).values,
    ∀ name ∈ names member.descriptor, tree.classes.get? name = none →
      ∀ other ∈ tree.classes.values, other.names[i]? ≠ some name

/-- What holds of fields and of methods holds of all members. -/
instance {p : MemberKind → Prop} [DecidablePred p] : Decidable (∀ kind, p kind) :=
  decidable_of_iff (p .field ∧ p .method)
    ⟨fun both kind => match kind with | .field => both.1 | .method => both.2, fun all => ⟨all _, all _⟩⟩

instance (tree : MappingTree) (i : Nat) : Decidable (tree.UnambiguousAt i) :=
  decidable_of_iff (_ ∧ _ ∧ _ ∧ _)
    ⟨fun ⟨classes, members, separated, foreign⟩ => ⟨classes, members, separated, foreign⟩,
    fun clear => ⟨clear.classes, clear.members, clear.separated, clear.foreign⟩⟩

/-- The namespace at the position is one in which the tree can be told apart. -/
structure Clear (tree : MappingTree) (i : Nat) : Prop extends UnambiguousAt tree i where
  wellFormed : tree.WellFormed
  described : tree.Described
  inside : i < tree.namespaces.length

namespace Clear

section

variable (clear : tree.Clear i)
include clear

theorem eq_of_name (listed : owner ∈ tree.classes.values)
    (otherListed : other ∈ tree.classes.values) (same : owner.names[i]? = other.names[i]?) : owner = other :=
  inj_on_of_nodup_map clear.classes listed otherListed same

theorem separated_nameIn (mentioned : tree.Mentions name) :
    ';' ∉ (tree.nameIn i name).toList := by
  obtain ⟨_, -, _, member, -, named⟩ := mentioned
  have plain : ';' ∉ name.toList := semicolon_notMem_names named
  cases held : tree.classes.get? name with
  | none => rwa [nameIn_of_foreign held]
  | some owner =>
    have listed : owner ∈ tree.classes.values := mem_values.mpr ⟨name, held⟩
    obtain ⟨newName, called⟩ := clear.wellFormed.exists_name clear.inside listed
    rw [nameIn_of_class held called]
    exact clear.separated owner listed newName called

theorem nameIn_ne {known unknown : String}
    (held : tree.classes.get? known = some owner) (foreign : tree.classes.get? unknown = none)
    (mentioned : tree.Mentions unknown) : tree.nameIn i known ≠ tree.nameIn i unknown := by
  obtain ⟨place, placeListed, kind, member, memberHeld, named⟩ := mentioned
  have listed : owner ∈ tree.classes.values := mem_values.mpr ⟨known, held⟩
  obtain ⟨newName, called⟩ := clear.wellFormed.exists_name clear.inside listed
  rw [nameIn_of_class held called, nameIn_of_foreign foreign]
  rintro rfl
  exact clear.foreign place placeListed kind member memberHeld _ named foreign owner listed called

theorem injOn_nameIn : Set.InjOn (tree.nameIn i) { name | tree.Mentions name } := by
  intro one oneMentioned another anotherMentioned same
  cases oneHeld : tree.classes.get? one with
  | none =>
    cases anotherHeld : tree.classes.get? another with
    | none => rwa [nameIn_of_foreign oneHeld, nameIn_of_foreign anotherHeld] at same
    | some owner => exact absurd same.symm (clear.nameIn_ne anotherHeld oneHeld oneMentioned)
  | some owner =>
    cases anotherHeld : tree.classes.get? another with
    | none => exact absurd same (clear.nameIn_ne oneHeld anotherHeld anotherMentioned)
    | some other =>
      have listed : owner ∈ tree.classes.values := mem_values.mpr ⟨one, oneHeld⟩
      have otherListed : other ∈ tree.classes.values := mem_values.mpr ⟨another, anotherHeld⟩
      obtain ⟨newName, called⟩ := clear.wellFormed.exists_name clear.inside listed
      obtain ⟨otherName, otherCalled⟩ := clear.wellFormed.exists_name clear.inside otherListed
      rw [nameIn_of_class oneHeld called, nameIn_of_class anotherHeld otherCalled] at same
      obtain rfl : owner = other := clear.eq_of_name listed otherListed (by rw [called, otherCalled, same])
      have first := clear.wellFormed.named one owner oneHeld
      rw [clear.wellFormed.named another owner anotherHeld] at first
      exact (Option.some.inj first).symm

end

end Clear

section entries

variable {entry one another : MemberEntry} {otherMember : MemberNames}

/-- The entry says how the member of the class is called in the namespaces at `i` and `j`. -/
structure Spells (tree : MappingTree) (i j : Nat) (owner : ClassNames) (member : MemberNames)
    (entry : MemberEntry) : Prop where
  owned : owner.names[i]? = some entry.owner
  named : member.names[i]? = some entry.key.name
  described : entry.key.descriptor = rename (tree.nameIn i) member.descriptor
  renamed : member.names[j]? = some entry.newName

theorem kind_and_spells_iff {ownerName newName : String} (owned : owner.names[i]? = some ownerName)
    (named : member.names[i]? = some name) (renamed : member.names[j]? = some newName) :
    entry.kind = kind ∧ tree.Spells i j owner member entry ↔
      entry = ⟨ownerName, kind, ⟨name, rename (tree.nameIn i) member.descriptor⟩, newName⟩ := by
  constructor
  · rintro ⟨rfl, spells⟩
    obtain ⟨_, _, ⟨_, _⟩, _⟩ := entry
    obtain rfl := Option.mem_unique owned spells.owned
    obtain rfl := Option.mem_unique named spells.named
    obtain rfl := Option.mem_unique renamed spells.renamed
    obtain rfl := spells.described
    rfl
  · rintro rfl
    exact ⟨rfl, owned, named, rfl, renamed⟩

/-- The entry is that of a member of the tree. -/
structure IsEntry (tree : MappingTree) (i j : Nat) (owner : ClassNames) (member : MemberNames)
    (entry : MemberEntry) : Prop extends Spells tree i j owner member entry where
  listed : owner ∈ tree.classes.values
  held : member ∈ (owner.members entry.kind).values

theorem IsEntry.mentions (isEntry : tree.IsEntry i j owner member entry)
    (named : name ∈ names member.descriptor) : tree.Mentions name :=
  ⟨owner, isEntry.listed, entry.kind, member, isEntry.held, named⟩

theorem IsEntry.complete (isEntry : tree.IsEntry i j owner member entry) (described : tree.Described) :
    Complete member.descriptor :=
  described owner isEntry.listed entry.kind member isEntry.held

theorem IsEntry.unique (clear : tree.Clear i) (isOne : tree.IsEntry i j owner member one)
    (isAnother : tree.IsEntry i k other otherMember another)
    (same : one.IsAt another.kind another.owner another.key.name another.key.descriptor) :
    owner = other ∧ member = otherMember := by
  obtain ⟨sameKind, sameOwner, sameKey⟩ := same
  obtain rfl : owner = other := by
    refine clear.eq_of_name isOne.listed isAnother.listed ?_
    rw [isOne.owned, isAnother.owned, sameOwner]
  have sameDescriptor : member.descriptor = otherMember.descriptor := by
    refine rename_injective clear.injOn_nameIn (fun _ => clear.separated_nameIn)
      (isOne.complete clear.described) (fun _ => isOne.mentions)
      (isAnother.complete clear.described) (fun _ => isAnother.mentions) ?_
    rw [← isOne.described, ← isAnother.described, sameKey]
  have otherHeld : otherMember ∈ (owner.members one.kind).values := sameKind ▸ isAnother.held
  refine ⟨rfl, inj_on_of_nodup_map (clear.members owner isOne.listed one.kind) isOne.held otherHeld ?_⟩
  rw [isOne.named, isAnother.named, sameKey, sameDescriptor]

theorem IsEntry.exists_entry {l : Nat} (wellFormed : tree.WellFormed)
    (source : k < tree.namespaces.length) (target : l < tree.namespaces.length)
    (isEntry : tree.IsEntry i j owner member entry) :
    ∃ moved, tree.IsEntry k l owner member moved ∧ moved.kind = entry.kind := by
  obtain ⟨newOwner, owned⟩ := wellFormed.exists_name source isEntry.listed
  obtain ⟨name, named⟩ := wellFormed.exists_memberName source isEntry.listed isEntry.held
  obtain ⟨newName, renamed⟩ := wellFormed.exists_memberName target isEntry.listed isEntry.held
  exact ⟨⟨newOwner, entry.kind, ⟨name, rename (tree.nameIn k) member.descriptor⟩, newName⟩,
    ⟨⟨owned, named, rfl, renamed⟩, isEntry.listed, isEntry.held⟩, rfl⟩

end entries

end MappingTree

end JarRemap
