import JarRemap.Mapping.Table
import JarRemap.Proofs.DescriptorPieces
import JarRemap.Proofs.OrderedMaps

/-!
# Looking up in mapping tables

A table is known by its answers: inserting changes the answer at one place and no other, and the entries
of a table are the answers it gives. Everything that is built by inserting one entry after another is
described by the entry that was inserted last.
-/
namespace JarRemap

open OrderedMap MemberEntry

namespace MemberTable

@[simp] theorem ofKind_empty (kind : MemberKind) : empty.ofKind kind = ∅ := by
  cases kind <;> rfl

@[simp] theorem ofKind_setKind (members : MemberTable) (kind other : MemberKind)
    (entries : OrderedMap MemberKey String) : (members.setKind kind entries).ofKind other =
      if kind = other then entries else members.ofKind other := by
  cases kind <;> cases other <;> rfl

end MemberTable

/-- The entry is about the member of that kind, owner, name and descriptor. -/
def MemberEntry.IsAt (entry : MemberEntry) (kind : MemberKind) (owner name descriptor : String) : Prop :=
  entry.kind = kind ∧ entry.owner = owner ∧ entry.key = ⟨name, descriptor⟩

namespace MemberEntry

variable {entry : MemberEntry} {kind : MemberKind} {owner name descriptor : String}

instance : Decidable (entry.IsAt kind owner name descriptor) :=
  inferInstanceAs (Decidable (_ ∧ _ ∧ _))

@[simp] theorem isAt_rename (newName : String) :
    IsAt { entry with newName } kind owner name descriptor ↔ entry.IsAt kind owner name descriptor := Iff.rfl

end MemberEntry

namespace MappingTable

variable {table back : MappingTable} {kind : MemberKind} {name owner descriptor newName : String}

@[simp] theorem class?_empty (source target name : String) : (empty source target).class? name = none := rfl

@[simp] theorem member?_empty (source target : String) (kind : MemberKind) (owner name descriptor : String) :
    (empty source target).member? kind owner name descriptor = none := rfl

@[simp] theorem class?_insertClass (table : MappingTable) (name newName other : String) :
    (table.insertClass name newName).class? other = if name = other then some newName else table.class? other :=
  get?_insert ..

@[simp] theorem member?_insertClass (table : MappingTable) (name newName : String) :
    (table.insertClass name newName).member? = table.member? := rfl

@[simp] theorem class?_insertMember (table : MappingTable) (entry : MemberEntry) :
    (table.insertMember entry).class? = table.class? := rfl

@[simp] theorem member?_insertMember (table : MappingTable) (entry : MemberEntry) (kind : MemberKind)
    (owner name descriptor : String) : (table.insertMember entry).member? kind owner name descriptor =
      if entry.IsAt kind owner name descriptor then some entry.newName
      else table.member? kind owner name descriptor := by
  by_cases sameOwner : entry.owner = owner
  · subst sameOwner
    by_cases sameKind : entry.kind = kind
    · subst sameKind
      cases held : table.members.get? entry.owner <;> simp [insertMember, member?, update, IsAt, held]
    · cases held : table.members.get? entry.owner <;>
        simp [insertMember, member?, update, IsAt, held, sameKind]
  · simp [insertMember, member?, update, IsAt, sameOwner]

theorem mem_memberEntries : entry ∈ table.memberEntries ↔
      table.member? entry.kind entry.owner entry.key.name entry.key.descriptor = some entry.newName := by
  obtain ⟨owner, kind, ⟨name, descriptor⟩, newName⟩ := entry
  cases kind <;> simp [memberEntries, member?, mem_entries, Option.bind_eq_some_iff, MemberTable.ofKind]

theorem member?_eq_some : table.member? kind owner name descriptor = some newName ↔
      ∃ entry ∈ table.memberEntries, entry.IsAt kind owner name descriptor ∧ entry.newName = newName := by
  constructor
  · intro found
    exact ⟨⟨owner, kind, ⟨name, descriptor⟩, newName⟩, mem_memberEntries.mpr found, ⟨rfl, rfl, rfl⟩, rfl⟩
  · rintro ⟨⟨_, _, _, _⟩, listed, ⟨rfl, rfl, rfl⟩, rfl⟩
    exact mem_memberEntries.mp listed

section

variable {ι : Type} (key value : ι → String) (entries : List ι) (table : MappingTable)

theorem class?_insertClasses (name : String) : (∃ entry ∈ entries, key entry = name ∧
      (entries.foldl (fun table entry => table.insertClass (key entry) (value entry)) table).class? name =
        some (value entry)) ∨ ((∀ entry ∈ entries, key entry ≠ name) ∧
      (entries.foldl (fun table entry => table.insertClass (key entry) (value entry)) table).class? name =
        table.class? name) := by
  induction entries generalizing table with
  | nil => exact .inr ⟨by simp, rfl⟩
  | cons entry rest ih =>
    rcases ih (table.insertClass (key entry) (value entry)) with
      ⟨later, listed, found, decided⟩ | ⟨absent, unchanged⟩
    · exact .inl ⟨later, List.mem_cons_of_mem _ listed, found, decided⟩
    · by_cases here : key entry = name
      · exact .inl ⟨entry, List.mem_cons_self, here, by simpa [here] using unchanged⟩
      · exact .inr ⟨List.forall_mem_cons.mpr ⟨here, absent⟩, by simpa [here] using unchanged⟩

theorem member?_insertClasses :
    (entries.foldl (fun table entry => table.insertClass (key entry) (value entry)) table).member? = table.member? := by
  induction entries generalizing table with
  | nil => rfl
  | cons entry rest ih => exact ih _

end

theorem mem_classes_values :
    newName ∈ table.classes.values ↔ ∃ name, table.class? name = some newName :=
  mem_values

theorem className_of_some (renamed : table.class? name = some newName) :
    table.className name = newName := by
  rw [className, renamed, Option.getD_some]

theorem className_of_none (kept : table.class? name = none) : table.className name = name := by
  rw [className, kept, Option.getD_none]

def memberName (table : MappingTable) (kind : MemberKind) (owner name descriptor : String) : String :=
  (table.member? kind owner name descriptor).getD name

theorem memberName_of_some (renamed : table.member? kind owner name descriptor = some newName) :
    table.memberName kind owner name descriptor = newName := by
  rw [memberName, renamed, Option.getD_some]

theorem memberName_of_none (kept : table.member? kind owner name descriptor = none) :
    table.memberName kind owner name descriptor = name := by
  rw [memberName, kept, Option.getD_none]

@[simp] theorem renamer_mapClass (table : MappingTable) (name : String) :
    table.renamer.mapClass name = .ok (table.className name) := rfl

@[simp] theorem renamer_mapField (table : MappingTable) (owner name descriptor : String) :
    table.renamer.mapField owner name descriptor = .ok (table.memberName .field owner name descriptor) := rfl

@[simp] theorem renamer_mapMethod (table : MappingTable) (owner name descriptor : String) :
    table.renamer.mapMethod owner name descriptor = .ok (table.memberName .method owner name descriptor) :=
  rfl

theorem mapDescriptor_eq_ok {new : String} : table.mapDescriptor descriptor = .ok new ↔
      Descriptor.Complete descriptor ∧ new = Descriptor.rename table.className descriptor :=
  Renamer.mapDescriptor_total table.renamer_mapClass

def invertClasses (table : MappingTable) : MappingTable :=
  table.classes.entries.foldl (fun back (name, newName) => back.insertClass newName name)
    (empty table.target table.source)

theorem class?_of_invert (inverted : table.invert = .ok back) : back.class? = table.invertClasses.class? := by
  refine Outcome.foldlM_induction (fun _ state => state.class? = table.invertClasses.class?) ?_ rfl inverted
  intro _ state entry next unchanged stepped
  simp only [Outcome.bind_eq_ok, Outcome.pure_eq_ok] at stepped
  obtain ⟨descriptor, -, rfl⟩ := stepped
  simpa using unchanged

theorem invert_class? (inverted : table.invert = .ok back) (name : String) :
    (∃ key, table.class? key = some name ∧ back.class? name = some key) ∨
      ((∀ key, table.class? key ≠ some name) ∧ back.class? name = none) := by
  rw [class?_of_invert inverted]
  rcases class?_insertClasses Prod.snd Prod.fst table.classes.entries
      (empty table.target table.source) name with ⟨⟨key, _⟩, listed, rfl, decided⟩ | ⟨absent, unchanged⟩
  · exact .inl ⟨key, mem_entries.mp listed, decided⟩
  · refine .inr ⟨fun key renamed => ?_, unchanged⟩
    exact absent (key, name) (mem_entries.mpr renamed) rfl

end MappingTable

end JarRemap
