import JarRemap.Proofs.ChainedTables
import JarRemap.Proofs.TableContents

/-!
# Turning a table around twice

Turning a table around puts every entry where it leads to, and writes entries that lead to the same place over
each other. A table is unambiguous if its names and its members can be told apart at both ends. Then the way back
holds every entry of the table, and turning it around again gives the table.
-/
namespace JarRemap

open Descriptor OrderedMap List

theorem MemberTable.exists_member {members : MemberTable} (occupied : members.isEmpty = false) :
    ∃ kind key, ((members.ofKind kind).get? key).isSome := by
  have some_entry {map : OrderedMap MemberKey String} (filled : map.isEmpty = false) :
      ∃ key, (map.get? key).isSome := by
    obtain ⟨⟨key, newName⟩, listed⟩ := exists_mem_of_ne_nil _ (isEmpty_eq_false_iff.mp filled)
    exact ⟨key, mem_keys.mp (mem_map.mpr ⟨_, listed, rfl⟩)⟩
  rw [isEmpty, Bool.and_eq_false_iff] at occupied
  rcases occupied with fields | methods
  · exact ⟨.field, some_entry fields⟩
  · exact ⟨.method, some_entry methods⟩

namespace MappingTable

variable {table back again : MappingTable} {name newName : String} {entry : MemberEntry}

/-- Everything in the table can be told apart, before and after renaming. -/
@[mk_iff] structure Unambiguous (table : MappingTable) : Prop where
  /-- No owner is listed without members. -/
  occupied : ∀ members ∈ table.members.values, members.isEmpty = false
  /-- Every name in a descriptor has its semicolon. -/
  terminated : ∀ entry ∈ table.memberEntries, Complete entry.key.descriptor
  /-- No new name of a class has a semicolon. -/
  separated : ∀ newName ∈ table.classes.values, ';' ∉ newName.toList
  /-- Different classes have different new names, where a class that is not renamed keeps its own. -/
  classes : ∀ one ∈ table.mentioned, ∀ other ∈ table.mentioned,
    table.className one = table.className other → one = other
  /-- Different members of a kind lead to different places. -/
  members : ∀ one ∈ table.memberEntries, ∀ other ∈ table.memberEntries, one.kind = other.kind →
    table.middleMember one = table.middleMember other → one.owner = other.owner ∧ one.key = other.key

instance (descriptor : String) : Decidable (Complete descriptor) :=
  inferInstanceAs (Decidable (_ = true))

instance (table : MappingTable) : Decidable table.Unambiguous :=
  decidable_of_iff' _ (unambiguous_iff table)

namespace Unambiguous

theorem joins (unambiguous : table.Unambiguous) : Joins table.source table.target table := by
  refine ⟨rfl, rfl, fun owner listed => ?_⟩
  obtain ⟨members, held⟩ := Option.isSome_iff_exists.mp (mem_keys.mp listed)
  obtain ⟨kind, key, found⟩ :=
    MemberTable.exists_member (unambiguous.occupied members (mem_values.mpr ⟨owner, held⟩))
  exact ⟨kind, key.name, key.descriptor, by simpa [member?, held] using found⟩

theorem mapDescriptor (unambiguous : table.Unambiguous) (listed : entry ∈ table.memberEntries) :
    table.mapDescriptor entry.key.descriptor = .ok (rename table.className entry.key.descriptor) :=
  mapDescriptor_eq_ok.mpr ⟨unambiguous.terminated entry listed, rfl⟩

section back

variable (unambiguous : table.Unambiguous) (inverted : table.invert = .ok back)
include unambiguous inverted

theorem back_class? : back.class? newName = some name ↔ table.class? name = some newName := by
  refine (invert_records inverted).class?_eq_some ?_
  intro newName one other renamed otherRenamed
  refine unambiguous.classes one (mentioned_of_class? renamed) other (mentioned_of_class? otherRenamed) ?_
  rw [className_of_some renamed, className_of_some otherRenamed]

theorem back_className (mentioned : name ∈ table.mentioned) : back.className (table.className name) = name := by
  refine className_led_back inverted fun key renamed => ?_
  exact unambiguous.classes key (mentioned_of_class? renamed) name mentioned (className_of_some renamed)

theorem mem_back : entry ∈ back.memberEntries ↔ table.IsTurned table.memberEntries entry := by
  refine (invert_records inverted).mem_memberEntries ?_
  rintro _ _ ⟨one, listed, descriptor, renamed, rfl⟩ ⟨other, otherListed, otherDescriptor, otherRenamed, rfl⟩
    ⟨kind, owner, key⟩
  obtain ⟨sameName, rfl⟩ := MemberKey.mk.inj key
  have place : table.middleMember one = table.middleMember other := by
    rw [middleMember_eq_ok.mpr ⟨owner, sameName, renamed⟩, middleMember_eq_ok.mpr ⟨rfl, rfl, otherRenamed⟩]
    rfl
  exact congrArg MemberKey.name (unambiguous.members one listed other otherListed kind place).2

theorem back_mapDescriptor (listed : entry ∈ table.memberEntries) :
    back.mapDescriptor (rename table.className entry.key.descriptor) = .ok entry.key.descriptor := by
  refine mapDescriptor_led_back (unambiguous.terminated entry listed) unambiguous.separated ?_
  intro name spelled
  exact unambiguous.back_className inverted (names_mentioned (mem_map_of_mem listed) spelled)

theorem turned_turned (listed : entry ∈ table.memberEntries) (descriptor : String) :
    back.turned (table.turned entry descriptor) entry.key.descriptor = entry := by
  have symbol : entry.symbol ∈ table.memberSymbols := mem_map_of_mem listed
  have owner : back.className (table.className entry.owner) = entry.owner :=
    unambiguous.back_className inverted (owner_mentioned symbol)
  simp only [turned, owner]

theorem isTurned_back : back.IsTurned back.memberEntries entry ↔ entry ∈ table.memberEntries := by
  constructor
  · rintro ⟨_, turned, descriptor, renamed, rfl⟩
    obtain ⟨old, listed, image, mapped, rfl⟩ := (unambiguous.mem_back inverted).mp turned
    obtain rfl := Outcome.unique (unambiguous.mapDescriptor listed) mapped
    obtain rfl := Outcome.unique (unambiguous.back_mapDescriptor inverted listed) renamed
    rwa [unambiguous.turned_turned inverted listed]
  · intro listed
    refine ⟨_, (unambiguous.mem_back inverted).mpr ⟨entry, listed, _, unambiguous.mapDescriptor listed, rfl⟩, _,
      unambiguous.back_mapDescriptor inverted listed, ?_⟩
    rw [unambiguous.turned_turned inverted listed]

theorem invert_back : ∃ again, back.invert = .ok again ∧ again.same table := by
  have mapped : ∀ entry ∈ back.memberEntries, ∃ descriptor,
      back.mapDescriptor entry.key.descriptor = .ok descriptor := by
    intro entry listed
    obtain ⟨old, oldListed, image, renamed, rfl⟩ := (unambiguous.mem_back inverted).mp listed
    obtain rfl := Outcome.unique (unambiguous.mapDescriptor oldListed) renamed
    exact ⟨_, unambiguous.back_mapDescriptor inverted oldListed⟩
  obtain ⟨again, restored⟩ := exists_invert mapped
  have joined := (invert_records inverted).toJoins
  have records := (invert_records restored).congr (fun _ _ => unambiguous.back_class? inverted)
    fun _ => unambiguous.isTurned_back inverted
  rw [joined.source_eq, joined.target_eq] at records
  refine ⟨again, restored, records.toJoins.same_of_entries unambiguous.joins ?_ ?_⟩
  · intro name newName
    exact records.class?_eq_some fun one other => Option.mem_unique one other
  · intro entry
    refine records.mem_memberEntries fun {one other} listed otherListed => ?_
    rintro ⟨kind, owner, key⟩
    rw [mem_memberEntries] at listed otherListed
    rw [kind, owner, key, otherListed] at listed
    exact (Option.some.inj listed).symm

end back

end Unambiguous

/-- An unambiguous table can be turned around, and twice so to itself. The way back leads between the same
namespaces, and gives each member its old name at the place that the table leads it to. -/
theorem invert_invert_same (unambiguous : table.Unambiguous) :
    ∃ back again, table.invert = .ok back ∧ back.source = table.target ∧ back.target = table.source ∧
      back.invert = .ok again ∧ again.same table ∧
      ∀ kind owner name descriptor newName, table.member? kind owner name descriptor = some newName →
        ∃ image, table.mapDescriptor descriptor = .ok image ∧
          back.member? kind (table.className owner) newName image = some name := by
  obtain ⟨back, inverted⟩ := exists_invert fun entry listed => ⟨_, unambiguous.mapDescriptor listed⟩
  obtain ⟨again, restored, same⟩ := unambiguous.invert_back inverted
  have joined := (invert_records inverted).toJoins
  refine ⟨back, again, inverted, joined.source_eq, joined.target_eq, restored, same, ?_⟩
  intro kind owner name descriptor newName held
  obtain ⟨entry, listed, ⟨rfl, rfl, key⟩, rfl⟩ := member?_eq_some.mp held
  have mapped := unambiguous.mapDescriptor listed
  have turned := (unambiguous.mem_back inverted).mpr ⟨entry, listed, _, mapped, rfl⟩
  rw [key] at mapped
  refine ⟨_, mapped, ?_⟩
  simpa [MappingTable.turned, key] using mem_memberEntries.mp turned

/-- Two classes that swap their names, methods that differ by their descriptors only, and a field of a class
that keeps its name. -/
def exchangingTable : MappingTable :=
  (((((empty "a" "b").insertClass "A" "B").insertClass "B" "A").insertMember
    ⟨"A", .method, ⟨"m", "(LA;LC;)LB;"⟩, "n"⟩).insertMember ⟨"A", .method, ⟨"m", "(LB;)V"⟩, "n"⟩).insertMember
    ⟨"C", .field, ⟨"f", "[LA;"⟩, "g"⟩

theorem invert_invert_same_exchanging :
    exchangingTable.Unambiguous ∧ ∃ back again, exchangingTable.invert = .ok back ∧
      back.invert = .ok again ∧ again.same exchangingTable ∧
      back.member? .method "B" "n" "(LA;)V" = some "m" ∧ back.member? .field "C" "g" "[LB;" = some "f" := by
  have facts : exchangingTable.Unambiguous ∧ exchangingTable.mapDescriptor "(LB;)V" = .ok "(LA;)V" ∧
      exchangingTable.mapDescriptor "[LA;" = .ok "[LB;" := by decide +kernel
  obtain ⟨unambiguous, method, field⟩ := facts
  obtain ⟨back, again, inverted, -, -, restored, same, leads⟩ := invert_invert_same unambiguous
  obtain ⟨_, methodMapped, methodBack⟩ := leads .method "A" "m" "(LB;)V" "n" (by decide)
  obtain ⟨_, fieldMapped, fieldBack⟩ := leads .field "C" "f" "[LA;" "g" (by decide)
  obtain rfl := Except.ok.inj (method.symm.trans methodMapped)
  obtain rfl := Except.ok.inj (field.symm.trans fieldMapped)
  exact ⟨unambiguous, back, again, inverted, restored, same, methodBack, fieldBack⟩

end MappingTable

end JarRemap
