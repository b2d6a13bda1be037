import JarRemap.Proofs.TableComposition

/-!
# Tables that can be chained

A composed table renames as its two tables do in a row, provided that the first one keeps different symbols
apart (`KeepsApart`). An entry of the second table strays if it mentions a name that the first one takes away. In
tables that are `Chained` there is no such entry.
-/
namespace JarRemap

open Descriptor List MemberEntry

/-- A field or a method, with all that it is looked up by. -/
structure MemberSymbol where
  kind : MemberKind
  owner : String
  name : String
  descriptor : String
deriving DecidableEq

def MemberEntry.symbol (entry : MemberEntry) : MemberSymbol :=
  ⟨entry.kind, entry.owner, entry.key.name, entry.key.descriptor⟩

namespace MappingTable

variable {first next back table : MappingTable} {name newName : String} {member : MemberSymbol}

def mapMember (table : MappingTable) (member : MemberSymbol) : MemberSymbol where
  kind := member.kind
  owner := table.className member.owner
  name := table.memberName member.kind member.owner member.name member.descriptor
  descriptor := rename table.className member.descriptor

def memberSymbols (table : MappingTable) : List MemberSymbol := table.memberEntries.map symbol

/-- The classes by whose names the table is asked: those it renames, the owners of its members and those
in the descriptors of its members. -/
def mentioned (table : MappingTable) : List String :=
  table.classes.keys ++ table.memberSymbols.flatMap fun member =>
    member.owner :: names member.descriptor

theorem mem_memberSymbols : member ∈ table.memberSymbols ↔
      ∃ newName, table.member? member.kind member.owner member.name member.descriptor = some newName := by
  obtain ⟨kind, owner, name, descriptor⟩ := member
  simp only [memberSymbols, symbol, mem_map, MemberSymbol.mk.injEq]
  constructor
  · rintro ⟨entry, listed, rfl, rfl, rfl, rfl⟩
    exact ⟨entry.newName, mem_memberEntries.mp listed⟩
  · rintro ⟨newName, found⟩
    exact ⟨⟨owner, kind, ⟨name, descriptor⟩, newName⟩, mem_memberEntries.mpr found, rfl, rfl, rfl, rfl⟩

theorem mentioned_of_class? (renamed : table.class? name = some newName) : name ∈ table.mentioned := by
  have listed : (name, newName) ∈ table.classes.entries := OrderedMap.mem_entries.mpr renamed
  exact mem_append_left _ (mem_map.mpr ⟨_, listed, rfl⟩)

theorem owner_mentioned (listed : member ∈ table.memberSymbols) : member.owner ∈ table.mentioned :=
  mem_append_right _ (mem_flatMap.mpr ⟨member, listed, mem_cons_self⟩)

theorem names_mentioned (listed : member ∈ table.memberSymbols)
    (spelled : name ∈ names member.descriptor) : name ∈ table.mentioned :=
  mem_append_right _ (mem_flatMap.mpr ⟨member, listed, mem_cons_of_mem _ spelled⟩)

/-- The first table keeps the symbols apart that are used: it gives different names to different classes and
different members, among those that it mentions and those given. Names cannot be taken for something else
when descriptors are renamed or looked up: there is no semicolon in the name of a class, and descriptors
tell methods from fields. -/
structure KeepsApart (first next : MappingTable) (names : List String) (members : List MemberSymbol) :
    Prop where
  classes : ∀ name ∈ first.mentioned ++ names, ∀ other ∈ first.mentioned ++ names,
    first.className name = first.className other → name = other
  members : ∀ member ∈ first.memberSymbols ++ members, ∀ other ∈ first.memberSymbols ++ members,
    first.mapMember member = first.mapMember other → member = other
  separated : ∀ name ∈ first.mentioned ++ next.mentioned ++ first.classes.values, ';' ∉ name.toList
  kinds : ∀ member ∈ first.memberSymbols ++ next.memberSymbols,
    Text.startsWith '(' member.descriptor ↔ member.kind = .method

instance {names : List String} {members : List MemberSymbol} : Decidable (KeepsApart first next names members) :=
  decidable_of_iff (_ ∧ _ ∧ _ ∧ _)
    ⟨fun ⟨classes, members, separated, kinds⟩ => ⟨classes, members, separated, kinds⟩,
    fun apart => ⟨apart.classes, apart.members, apart.separated, apart.kinds⟩⟩

/-- The second table goes on where the first one ends, for the classes `names` and the members `members`.

The first table keeps symbols apart. A class that the second table mentions is not one that the first table
takes away. A new name does not start like an array or a constructor. -/
structure Chained (first next : MappingTable) (names : List String) (members : List MemberSymbol) : Prop
    extends keepsApart : KeepsApart first next names members where
  reachable : ∀ name ∈ next.mentioned, first.classes.contains name → name ∈ first.classes.values
  plainClasses : ∀ name ∈ first.classes.values, ¬ Text.startsWith '[' name
  plainMembers : ∀ entry ∈ first.memberEntries, ¬ Text.startsWith '<' entry.newName

instance {names : List String} {members : List MemberSymbol} : Decidable (Chained first next names members) :=
  decidable_of_iff (KeepsApart first next names members ∧ _ ∧ _ ∧ _)
    ⟨fun ⟨apart, reachable, plainClasses, plainMembers⟩ => ⟨apart, reachable, plainClasses, plainMembers⟩,
    fun chained => ⟨chained.keepsApart, chained.reachable, chained.plainClasses, chained.plainMembers⟩⟩

/-- A member that is looked up in tables that keep it apart, with a descriptor that can be renamed. -/
structure Used (first : MappingTable) (names : List String) (members : List MemberSymbol)
    (member : MemberSymbol) : Prop where
  listed : member ∈ first.memberSymbols ++ members
  owned : member.owner ∈ first.mentioned ++ names
  spelled : ∀ name ∈ Descriptor.names member.descriptor, name ∈ first.mentioned ++ names
  complete : Complete member.descriptor

/-- The table renames the class and gives its name to no other. -/
def TakesAway (table : MappingTable) (name : String) : Prop :=
  table.classes.contains name ∧ name ∉ table.classes.values

/-- The member is told by a class whose name the table takes away. -/
def Strays (table : MappingTable) (member : MemberSymbol) : Prop :=
  ∃ name ∈ member.owner :: names member.descriptor, table.TakesAway name

/-- The way back leads from the place of the entry to the member. -/
def LeadsTo (back : MappingTable) (entry : MemberEntry) (member : MemberSymbol) : Prop :=
  entry.kind = member.kind ∧ back.className entry.owner = member.owner ∧ entry.key.name = member.name ∧
    back.mapDescriptor entry.key.descriptor = .ok member.descriptor

instance : Decidable (table.TakesAway name) :=
  inferInstanceAs (Decidable (_ ∧ _))

instance : Decidable (table.Strays member) :=
  inferInstanceAs (Decidable (∃ name ∈ _, _))

section wayBack

theorem semicolon_notMem_className (separated : ∀ newName ∈ table.classes.values, ';' ∉ newName.toList)
    (plain : ';' ∉ name.toList) : ';' ∉ (table.className name).toList := by
  cases renamed : table.class? name with
  | none => rwa [className_of_none renamed]
  | some newName =>
    rw [className_of_some renamed]
    exact separated newName (mem_classes_values.mpr ⟨name, renamed⟩)

theorem mapDescriptor_led_back {descriptor : String} (complete : Complete descriptor)
    (separated : ∀ newName ∈ first.classes.values, ';' ∉ newName.toList)
    (led : ∀ name ∈ names descriptor, back.className (first.className name) = name) :
    back.mapDescriptor (rename first.className descriptor) = .ok descriptor := by
  have plain : ∀ name ∈ names descriptor, ';' ∉ (first.className name).toList :=
    fun name spelled => semicolon_notMem_className separated (semicolon_notMem_names spelled)
  refine mapDescriptor_eq_ok.mpr ⟨complete_rename complete plain, ?_⟩
  rw [rename_rename complete plain]
  exact (rename_eq_self complete led).symm

variable (inverted : first.invert = .ok back)

include inverted

/-- The way back from the new name of a class leads to the class, if no other class is given the name. -/
theorem className_led_back (alone : ∀ key, first.class? key = some (first.className name) → key = name) :
    back.className (first.className name) = name := by
  rcases invert_class? inverted (first.className name) with ⟨key, renamed, found⟩ | ⟨absent, missing⟩
  · rw [className_of_some found]
    exact alone key renamed
  · rw [className_of_none missing]
    refine className_of_none (Option.eq_none_iff_forall_ne_some.mpr fun newName renamed => ?_)
    exact absent name (className_of_some renamed ▸ renamed)

/-- A name that the first table does not take away is where the first table leads from the way back. -/
theorem className_back (kept : ¬ first.TakesAway name) : first.className (back.className name) = name := by
  rcases invert_class? inverted name with ⟨key, renamed, found⟩ | ⟨absent, missing⟩
  · rw [className_of_some found, className_of_some renamed]
  · rw [className_of_none missing]
    refine className_of_none (Option.eq_none_iff_forall_ne_some.mpr fun newName renamed => kept ?_)
    constructor
    · rw [OrderedMap.contains, ← class?, renamed, Option.isSome_some]
    · intro given
      obtain ⟨key, taken⟩ := mem_classes_values.mp given
      exact absent key taken

end wayBack

namespace KeepsApart

variable {names : List String} {members : List MemberSymbol} {descriptor : String}

section wayBack

variable (apart : KeepsApart first next names members) (inverted : first.invert = .ok back)

include apart

theorem separated_className (separated : ';' ∉ name.toList) : ';' ∉ (first.className name).toList :=
  semicolon_notMem_className (fun newName given => apart.separated newName (mem_append_right _ given))
    separated

include inverted

/-- The way back from the new name of a class leads to the class, since no other class has the name. -/
theorem back_className (used : name ∈ first.mentioned ++ names) : back.className (first.className name) = name :=
  className_led_back inverted fun key renamed => apart.classes key
    (mem_append_left _ (mentioned_of_class? renamed)) name used (className_of_some renamed)

theorem separated_back (separated : ';' ∉ name.toList) : ';' ∉ (back.className name).toList := by
  rcases invert_class? inverted name with ⟨key, renamed, found⟩ | ⟨-, missing⟩
  · rw [className_of_some found]
    exact apart.separated key
      (mem_append_left _ (mem_append_left _ (mentioned_of_class? renamed)))
  · rwa [className_of_none missing]

theorem back_rename (complete : Complete descriptor)
    (used : ∀ name ∈ Descriptor.names descriptor, name ∈ first.mentioned ++ names) :
    back.mapDescriptor (rename first.className descriptor) = .ok descriptor :=
  mapDescriptor_led_back complete
    (fun newName given => apart.separated newName (mem_append_right _ given))
    fun name spelled => apart.back_className inverted (used name spelled)

/-- A descriptor that was led back is renamed to itself again, unless a name in it was taken away. -/
theorem rename_back {led : String} (mapped : back.mapDescriptor descriptor = .ok led)
    (kept : ∀ name ∈ Descriptor.names descriptor, ¬ first.TakesAway name) :
    rename first.className led = descriptor := by
  obtain ⟨complete, rfl⟩ := mapDescriptor_eq_ok.mp mapped
  have separated : ∀ name ∈ Descriptor.names descriptor, ';' ∉ (back.className name).toList :=
    fun name spelled => apart.separated_back inverted (semicolon_notMem_names spelled)
  rw [rename_rename complete separated]
  exact rename_eq_self complete fun name spelled => className_back inverted (kept name spelled)

end wayBack

section composed

variable (apart : KeepsApart first next names members) (composed : Composed first next back table)

include apart

include composed in
theorem className_composed (used : name ∈ first.mentioned ++ names) :
    table.className name = next.className (first.className name) := by
  have answer := composed.classes name
  cases renamed : first.class? name with
  | some middle =>
    rw [renamed] at answer
    rw [className_of_some renamed, className_of_some answer]
  | none =>
    have unused : name ∉ first.classes.values := by
      intro given
      obtain ⟨key, taken⟩ := mem_classes_values.mp given
      have same : key = name := apart.classes key
        (mem_append_left _ (mentioned_of_class? taken)) name used
        ((className_of_some taken).trans (className_of_none renamed).symm)
      rw [same, renamed] at taken
      contradiction
    rw [renamed] at answer
    simp only [unused, if_false] at answer
    rw [className_of_none renamed, className, answer, ← className]

include composed in
theorem rename_composed (complete : Complete descriptor)
    (used : ∀ name ∈ Descriptor.names descriptor, name ∈ first.mentioned ++ names) : rename table.className descriptor =
      rename next.className (rename first.className descriptor) := by
  rw [rename_rename complete fun name spelled =>
    apart.separated_className (semicolon_notMem_names spelled)]
  exact rename_congr fun name spelled => apart.className_composed composed (used name spelled)

/-- A place that the second table knows is covered only by the member that the first one leads there. Two
members of the first table at the same place would have the same kind, since their descriptors start
alike, and would not be told apart. -/
theorem not_covers (listed : member ∈ first.memberSymbols ++ members)
    (absent : first.member? member.kind member.owner member.name member.descriptor = none)
    (known : { first.mapMember member with name := member.name } ∈ next.memberSymbols) :
    ¬ first.Covers (first.className member.owner) member.name
      (rename first.className member.descriptor) := by
  rintro ⟨entry, entryListed, placed⟩
  obtain ⟨owner, named, mapped⟩ := middleMember_eq_ok.mp placed
  obtain ⟨complete, described⟩ := mapDescriptor_eq_ok.mp mapped
  have held := mem_memberEntries.mp entryListed
  have symbolListed : entry.symbol ∈ first.memberSymbols := mem_map_of_mem entryListed
  have kind : entry.kind = member.kind := by
    have here := apart.kinds entry.symbol (mem_append_left _ symbolListed)
    have there := apart.kinds _ (mem_append_right _ known)
    simp only [mapMember, described, startsWith_rename complete] at there
    have both : entry.kind = .method ↔ member.kind = .method := here.symm.trans there
    cases left : entry.kind <;> cases right : member.kind <;> simp_all
  have same : entry.symbol = member := by
    refine apart.members entry.symbol (mem_append_left _ symbolListed) member listed ?_
    rw [mapMember, mapMember, symbol, memberName_of_some held, memberName_of_none absent, kind,
      owner, named, ← described]
  obtain ⟨newName, renamed⟩ := mem_memberSymbols.mp (same ▸ symbolListed)
  rw [renamed] at absent
  contradiction

include composed in
/-- What the composed table takes over from the second one stands where the first one leads to, unless it
strays. -/
theorem member?_next_of_composed (absent : first.member? member.kind member.owner member.name member.descriptor = none)
    (found : table.member? member.kind member.owner member.name member.descriptor = some newName) :
    next.member? member.kind (first.className member.owner) member.name
        (rename first.className member.descriptor) = some newName ∨
      ∃ entry ∈ next.memberEntries, first.Strays entry.symbol ∧ back.LeadsTo entry member ∧
        entry.newName = newName := by
  obtain ⟨entry, listed, kind, owner, name, led, named, -⟩ := composed.carried absent found
  by_cases strays : first.Strays entry.symbol
  · exact .inr ⟨entry, listed, strays, ⟨kind, owner, name, led⟩, named⟩
  · left
    have kept : ∀ name ∈ entry.owner :: Descriptor.names entry.key.descriptor, ¬ first.TakesAway name :=
      fun name spelled taken => strays ⟨name, spelled, taken⟩
    have held := mem_memberEntries.mp listed
    have ownerBack : first.className member.owner = entry.owner := by
      rw [← owner]
      exact className_back composed.inverted (kept _ mem_cons_self)
    have descriptorBack : rename first.className member.descriptor = entry.key.descriptor :=
      apart.rename_back composed.inverted led fun _ spelled => kept _ (mem_cons_of_mem _ spelled)
    rw [ownerBack, descriptorBack, ← kind, ← name, held, named]

include composed in
/-- A member that is used is renamed in one step as in two, or it gets the name from an entry of the second
table that strays. -/
theorem memberName_composed (used : Used first names members member) :
    table.memberName member.kind member.owner member.name member.descriptor =
        next.memberName member.kind (first.className member.owner)
          (first.memberName member.kind member.owner member.name member.descriptor)
          (rename first.className member.descriptor) ∨
      ∃ entry ∈ next.memberEntries, first.Strays entry.symbol ∧ back.LeadsTo entry member ∧
        table.memberName member.kind member.owner member.name member.descriptor = entry.newName := by
  cases held : first.member? member.kind member.owner member.name member.descriptor with
  | some middleName =>
    left
    obtain ⟨middle, mapped, found⟩ := composed.followed held
    obtain ⟨-, rfl⟩ := mapDescriptor_eq_ok.mp mapped
    rw [memberName_of_some held, memberName_of_some found]
  | none =>
    rw [memberName_of_none held]
    cases found : table.member? member.kind member.owner member.name member.descriptor with
    | some newName =>
      rw [memberName_of_some found]
      rcases apart.member?_next_of_composed composed held found with answer | strays
      · exact .inl (memberName_of_some answer).symm
      · obtain ⟨entry, listed, strays, leads, named⟩ := strays
        exact .inr ⟨entry, listed, strays, leads, named.symm⟩
    | none =>
      -- An entry of the second table would have been carried here, since nothing covers it.
      left
      rw [memberName_of_none found]
      symm
      refine memberName_of_none (Option.eq_none_iff_forall_ne_some.mpr fun newName known => ?_)
      have listed : { first.mapMember member with name := member.name } ∈ next.memberSymbols :=
        mem_memberSymbols.mpr ⟨newName, known⟩
      obtain ⟨led, mapped, present⟩ := composed.complete
        ⟨first.className member.owner, member.kind, ⟨member.name, rename first.className member.descriptor⟩, newName⟩
        (mem_memberEntries.mpr known) (apart.not_covers used.listed held listed)
      have described : led = member.descriptor := by
        have back := apart.back_rename composed.inverted used.complete used.spelled
        exact Outcome.unique mapped back
      rw [apart.back_className composed.inverted used.owned, described, found] at present
      exact absurd present Bool.false_ne_true

end composed

end KeepsApart

namespace Chained

variable {names : List String} {members : List MemberSymbol}

theorem not_strays (chained : Chained first next names members) (listed : member ∈ next.memberSymbols) :
    ¬ first.Strays member := by
  rintro ⟨name, spelled, contained, lost⟩
  have mentioned : name ∈ next.mentioned := by
    rcases mem_cons.mp spelled with isOwner | isNamed
    · exact isOwner ▸ owner_mentioned listed
    · exact names_mentioned listed isNamed
  exact lost (chained.reachable name mentioned contained)

theorem memberName_composed (chained : Chained first next names members)
    (composed : Composed first next back table) (used : Used first names members member) :
    table.memberName member.kind member.owner member.name member.descriptor =
      next.memberName member.kind (first.className member.owner)
        (first.memberName member.kind member.owner member.name member.descriptor)
        (Descriptor.rename first.className member.descriptor) := by
  refine (chained.keepsApart.memberName_composed composed used).resolve_right ?_
  rintro ⟨entry, listed, strays, -⟩
  exact chained.not_strays (mem_map_of_mem listed) strays

end Chained

end MappingTable

section lookups

open MappingTable

/-- Renames the class `A` to `B` and its method `f` to `g`. -/
def firstHopTable : MappingTable :=
  (empty "a" "b").insertClass "A" "B" |>.insertMember ⟨"A", .method, ⟨"f", "()LA;"⟩, "g"⟩

/-- Goes on to rename `B` to `C`, and `g` to `h`. Its field `x` and the class `D` are new. -/
def nextHopTable : MappingTable :=
  (empty "b" "c").insertClass "B" "C" |>.insertClass "D" "E"
    |>.insertMember ⟨"B", .field, ⟨"x", "I"⟩, "y"⟩ |>.insertMember ⟨"B", .method, ⟨"g", "()LB;"⟩, "h"⟩

/-- A composed table looks up twice: what it answers for a class or a member is what the second table answers
for the answers of the first one, whether or not the tables have entries for the symbol. The first table has
to keep apart the symbol that is asked for and those that it mentions.

There is one exception for members. An entry of the second table strays if it is about a class whose name the
first table takes away. It is carried over under that name, where it is found for members of the class that
had the name before. -/
theorem compose_looksUpTwice {first next table : MappingTable} (composed : first.compose next = .ok table) :
    (∀ name, KeepsApart first next [name] [] →
      table.className name = next.className (first.className name)) ∧
    ∀ member middle,
      KeepsApart first next (member.owner :: Descriptor.names member.descriptor) [member] →
      first.mapDescriptor member.descriptor = .ok middle →
      table.memberName member.kind member.owner member.name member.descriptor =
          next.memberName member.kind (first.className member.owner)
            (first.memberName member.kind member.owner member.name member.descriptor) middle ∨
        ∃ back, first.invert = .ok back ∧
          ∃ entry ∈ next.memberEntries, first.Strays entry.symbol ∧ back.LeadsTo entry member ∧
            table.memberName member.kind member.owner member.name member.descriptor = entry.newName := by
  obtain ⟨back, composed⟩ := compose_composed composed
  constructor
  · intro name apart
    exact apart.className_composed composed (List.mem_append_right _ List.mem_cons_self)
  · intro member middle apart mapped
    obtain ⟨complete, rfl⟩ := mapDescriptor_eq_ok.mp mapped
    have used : Used first (member.owner :: Descriptor.names member.descriptor) [member] member :=
      ⟨List.mem_append_right _ List.mem_cons_self, List.mem_append_right _ List.mem_cons_self,
        fun name spelled => List.mem_append_right _ (List.mem_cons_of_mem _ spelled), complete⟩
    rcases apart.memberName_composed composed used with twice | strays
    · exact .inl twice
    · exact .inr ⟨back, composed.inverted, strays⟩

/-- The method `f` of `A` is renamed twice. Its field `x` is renamed by the second table only. -/
theorem compose_looksUpTwice_hopTables : ∃ table, firstHopTable.compose nextHopTable = .ok table ∧
    KeepsApart firstHopTable nextHopTable ["A"] [] ∧
    KeepsApart firstHopTable nextHopTable ["A", "A"] [⟨.method, "A", "f", "()LA;"⟩] ∧
    KeepsApart firstHopTable nextHopTable ["A"] [⟨.field, "A", "x", "I"⟩] ∧
    table.className "A" = "C" ∧ table.memberName .method "A" "f" "()LA;" = "h" ∧
    table.memberName .field "A" "x" "I" = "y" := by
  have composed : firstHopTable.compose nextHopTable = .ok _ := rfl
  have forClass : KeepsApart firstHopTable nextHopTable ["A"] [] := by decide +kernel
  have forMethod : KeepsApart firstHopTable nextHopTable ["A", "A"] [⟨.method, "A", "f", "()LA;"⟩] := by
    decide +kernel
  have forField : KeepsApart firstHopTable nextHopTable ["A"] [⟨.field, "A", "x", "I"⟩] := by
    decide +kernel
  have settled : ∀ entry ∈ nextHopTable.memberEntries, ¬ firstHopTable.Strays entry.symbol := by
    decide +kernel
  obtain ⟨classes, members⟩ := compose_looksUpTwice composed
  refine ⟨_, composed, forClass, forMethod, forField, classes "A" forClass, ?_, ?_⟩
  · refine (members ⟨.method, "A", "f", "()LA;"⟩ "()LB;" forMethod (by decide +kernel)).resolve_right ?_
    rintro ⟨_, -, entry, listed, strays, -⟩
    exact settled entry listed strays
  · refine (members ⟨.field, "A", "x", "I"⟩ "I" forField (by decide +kernel)).resolve_right ?_
    rintro ⟨_, -, entry, listed, strays, -⟩
    exact settled entry listed strays

def takingTable : MappingTable := (empty "a" "b").insertClass "A" "B"

/-- Renames a field of a class called `A`, which is another class than the one that was called so before. -/
def strayTable : MappingTable := (empty "b" "c").insertMember ⟨"A", .field, ⟨"f", "I"⟩, "g"⟩

/-- The field `f` of the class `A` becomes the field `f` of `B`, which the second table does not rename. In one
step it is renamed all the same, by an entry that is about another class. -/
theorem compose_strays : ∃ table, takingTable.compose strayTable = .ok table ∧
    KeepsApart takingTable strayTable ["A"] [⟨.field, "A", "f", "I"⟩] ∧
    takingTable.mapDescriptor "I" = .ok "I" ∧
    table.memberName .field "A" "f" "I" = "g" ∧
    strayTable.memberName .field (takingTable.className "A") (takingTable.memberName .field "A" "f" "I") "I" =
      "f" := by
  exact ⟨_, rfl, by decide +kernel, by decide +kernel, by decide +kernel, by decide +kernel⟩

end lookups

end JarRemap
