import JarRemap.Proofs.OwnerLookups

/-!
# The fixups of a table

Whatever owners are told, an owner counts only if it is shorter than what it owns. So the owners of a class are
followed to an end, and the table of fixups has exactly the classes that they lead to a renamed class. It can always
be united with the table that it is made for.
-/
namespace JarRemap

namespace InnerOwners

variable {known : InnerOwners} {table : MappingTable} {name owner rest newName : String}

/-- The owners of a class, as they are known, lead up to the first class that the table renames. -/
def Reaches (known : InnerOwners) : MappingTable → (name owner : String) → Prop :=
  Leads fun name owner => known.ownerOf? name = some owner

theorem renamed?_eq_some : known.renamed? table name = some newName ↔
    ∃ owner newOwner rest, known.Reaches table name owner ∧ table.class? owner = some newOwner ∧
      name = owner ++ rest ∧ newName = newOwner ++ rest :=
  renamedWith_eq_some Iff.rfl le_rfl

theorem renamedWith_eq_renamed? {fuel : Nat} (enough : name.length ≤ fuel) :
    known.renamedWith table fuel name = known.renamed? table name := by
  apply Option.ext
  intro newName
  rw [renamed?, renamedWith_eq_some Iff.rfl enough, renamedWith_eq_some Iff.rfl le_rfl]

theorem splitOwner?_length_lt (split : known.splitOwner? name = some (owner, rest)) : owner.length < name.length := by
  obtain ⟨-, inner, rfl, -⟩ := (splitOwner?_eq_some Iff.rfl).mp split
  have one : "$".length = 1 := rfl
  simp only [String.length_append]
  omega

/-- The new name of a class that is not renamed itself is that of its owner with the rest, whatever the fuel. -/
theorem renamed?_eq (known : InnerOwners) (table : MappingTable) (name : String) :
    known.renamed? table name = (table.class? name).or
      ((known.splitOwner? name).bind fun split => (known.renamed? table split.1).map (· ++ split.2)) := by
  rw [← renamedWith_eq_renamed? (Nat.le_succ name.length), renamedWith_succ]
  congr 1
  refine Option.bind_congr ?_
  rintro ⟨owner, rest⟩ found
  exact congrArg (Option.map (· ++ rest)) (renamedWith_eq_renamed? (splitOwner?_length_lt found).le)

theorem Reaches.exists_renamed? (reaches : known.Reaches table name owner) :
    ∃ newOwner rest, table.class? owner = some newOwner ∧ name = owner ++ rest ∧
      known.renamed? table name = some (newOwner ++ rest) := by
  obtain ⟨newOwner, renamed⟩ := reaches.exists_renamed
  obtain ⟨rest, spelled⟩ := reaches.exists_rest
  exact ⟨newOwner, rest, renamed, spelled, renamed?_eq_some.mpr ⟨owner, newOwner, rest, reaches, renamed, spelled, rfl⟩⟩

theorem member?_fixupTable (known : InnerOwners) (table : MappingTable) (kind : MemberKind)
    (owner name descriptor : String) : (known.fixupTable table).member? kind owner name descriptor = none := by
  have members : (known.fixupTable table).members = ∅ := by
    rw [fixupTable_eq]
    refine List.foldlRecOn (motive := fun fixups : MappingTable => fixups.members = ∅) known.classes _ rfl ?_
    intro fixups kept name _
    rw [addFixup]
    cases table.class? name with
    | some => exact kept
    | none =>
      cases known.renamed? table name with
      | some | none => exact kept
  simp [MappingTable.member?, members]

theorem isSome_class?_fixupTable : ((known.fixupTable table).class? name).isSome ↔
      name ∈ known.classes ∧ table.class? name = none ∧ ∃ owner, known.Reaches table name owner := by
  rw [class?_fixupTable, ← and_assoc]
  split
  case isTrue here =>
    simp only [here, true_and, and_self, Option.isSome_iff_exists]
    constructor
    · rintro ⟨newName, found⟩
      obtain ⟨owner, -, -, reaches, -⟩ := renamed?_eq_some.mp found
      exact ⟨owner, reaches⟩
    · rintro ⟨owner, reaches⟩
      obtain ⟨newOwner, rest, -, -, found⟩ := reaches.exists_renamed?
      exact ⟨_, found⟩
  case isFalse elsewhere => simp [elsewhere]

theorem class?_fixupTable_of_reaches (found : (known.fixupTable table).class? name = some newName)
    (reaches : known.Reaches table name owner) :
    ∃ newOwner rest, table.class? owner = some newOwner ∧ name = owner ++ rest ∧ newName = newOwner ++ rest := by
  obtain ⟨newOwner, rest, renamed, spelled, given⟩ := reaches.exists_renamed?
  rw [class?_fixupTable, Option.ite_none_right_eq_some, given] at found
  exact ⟨newOwner, rest, renamed, spelled, (Option.some.inj found.2).symm⟩

theorem not_conflicts_fixupTable (known : InnerOwners) (table : MappingTable) :
    ¬ table.Conflicts (known.fixupTable table) := by
  rintro (⟨held, found, -⟩ | ⟨-, found, -⟩)
  · have present := isSome_class?_fixupTable.mp (Option.isSome_of_eq_some found)
    rw [present.2.1] at held
    cases held
  · rw [member?_fixupTable] at found
    cases found

/-- Owners are always followed to an end. The table of fixups has the known classes that are not renamed and whose
owners reach a renamed class; they take its new name and keep the rest of their own. It can be united with the table,
which keeps all its classes. -/
theorem fixupTable_follows_owners (known : InnerOwners) (table : MappingTable) :
    (∀ name, known.renamed? table name = (table.class? name).or
      ((known.splitOwner? name).bind fun split => (known.renamed? table split.1).map (· ++ split.2))) ∧
    (∀ name owner rest, known.splitOwner? name = some (owner, rest) → owner.length < name.length) ∧
    (∀ name, ((known.fixupTable table).class? name).isSome ↔
      name ∈ known.classes ∧ table.class? name = none ∧ ∃ owner, known.Reaches table name owner) ∧
    (∀ name newName owner, (known.fixupTable table).class? name = some newName → known.Reaches table name owner →
      ∃ newOwner rest, table.class? owner = some newOwner ∧ name = owner ++ rest ∧ newName = newOwner ++ rest) ∧
    ∃ united, table.unite (known.fixupTable table) = .ok united ∧
      ∀ name newName, table.class? name = some newName → united.class? name = some newName := by
  obtain ⟨united, joined⟩ := MappingTable.exists_unite.mpr (not_conflicts_fixupTable known table)
  refine ⟨renamed?_eq known table, fun _ _ _ => splitOwner?_length_lt, fun _ => isSome_class?_fixupTable,
    fun _ _ _ => class?_fixupTable_of_reaches, united, joined, fun name newName renamed => ?_⟩
  rw [MappingTable.class?_unite joined, renamed, Option.some_or]

/-- Owners that do not count: one owns itself, two own each other, and one is not continued by its class. -/
def tangledOwners : InnerOwners where
  classes := ["a$b$c", "d$1", "e$f", "s", "x", "x$y"]
  owners := ((((∅ : OrderedMap String String).insert "e$f" "a").insert "s" "s").insert "x" "x$y").insert "x$y" "x"

def renamedOwners : MappingTable :=
  (((MappingTable.empty "official" "named").insertClass "a" "net/Foo").insertClass "a$b" "net/Foo$Bar").insertClass
    "d" "net/D"

theorem fixupTable_follows_owners_tangledOwners :
    (tangledOwners.fixupTable renamedOwners).classes.entries = [("a$b$c", "net/Foo$Bar$c"), ("d$1", "net/D$1")] ∧
    (∃ owner, tangledOwners.Reaches renamedOwners "a$b$c" owner) ∧
    (¬ ∃ owner, tangledOwners.Reaches renamedOwners "x$y" owner) ∧
    ∃ united, renamedOwners.unite (tangledOwners.fixupTable renamedOwners) = .ok united ∧
      united.class? "a$b" = some "net/Foo$Bar" := by
  obtain ⟨-, -, listed, -, united, joined, kept⟩ := fixupTable_follows_owners tangledOwners renamedOwners
  have followed := (listed "a$b$c").mp (by decide +kernel)
  have stays : ¬ ((tangledOwners.fixupTable renamedOwners).class? "x$y").isSome := by decide +kernel
  refine ⟨by decide +kernel, followed.2.2, ?_, united, joined, kept _ _ (by decide +kernel)⟩
  intro reaches
  exact stays ((listed "x$y").mpr ⟨by decide, by decide +kernel, reaches⟩)

end InnerOwners

end JarRemap
