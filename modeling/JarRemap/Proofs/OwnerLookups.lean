import JarRemap.Job.Engine
import JarRemap.Proofs.TableUnion
import JarRemap.Proofs.TextCuts

/-!
# Owners of inner classes and the tables that use them

`Leads` follows the owners of a class up to the first class that the mappings rename, wherever the owners are told.
A class that is led to it gets its new name, with the rest of the own name. Only the classes of one archive are
gone through. `Follows` says exactly which name each class gets.
-/
namespace JarRemap

open List Outcome MappingTable Text

variable {declared : List InnerClass} {names : List String}

namespace Text

theorem stripStart?_eq_some {start text rest : String} : stripStart? start text = some rest ↔ text = start ++ rest := by
  simp only [stripStart?, Option.map_eq_some_iff, dropStart?_eq_some]
  constructor
  · rintro ⟨chars, split, rfl⟩
    apply String.toList_inj.mp
    rw [split, String.toList_append, String.toList_ofList]
  · rintro rfl
    exact ⟨rest.toList, String.toList_append, String.ofList_toList⟩

theorem startsWith_dollar_iff {text : String} : startsWith '$' text = true ↔ ∃ rest, text = "$" ++ rest := by
  rw [startsWith, beq_iff_eq, List.head?_eq_some_iff]
  constructor
  · rintro ⟨rest, spelled⟩
    refine ⟨String.ofList rest, String.toList_inj.mp ?_⟩
    rw [spelled, String.toList_append, String.toList_ofList]
    simp
  · rintro ⟨rest, rfl⟩
    exact ⟨rest.toList, String.toList_append⟩

end Text

namespace InnerOwners

variable {known : InnerOwners} {table mappings : MappingTable} {name owner rest newName : String}

/-- The owner in the first declaration of a class that gives one. -/
def declaredOwner? (declared : List InnerClass) (name : String) : Option String :=
  declared.findSome? fun inner => if inner.inner = name then inner.outer else none

/-- The class in the entry has this name and declares these inner classes. -/
def Declares (entry : ClassEntry) (name : String) (declared : List InnerClass) : Prop :=
  ∃ file, ClassFile.read entry.bytes = .ok file ∧ file.name = .ok name ∧ file.innerClasses = .ok declared

/-- The classes in some entries have these names, and together they declare these inner classes. -/
def Declare (entries : List ClassEntry) (names : List String) (declared : List InnerClass) : Prop :=
  ∃ told : List (String × List InnerClass),
    Forall₂ (fun entry item => Declares entry item.1 item.2) entries told ∧
    names = told.map Prod.fst ∧ declared = told.flatMap Prod.snd

/-- What is known of some classes are their names and the owners that they declare. -/
structure Knows (known : InnerOwners) (names : List String) (declared : List InnerClass) : Prop where
  classes : ∀ name, name ∈ known.classes ↔ name ∈ names
  owners : ∀ name, known.owners.get? name = declaredOwner? declared name

theorem declaredOwner?_append (first second : List InnerClass) (name : String) :
    declaredOwner? (first ++ second) name = (declaredOwner? first name).or (declaredOwner? second name) :=
  List.findSome?_append

theorem get?_addInner (owners : OrderedMap String String) (inner : InnerClass) (name : String) :
    (addInner owners inner).get? name = (owners.get? name).or (declaredOwner? [inner] name) := by
  obtain ⟨inner, outer, simpleName, flags⟩ := inner
  cases outer with
  | none => simp [addInner, declaredOwner?]
  | some outer =>
    by_cases same : inner = name
    · subst same
      cases held : owners.get? inner <;> simp [addInner, declaredOwner?, OrderedMap.contains, held]
    · cases held : owners.get? inner <;> simp [addInner, declaredOwner?, OrderedMap.contains, held, same]

theorem get?_foldl_addInner (declared : List InnerClass) (owners : OrderedMap String String) (name : String) :
    (declared.foldl addInner owners).get? name = (owners.get? name).or (declaredOwner? declared name) := by
  induction declared generalizing owners with
  | nil => simp [declaredOwner?]
  | cons inner declared ih =>
    rw [foldl_cons, ih, get?_addInner, Option.or_assoc, ← declaredOwner?_append, singleton_append]

theorem Knows.addClass {entry : ClassEntry} {next : InnerOwners}
    (knows : known.Knows names declared) (added : known.addClass entry = .ok next) :
    ∃ name more, Declares entry name more ∧ next.Knows (names ++ [name]) (declared ++ more) := by
  simp only [InnerOwners.addClass, bind_eq_ok, within_eq_ok, pure_eq_ok] at added
  obtain ⟨file, read, name, named, more, listed, rfl⟩ := added
  refine ⟨name, more, ⟨file, read, named, listed⟩, fun other => ?_, fun other => ?_⟩
  · rw [mem_append, mem_singleton, ← knows.classes]
    by_cases seen : name ∈ known.classes
    · have repeated : other = name → other ∈ known.classes := fun same => same ▸ seen
      simpa [seen] using repeated
    · simp [seen]
  · rw [get?_foldl_addInner, knows.owners, declaredOwner?_append]

theorem exists_knows_of_ofImage {image : ArchiveImage} (gathered : ofImage image = .ok known) :
    ∃ names declared, Declare image.classes names declared ∧ known.Knows names declared := by
  refine foldlM_induction
    (fun entries known => ∃ names declared, Declare entries names declared ∧ known.Knows names declared) ?_ ?_ gathered
  · rintro done state entry next ⟨_, _, ⟨told, each, rfl, rfl⟩, knows⟩ added
    obtain ⟨name, more, declares, knowsMore⟩ := knows.addClass added
    refine ⟨_, _, ⟨told ++ [(name, more)], rel_append each (.cons declares .nil), ?_, ?_⟩, knowsMore⟩
    · rw [map_append, map_singleton]
    · rw [flatMap_append, flatMap_singleton]
  · exact ⟨[], [], ⟨[], .nil, rfl, rfl⟩, by simp, fun _ => rfl⟩

section chains

variable {names : List String} {declared : List InnerClass}

/-- The owner of a class, as it is declared, or else what stands before the last dollar sign. -/
def OwnedBy (declared : List InnerClass) (name owner : String) : Prop :=
  owner ≠ "" ∧ (declaredOwner? declared name = some owner ∨
    declaredOwner? declared name = none ∧ ∃ last, name = owner ++ "$" ++ last ∧ '$' ∉ last.toList)

section leading

variable {owns : String → String → Prop}

/-- From a class over its owners to the first class that the table renames. Each class on the way continues its
owner by a dollar sign. -/
inductive Leads (owns : String → String → Prop) (table : MappingTable) : (name owner : String) → Prop
  | here {name newName : String} (renamed : table.class? name = some newName) : Leads owns table name name
  | up {name inner owner last : String} (kept : table.class? name = none) (owned : owns name owner)
    (spelled : name = owner ++ "$" ++ inner) (further : Leads owns table owner last) : Leads owns table name last

theorem Leads.exists_rest (leads : Leads owns table name owner) : ∃ rest, name = owner ++ rest := by
  induction leads with
  | here => exact ⟨"", String.append_empty.symm⟩
  | @up name inner owner last _ _ spelled _ ih =>
    obtain ⟨rest, rfl⟩ := ih
    refine ⟨rest ++ "$" ++ inner, ?_⟩
    rw [spelled]
    simp only [String.append_assoc]

theorem Leads.exists_renamed (leads : Leads owns table name owner) :
    ∃ newOwner, table.class? owner = some newOwner := by
  induction leads with
  | here renamed => exact ⟨_, renamed⟩
  | up _ _ _ _ ih => exact ih

/-- The new name of the class that the owners lead to, with the rest of the name. -/
def LeadsTo (owns : String → String → Prop) (table : MappingTable) (name newName : String) : Prop :=
  ∃ owner newOwner rest, Leads owns table name owner ∧ table.class? owner = some newOwner ∧ name = owner ++ rest ∧
    newName = newOwner ++ rest

theorem leadsTo_of_some {given : String} (renamed : table.class? name = some given) :
    LeadsTo owns table name newName ↔ newName = given := by
  constructor
  · rintro ⟨owner, newOwner, rest, leads, renamedOwner, spelled, rfl⟩
    cases leads with
    | here =>
      obtain rfl : rest = "" := (String.append_right_inj name).mp (spelled.symm.trans String.append_empty.symm)
      rw [renamed] at renamedOwner
      cases renamedOwner
      exact String.append_empty
    | up kept => simp [kept] at renamed
  · rintro rfl
    exact ⟨name, newName, "", .here renamed, renamed, String.append_empty.symm, String.append_empty.symm⟩

theorem leadsTo_of_none (kept : table.class? name = none) : LeadsTo owns table name newName ↔
      ∃ owner inner newOwner, owns name owner ∧ name = owner ++ "$" ++ inner ∧
        LeadsTo owns table owner newOwner ∧ newName = newOwner ++ "$" ++ inner := by
  constructor
  · rintro ⟨last, newLast, rest, leads, renamed, spelledRest, rfl⟩
    cases leads with
    | here => simp [kept] at renamed
    | @up _ inner owner _ _ owned spelled further =>
      obtain ⟨more, spelledOwner⟩ := further.exists_rest
      refine ⟨owner, inner, newLast ++ more, owned, spelled,
        ⟨last, newLast, more, further, renamed, spelledOwner, rfl⟩, ?_⟩
      have same : last ++ rest = last ++ (more ++ "$" ++ inner) := by
        rw [← spelledRest, spelled, spelledOwner]
        simp only [String.append_assoc]
      rw [(String.append_right_inj last).mp same]
      simp only [String.append_assoc]
  · rintro ⟨owner, inner, _, owned, spelled, ⟨last, newLast, more, further, renamed, spelledOwner, rfl⟩, rfl⟩
    refine ⟨last, newLast, more ++ "$" ++ inner, .up kept owned spelled further, renamed, ?_, ?_⟩
    · rw [spelled, spelledOwner]
      simp only [String.append_assoc]
    · simp only [String.append_assoc]

theorem renamedWith_zero : known.renamedWith table 0 name = table.class? name := by
  unfold renamedWith
  cases table.class? name <;> rfl

theorem renamedWith_succ {fuel : Nat} : known.renamedWith table (fuel + 1) name = (table.class? name).or
      ((known.splitOwner? name).bind fun (owner, rest) => (known.renamedWith table fuel owner).map (· ++ rest)) := by
  conv_lhs => unfold renamedWith
  cases table.class? name with
  | some => rfl
  | none => cases known.splitOwner? name <;> rfl

section

variable (tells : ∀ {name owner}, known.ownerOf? name = some owner ↔ owns name owner)
include tells

theorem splitOwner?_eq_some : known.splitOwner? name = some (owner, rest) ↔
      owns name owner ∧ ∃ inner, name = owner ++ "$" ++ inner ∧ rest = "$" ++ inner := by
  simp only [splitOwner?, bind, Option.bind_eq_some_iff, tells, stripStart?_eq_some,
    startsWith_dollar_iff, Option.ite_none_right_eq_some, Option.some.injEq, Prod.mk.injEq]
  constructor
  · rintro ⟨_, owned, _, spelled, ⟨inner, continues⟩, rfl, rfl⟩
    exact ⟨owned, inner, by rw [spelled, continues, String.append_assoc], continues⟩
  · rintro ⟨owned, inner, spelled, rfl⟩
    exact ⟨owner, owned, _, by rw [spelled, String.append_assoc], ⟨inner, rfl⟩, rfl, rfl⟩

/-- The name that the owners of a class lead to. The fuel is enough, since every owner is shorter than what it
owns. -/
theorem renamedWith_eq_some {fuel : Nat} (enough : name.length ≤ fuel) :
    known.renamedWith table fuel name = some newName ↔ LeadsTo owns table name newName := by
  induction fuel generalizing name newName with
  | zero =>
    rw [renamedWith_zero]
    cases found : table.class? name with
    | some given => rw [leadsTo_of_some found, Option.some.injEq, eq_comm]
    | none =>
      rw [leadsTo_of_none found]
      refine iff_of_false nofun ?_
      rintro ⟨owner, inner, _, _, spelled, _⟩
      simp [spelled] at enough
  | succ fuel ih =>
    rw [renamedWith_succ]
    cases found : table.class? name with
    | some given => rw [leadsTo_of_some found, Option.some_or, Option.some.injEq, eq_comm]
    | none =>
      simp only [leadsTo_of_none found, Option.none_or, Option.bind_eq_some_iff, Prod.exists,
        splitOwner?_eq_some tells, Option.map_eq_some_iff]
      have shorter : ∀ owner inner, name = owner ++ "$" ++ inner → owner.length ≤ fuel := by
        rintro owner inner rfl
        simp only [String.length_append] at enough
        have one : "$".length = 1 := rfl
        omega
      constructor
      · rintro ⟨owner, _, ⟨owned, inner, spelled, rfl⟩, newOwner, above, rfl⟩
        have leads := (ih (shorter owner inner spelled)).mp above
        exact ⟨owner, inner, newOwner, owned, spelled, leads, String.append_assoc.symm⟩
      · rintro ⟨owner, inner, newOwner, owned, spelled, leads, rfl⟩
        have above := (ih (shorter owner inner spelled)).mpr leads
        exact ⟨owner, _, ⟨owned, inner, spelled, rfl⟩, newOwner, above, String.append_assoc.symm⟩

end

end leading

/-- The new name of a class, where the classes with these names are gone through. -/
structure Follows (names : List String) (declared : List InnerClass) (mappings : MappingTable)
    (name newName : String) : Prop where
  renamed : ∀ given, mappings.class? name = some given → newName = given
  follows : mappings.class? name = none → name ∈ names →
    ∀ given, LeadsTo (OwnedBy declared) mappings name given → newName = given
  stays : mappings.class? name = none → (name ∈ names → ∀ given, ¬ LeadsTo (OwnedBy declared) mappings name given) →
    newName = name

theorem ownerOf?_eq_some (knows : known.Knows names declared) :
    known.ownerOf? name = some owner ↔ OwnedBy declared name owner := by
  have byName : (cutLast? '$' name.toList).map (fun cut => String.ofList cut.1) = some owner ↔
      ∃ last, name = owner ++ "$" ++ last ∧ '$' ∉ last.toList := by
    simp only [Option.map_eq_some_iff, Prod.exists, cutLast?_eq_some]
    constructor
    · rintro ⟨before, after, ⟨split, absent⟩, rfl⟩
      refine ⟨String.ofList after, String.toList_inj.mp ?_, by rwa [String.toList_ofList]⟩
      simp [split]
    · rintro ⟨last, rfl, absent⟩
      exact ⟨owner.toList, last.toList, ⟨by simp, absent⟩, String.ofList_toList⟩
  change (((known.owners.get? name).or ((cutLast? '$' name.toList).map fun cut => String.ofList cut.1)).filter
    (· ≠ "")) = some owner ↔ _
  simp only [Option.filter_eq_some_iff, Option.or_eq_some_iff, knows.owners, byName, OwnedBy]
  simp [and_comm]

end chains

section tables

def addFixup (known : InnerOwners) (table fixups : MappingTable) (name : String) : MappingTable :=
  if (table.class? name).isSome then fixups
  else
    match known.renamed? table name with
    | some newName => fixups.insertClass name newName
    | none => fixups

section

variable (known : InnerOwners) (table : MappingTable)

theorem fixupTable_eq :
    known.fixupTable table = known.classes.foldl (known.addFixup table) (.empty table.source table.target) := rfl

theorem class?_addFixup (fixups : MappingTable) (added name : String) :
    (known.addFixup table fixups added).class? name =
      (if name = added ∧ table.class? name = none then known.renamed? table name else none).or
        (fixups.class? name) := by
  rw [addFixup]
  by_cases same : name = added
  · subst same
    cases table.class? name with
    | some => simp
    | none => cases known.renamed? table name <;> simp
  · cases table.class? added with
    | some => simp [same]
    | none => cases known.renamed? table added <;> simp [same, Ne.symm same]

theorem class?_fixupTable (name : String) : (known.fixupTable table).class? name =
      if name ∈ known.classes ∧ table.class? name = none then known.renamed? table name else none := by
  suffices loop : ∀ (classes : List String) (start : MappingTable),
      (classes.foldl (known.addFixup table) start).class? name =
        (if name ∈ classes ∧ table.class? name = none then known.renamed? table name else none).or
          (start.class? name) by
    rw [fixupTable_eq, loop, class?_empty, Option.or_none]
  intro classes start
  induction classes generalizing start with
  | nil => simp
  | cons added classes ih =>
    rw [foldl_cons, ih, class?_addFixup, ← Option.or_assoc]
    by_cases kept : table.class? name = none
    · simp only [kept, and_true, mem_cons]
      by_cases later : name ∈ classes
      · simp only [later, or_true, if_true]
        split <;> simp
      · simp only [later, or_false, if_false, Option.none_or]
    · simp [kept]

end

end tables

end InnerOwners

namespace RemapEngine

open InnerOwners

/-- The mappings from the first namespace of a chain to a target, with the classes that the profile adds. -/
def mappingsFor (chain : NamespaceChain) (profile : Profile) (target : String) : Outcome MappingTable := do
  let table ← chain.resolve chain.first target
  Outcome.within .secondaryMappings (table.unite (profile.extraTable chain.first target))

/-- The table for a target gives each class the name of the mappings. If these do not rename it, it gives the classes
that are known the names that their owners lead to, and leaves all others. -/
theorem follows_of_tableFor {engine : RemapEngine} {target : String}
    (knows : known.Knows names declared)
    (fixed : .innerClasses ∈ engine.profile.fixupsFor target)
    (resolved : engine.tableFor target (some known) = .ok table) :
    ∃ mappings, mappingsFor engine.chain engine.profile target = .ok mappings ∧
      ∀ name, Follows names declared mappings name (table.className name) := by
  simp only [tableFor, contains_iff_mem, fixed, if_true, bind_eq_ok] at resolved
  obtain ⟨first, chained, mappings, extended, united⟩ := resolved
  refine ⟨mappings, bind_eq_ok.mpr ⟨first, chained, extended⟩, fun name => ?_⟩
  have held := class?_unite united name
  simp only [class?_fixupTable, knows.classes] at held
  have led : ∀ {given}, known.renamed? mappings name = some given ↔ LeadsTo (OwnedBy declared) mappings name given :=
    renamedWith_eq_some (ownerOf?_eq_some knows) le_rfl
  refine ⟨fun given renamed => ?_, fun kept listed given leads => ?_, fun kept astray => ?_⟩
  · rw [renamed, Option.some_or] at held
    exact className_of_some held
  · rw [kept, Option.none_or, if_pos ⟨listed, rfl⟩, led.mpr leads] at held
    exact className_of_some held
  · refine className_of_none ?_
    rw [held, kept, Option.none_or]
    split
    case isTrue here =>
      exact Option.eq_none_iff_forall_ne_some.mpr fun given found => astray here.1 given (led.mp found)
    case isFalse => rfl

end RemapEngine

end JarRemap
