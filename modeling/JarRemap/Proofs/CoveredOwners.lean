import JarRemap.Proofs.ChainResolution
import JarRemap.Proofs.OwnerLookups

/-!
# Owners of members are classes of the table

A table that is taken from a tree has a class for every owner that it has a member for. Turning tables around,
composing and uniting them keeps this. Composing may put a member under an owner that was led back; then the
first table has a class for the owner: one that is renamed to it, or itself.
-/
namespace JarRemap

open Outcome List

variable {tables : List MappingTable}

namespace MappingTable

variable {table first next back other united : MappingTable} {entry : MemberEntry} {source target : String}

/-- Every owner of a member has a class entry, possibly under its own name. -/
def Covered (table : MappingTable) : Prop := ∀ entry ∈ table.memberEntries, (table.class? entry.owner).isSome

instance (table : MappingTable) : Decidable table.Covered :=
  inferInstanceAs (Decidable (∀ entry ∈ table.memberEntries, (table.class? entry.owner).isSome))

theorem Covered.owned {kind : MemberKind} {owner name descriptor newName : String} (covered : table.Covered)
    (held : table.member? kind owner name descriptor = some newName) : (table.class? owner).isSome := by
  obtain ⟨entry, listed, ⟨-, rfl, -⟩, -⟩ := member?_eq_some.mp held
  exact covered entry listed

theorem covered_empty (source target : String) : (empty source target).Covered :=
  fun _ listed => by cases listed

theorem Covered.insertClass (covered : table.Covered) (name newName : String) :
    (table.insertClass name newName).Covered := by
  intro entry listed
  rw [class?_insertClass]
  split
  · rfl
  · exact covered entry listed

theorem Covered.insertMember (covered : table.Covered) (owned : (table.class? entry.owner).isSome) :
    (table.insertMember entry).Covered := by
  intro added listed
  rw [mem_memberEntries, member?_insertMember] at listed
  rw [class?_insertMember]
  split at listed
  case isTrue here => rwa [← here.2.1]
  case isFalse => exact covered.owned listed

theorem covered_ofTree {tree : MappingTree} : ofTree tree source target = .ok table → table.Covered :=
  ofTree_induction Covered (covered_empty source target) (fun name newName covered => covered.insertClass name newName)
    fun owned covered => covered.insertMember owned

theorem Covered.invert (covered : table.Covered) (inverted : table.invert = .ok back) : back.Covered := by
  have records := invert_records inverted
  intro entry listed
  obtain ⟨old, oldListed, descriptor, -, rfl⟩ := records.memberOf listed
  obtain ⟨newOwner, renamed⟩ := Option.isSome_iff_exists.mp (covered old oldListed)
  rw [turned, className_of_some renamed]
  exact records.classHeld renamed

/-- The owner of a member of the second table, led back to the first one, is a class of the composed table. -/
theorem Composed.class?_ledBack {owner : String} (composed : Composed first next back table)
    (owned : (next.class? owner).isSome) : (table.class? (back.className owner)).isSome := by
  rw [composed.classes]
  rcases invert_class? composed.inverted owner with ⟨key, renamed, led⟩ | ⟨unused, kept⟩
  · rw [className_of_some led, renamed]
    rfl
  · rw [className_of_none kept]
    have noImage : owner ∉ first.classes.values := by
      rw [mem_classes_values, not_exists]
      exact unused
    cases first.class? owner with
    | some middle => rfl
    | none => simpa [noImage] using owned

theorem Covered.compose (firstCovered : first.Covered) (nextCovered : next.Covered)
    (run : first.compose next = .ok table) : table.Covered := by
  obtain ⟨back, composed⟩ := compose_composed run
  intro entry listed
  rw [mem_memberEntries] at listed
  cases held : first.member? entry.kind entry.owner entry.key.name entry.key.descriptor with
  | some middleName =>
    obtain ⟨newOwner, renamed⟩ := Option.isSome_iff_exists.mp (firstCovered.owned held)
    rw [composed.classes, renamed]
    rfl
  | none =>
    obtain ⟨carried, carriedListed, -, ledBack, -⟩ := composed.carried held listed
    rw [← ledBack]
    exact composed.class?_ledBack (nextCovered carried carriedListed)

theorem Covered.unite (covered : table.Covered) (otherCovered : other.Covered)
    (joined : table.unite other = .ok united) : united.Covered := by
  intro entry listed
  rw [mem_memberEntries, member?_unite joined, Option.or_eq_some_iff] at listed
  rw [class?_unite joined, Option.isSome_or, Bool.or_eq_true]
  rcases listed with held | ⟨-, held⟩
  · exact .inl (covered.owned held)
  · exact .inr (otherCovered.owned held)

theorem Covered.inverts {backs : List MappingTable} (covered : ∀ table ∈ tables, table.Covered)
    (inverted : tables.mapM MappingTable.invert = .ok backs) : ∀ back ∈ backs, back.Covered := by
  have each := mapM_eq_ok.mp inverted
  clear inverted
  induction each with
  | nil => simp
  | cons inverted _ ih =>
    obtain ⟨here, others⟩ := forall_mem_cons.mp covered
    exact forall_mem_cons.mpr ⟨here.invert inverted, ih others⟩

theorem Covered.composes (firstCovered : first.Covered) (covered : ∀ table ∈ tables, table.Covered)
    (composed : tables.foldlM MappingTable.compose first = .ok table) : table.Covered := by
  induction tables generalizing first with
  | nil => rwa [← pure_eq_ok.mp composed]
  | cons next tables ih =>
    obtain ⟨nextCovered, others⟩ := forall_mem_cons.mp covered
    obtain ⟨between, step, rest⟩ := bind_eq_ok.mp composed
    exact ih (firstCovered.compose nextCovered step) others rest

end MappingTable

section chains

open MappingTable

variable {chain : NamespaceChain} {tree : MappingTree} {namespaces : List String} {source target : String}
  {table : MappingTable}

theorem NamespaceChain.covered_hopsOf {hops : List MappingTable} (taken : hopsOf tree namespaces = .ok hops) :
    ∀ hop ∈ hops, hop.Covered := by
  fun_induction hopsOf tree namespaces generalizing hops with
  | case1 source target rest ih =>
    simp only [bind_eq_ok, within_eq_ok, pure_eq_ok] at taken
    obtain ⟨hop, here, others, later, rfl⟩ := taken
    exact forall_mem_cons.mpr ⟨covered_ofTree here, ih later⟩
  | case2 =>
    obtain rfl := Except.ok.inj taken
    simp

theorem NamespaceChain.covered_ofTree (built : NamespaceChain.ofTree tree namespaces = .ok chain) :
    ∀ hop ∈ chain.hops, hop.Covered :=
  covered_hopsOf (hops_of_ofTree built).1

theorem NamespaceChain.covered_path {start finish : Nat} (covered : ∀ hop ∈ chain.hops, hop.Covered)
    (led : chain.path start finish = .ok tables) : ∀ table ∈ tables, table.Covered := by
  rw [path] at led
  split at led
  case isTrue =>
    obtain rfl := Except.ok.inj led
    exact fun table listed => covered table (mem_of_mem_take (mem_of_mem_drop listed))
  case isFalse =>
    refine Covered.inverts (fun table listed => ?_) led
    exact covered table (mem_of_mem_take (mem_of_mem_drop (mem_reverse.mp listed)))

theorem NamespaceChain.covered_resolve (covered : ∀ hop ∈ chain.hops, hop.Covered)
    (resolved : chain.resolve source target = .ok table) : table.Covered := by
  simp only [resolve, bind_eq_ok] at resolved
  obtain ⟨start, -, finish, -, tables, led, resolved⟩ := resolved
  have covered := covered_path covered led
  cases tables with
  | nil =>
    obtain rfl := pure_eq_ok.mp resolved
    exact covered_empty source target
  | cons first rest =>
    obtain ⟨firstCovered, restCovered⟩ := forall_mem_cons.mp covered
    exact firstCovered.composes restCovered (within_eq_ok.mp resolved)

theorem Profile.covered_extraTable (profile : Profile) (source target : String) :
    (profile.extraTable source target).Covered :=
  List.foldlRecOn profile.extraClasses _ (covered_empty source target)
    fun _ covered entry _ => covered.insertClass entry.1 entry.2

theorem InnerOwners.covered_fixupTable (known : InnerOwners) (table : MappingTable) :
    (known.fixupTable table).Covered := by
  rw [fixupTable_eq]
  refine List.foldlRecOn known.classes _ (covered_empty table.source table.target) ?_
  intro fixups covered name _
  rw [addFixup]
  split
  · exact covered
  · split
    · exact covered.insertClass _ _
    · exact covered

/-- The table for a target is covered: what the profile and the fixups add are classes without members. -/
theorem RemapEngine.covered_tableFor {engine : RemapEngine} {owners : Option InnerOwners}
    (covered : ∀ hop ∈ engine.chain.hops, hop.Covered)
    (resolved : engine.tableFor target owners = .ok table) : table.Covered := by
  simp only [tableFor, bind_eq_ok] at resolved
  obtain ⟨chained, resolves, mappings, extended, resolved⟩ := resolved
  have mappingsCovered : mappings.Covered :=
    (NamespaceChain.covered_resolve covered resolves).unite (engine.profile.covered_extraTable _ _)
      (within_eq_ok.mp extended)
  cases owners with
  | none => rwa [← pure_eq_ok.mp resolved]
  | some known =>
    simp only at resolved
    split at resolved
    · exact mappingsCovered.unite (known.covered_fixupTable mappings) resolved
    · rwa [← pure_eq_ok.mp resolved]

/-- Every member's owner has a class entry.

This holds of tables that are taken from a tree, and is kept when tables are composed, turned around and united.
So it holds of what a chain resolves to, forwards and backwards, and of the tables that an engine uses, with the
classes of the profile and the fixups for inner classes: for chains that are taken from a tree, and for all
others whose tables have it. -/
theorem owners_are_covered (tree : MappingTree) :
    (∀ source target table, MappingTable.ofTree tree source target = .ok table → table.Covered) ∧
    (∀ first next : MappingTable, first.Covered → next.Covered →
      (∀ table, first.compose next = .ok table → table.Covered) ∧
      (∀ table, first.invert = .ok table → table.Covered) ∧
      ∀ table, first.unite next = .ok table → table.Covered) ∧
    ∀ chain : NamespaceChain,
      ((∃ namespaces, NamespaceChain.ofTree tree namespaces = .ok chain) ∨ ∀ hop ∈ chain.hops, hop.Covered) →
        (∀ source target table, chain.resolve source target = .ok table → table.Covered) ∧
        ∀ (engine : RemapEngine) target owners table, engine.chain = chain →
          engine.tableFor target owners = .ok table → table.Covered := by
  refine ⟨fun _ _ _ => covered_ofTree, fun first next firstCovered nextCovered => ?_, fun chain start => ?_⟩
  · exact ⟨fun _ => firstCovered.compose nextCovered, fun _ => firstCovered.invert,
      fun _ => firstCovered.unite nextCovered⟩
  · have covered : ∀ hop ∈ chain.hops, hop.Covered := by
      rcases start with ⟨namespaces, built⟩ | covered
      · exact NamespaceChain.covered_ofTree built
      · exact covered
    refine ⟨fun _ _ _ => NamespaceChain.covered_resolve covered, ?_⟩
    rintro engine target owners table rfl
    exact RemapEngine.covered_tableFor covered

/-- A class with a field of its own type. -/
def linkTree : MappingTree where
  namespaces := ["a", "b", "c"]
  classes := (∅ : OrderedMap String ClassNames).insert "A" {
    names := ["A", "B", "C"]
    fields := (∅ : OrderedMap MemberKey MemberNames).insert ⟨"f", "LA;"⟩ ⟨"LA;", ["f", "g", "h"]⟩
    methods := ∅ }

theorem owners_are_covered_linkTree :
    ∃ chain backwards table, NamespaceChain.ofTree linkTree ["a", "b", "c"] = .ok chain ∧
      chain.resolve "c" "a" = .ok backwards ∧ backwards.member? .field "C" "h" "LC;" = some "f" ∧
      backwards.Covered ∧
      (RemapEngine.create chain (.ofToolchain .forge) []).tableFor "c" (some ⟨["A$1"], ∅⟩) = .ok table ∧
      table.class? "A$1" = some "C$1" ∧ table.member? .field "A" "f" "LA;" = some "h" ∧ table.Covered := by
  have run : (do
      let chain ← NamespaceChain.ofTree linkTree ["a", "b", "c"]
      let backwards ← chain.resolve "c" "a"
      let table ← (RemapEngine.create chain (.ofToolchain .forge) []).tableFor "c" (some ⟨["A$1"], ∅⟩)
      return (backwards.member? .field "C" "h" "LC;", table.class? "A$1",
        table.member? .field "A" "f" "LA;")) = Except.ok (some "f", some "C$1", some "h") := by decide +kernel
  simp only [Outcome.bind_eq_ok, Outcome.pure_eq_ok, Prod.mk.injEq] at run
  obtain ⟨chain, built, backwards, resolved, table, made, ledBack, inner, field⟩ := run
  obtain ⟨resolves, makes⟩ := (owners_are_covered linkTree).2.2 chain (.inl ⟨_, built⟩)
  exact ⟨chain, backwards, table, built, resolved, ledBack, resolves _ _ _ resolved, made, inner, field,
    makes _ _ _ _ rfl made⟩

end chains

end JarRemap
