import JarRemap.Mapping.Chain
import JarRemap.Proofs.TreeTables

/-!
# Resolving along a chain

The tables of a chain are a route through the namespaces of the tree that they were taken from. Composing the
tables along a route gives a table from its start to its end, and there is only one. So resolving along the
chain, forwards or backwards, gives the table that is taken from the tree directly.
-/
namespace JarRemap

open List Outcome MappingTable

variable {first last : String} {start finish : Nat}

/-- In the namespace, classes and members can be told apart by what they are called. -/
def MappingTree.Unambiguous (tree : MappingTree) (space : String) : Prop :=
  tree.UnambiguousAt (tree.namespaces.idxOf space)

instance (tree : MappingTree) (space : String) : Decidable (tree.Unambiguous space) :=
  inferInstanceAs (Decidable (tree.UnambiguousAt _))

variable {tree : MappingTree} {source middle target : String} {table : MappingTable} {tables : List MappingTable}

/-- The table leads from one clear namespace of the tree to another one. -/
structure Leads (tree : MappingTree) (source target : String) (table : MappingTable) : Prop where
  joins : table.Joins source target
  between : table.Between tree (tree.namespaces.idxOf source) (tree.namespaces.idxOf target)
  source_clear : tree.Clear (tree.namespaces.idxOf source)
  target_clear : tree.Clear (tree.namespaces.idxOf target)

namespace Leads

variable {further : MappingTable}

theorem ofTree (wellFormed : tree.WellFormed) (sourceUnambiguous : tree.Unambiguous source)
    (targetUnambiguous : tree.Unambiguous target)
    (taken : ofTree tree source target = .ok table) : Leads tree source target table := by
  obtain ⟨clear, listed, joins, between⟩ := ofTree_between wellFormed sourceUnambiguous taken
  have targetClear : tree.Clear (tree.namespaces.idxOf target) :=
    ⟨targetUnambiguous, wellFormed, clear.described, idxOf_lt_length_of_mem listed⟩
  exact ⟨joins, between, clear, targetClear⟩

theorem invert (leads : Leads tree source target table) :
    ∃ back, table.invert = .ok back ∧ Leads tree target source back := by
  obtain ⟨back, inverted, joins, between⟩ := leads.between.invert leads.source_clear leads.target_clear
  rw [leads.joins.source_eq, leads.joins.target_eq] at joins
  exact ⟨back, inverted, joins, between, leads.target_clear, leads.source_clear⟩

theorem compose (leads : Leads tree source middle table) (onward : Leads tree middle target further) :
    ∃ composed, table.compose further = .ok composed ∧ Leads tree source target composed := by
  have meet : table.target = further.source := leads.joins.target_eq.trans onward.joins.source_eq.symm
  obtain ⟨composed, run, joins, between⟩ := leads.between.compose onward.between leads.source_clear
    leads.target_clear onward.target_clear meet
  rw [leads.joins.source_eq, onward.joins.target_eq] at joins
  exact ⟨composed, run, joins, between, leads.source_clear, onward.target_clear⟩

theorem same (one : Leads tree source target table) (another : Leads tree source target further) : table.same further :=
  one.between.same one.joins another.joins another.between

end Leads

/-- A row of tables that leads from one namespace of the tree to another one. -/
inductive Route (tree : MappingTree) : String → List MappingTable → String → Prop where
  | nil (space : String) : Route tree space [] space
  | cons {source middle target : String} {table : MappingTable} {rest : List MappingTable}
      (leads : Leads tree source middle table) (route : Route tree middle rest target) :
      Route tree source (table :: rest) target

namespace Route

theorem append {further : List MappingTable} (route : Route tree source tables middle)
    (onward : Route tree middle further target) : Route tree source (tables ++ further) target := by
  induction route with
  | nil => exact onward
  | cons leads _ ih => exact .cons leads (ih onward)

variable {position : Nat} {space : String}

section

variable (route : Route tree source tables target)
include route

theorem cut (visits : (source :: tables.map MappingTable.target)[position]? = some space) :
    Route tree source (tables.take position) space ∧ Route tree space (tables.drop position) target := by
  induction route generalizing position with
  | nil start =>
    cases position with
    | zero =>
      obtain rfl : start = space := by simpa using visits
      exact ⟨.nil start, .nil start⟩
    | succ position => simp at visits
  | @cons start between _ table rest leads route ih =>
    cases position with
    | zero =>
      obtain rfl : start = space := by simpa using visits
      exact ⟨.nil start, .cons leads route⟩
    | succ position =>
      rw [map_cons, leads.joins.target_eq] at visits
      obtain ⟨before, after⟩ := ih visits
      exact ⟨.cons leads before, after⟩

theorem part (ordered : start ≤ finish)
    (starts : (source :: tables.map MappingTable.target)[start]? = some first)
    (finishes : (source :: tables.map MappingTable.target)[finish]? = some last) :
    Route tree first ((tables.take finish).drop start) last := by
  have early : (source :: (tables.take finish).map MappingTable.target)[start]? = some first := by
    rw [← starts, map_take]
    cases start with
    | zero => rfl
    | succ start => simp [List.getElem?_take_of_lt (show start < finish from ordered)]
  exact ((route.cut finishes).1.cut early).2

theorem invert : ∃ backs, tables.reverse.mapM invert = .ok backs ∧ Route tree target backs source := by
  simp only [mapM_eq_ok]
  induction route with
  | nil start => exact ⟨[], .nil, .nil start⟩
  | cons leads _ ih =>
    obtain ⟨back, inverted, returns⟩ := leads.invert
    obtain ⟨backs, turned, route⟩ := ih
    refine ⟨backs ++ [back], ?_, route.append (.cons returns (.nil _))⟩
    rw [reverse_cons]
    exact rel_append turned (.cons inverted .nil)

end

theorem compose (leads : Leads tree source middle table) (route : Route tree middle tables target) :
    ∃ composed, tables.foldlM compose table = .ok composed ∧ Leads tree source target composed := by
  -- The table so far leads from the fixed start to the namespace that the rest of the route starts from.
  induction route generalizing table with
  | nil => exact ⟨table, rfl, leads⟩
  | cons onward _ ih =>
    obtain ⟨further, composed, leadsOn⟩ := leads.compose onward
    obtain ⟨last, run, finished⟩ := ih leadsOn
    exact ⟨last, bind_eq_ok.mpr ⟨further, composed, run⟩, finished⟩

end Route

theorem MappingTable.target_of_ofTree : ofTree tree source target = .ok table → table.target = target :=
  ofTree_induction (·.target = target) rfl (fun _ _ => id) fun _ => id

namespace NamespaceChain

variable {chain : NamespaceChain} {namespaces : List String}

theorem hops_of_ofTree (built : ofTree tree namespaces = .ok chain) : hopsOf tree namespaces = .ok chain.hops ∧
      ∃ hop rest, chain.hops = hop :: rest ∧ chain.first = hop.source ∧ checkHops [hop.source] chain.hops = .ok () := by
  simp only [ofTree, bind_eq_ok] at built
  obtain ⟨-, -, hops, taken, built⟩ := built
  cases hops with
  | nil => simp [ofHops] at built
  | cons hop hops =>
    simp only [ofHops, bind_eq_ok, pure_eq_ok] at built
    obtain ⟨_, passed, rfl⟩ := built
    exact ⟨taken, hop, hops, rfl, rfl, passed⟩

theorem map_target_hopsOf (taken : hopsOf tree namespaces = .ok tables) :
    tables.map MappingTable.target = namespaces.drop 1 := by
  fun_induction hopsOf tree namespaces generalizing tables with
  | case1 source target rest ih =>
    simp only [bind_eq_ok, within_eq_ok, pure_eq_ok] at taken
    obtain ⟨hop, here, others, later, rfl⟩ := taken
    rw [map_cons, target_of_ofTree here, ih later]
    rfl
  | case2 namespaces short =>
    obtain rfl := Except.ok.inj taken
    obtain _ | ⟨_, _ | ⟨target, rest⟩⟩ := namespaces
    · rfl
    · rfl
    · exact absurd rfl (short _ target rest)

theorem hopsOf_route (wellFormed : tree.WellFormed)
    (unambiguous : ∀ space ∈ source :: namespaces, tree.Unambiguous space)
    (run : hopsOf tree (source :: namespaces) = .ok tables) : ∃ target, Route tree source tables target := by
  induction namespaces generalizing source tables with
  | nil =>
    obtain rfl : [] = tables := by simpa [hopsOf] using run
    exact ⟨source, .nil source⟩
  | cons next rest ih =>
    simp only [hopsOf, bind_eq_ok, within_eq_ok, pure_eq_ok] at run
    obtain ⟨hop, taken, hops, later, rfl⟩ := run
    obtain ⟨here, others⟩ := forall_mem_cons.mp unambiguous
    have leads : Leads tree source next hop := .ofTree wellFormed here (others next (by simp)) taken
    obtain ⟨target, route⟩ := ih others later
    exact ⟨target, .cons leads route⟩

theorem ofTree_route (wellFormed : tree.WellFormed) (unambiguous : ∀ space ∈ namespaces, tree.Unambiguous space)
    (built : ofTree tree namespaces = .ok chain) :
    chain.namespaces = namespaces ∧ ∃ target, Route tree chain.first chain.hops target := by
  obtain ⟨taken, hop, hops, listed, first, -⟩ := hops_of_ofTree built
  cases namespaces with
  | nil => simp [hopsOf, listed] at taken
  | cons start rest =>
    obtain ⟨target, route⟩ := hopsOf_route wellFormed unambiguous taken
    have started : chain.first = start := by
      rw [listed] at route
      cases route with
      | cons leads => exact first.trans leads.joins.source_eq
    rw [namespaces, map_target_hopsOf taken, started]
    exact ⟨rfl, target, route⟩

theorem position_eq_ok {name : String} {position : Nat} : chain.position name = .ok position ↔
      name ∈ chain.namespaces ∧ chain.namespaces.idxOf name = position := by
  rw [← idxOf?_eq_some, NamespaceChain.position]
  cases chain.namespaces.idxOf? name <;> simp

theorem exists_path (route : Route tree chain.first chain.hops target)
    (starts : chain.namespaces[start]? = some first)
    (finishes : chain.namespaces[finish]? = some last) :
    ∃ tables, chain.path start finish = .ok tables ∧ Route tree first tables last := by
  by_cases ordered : start ≤ finish
  · refine ⟨_, if_pos ordered, route.part ordered starts finishes⟩
  · rw [path, if_neg ordered]
    exact (route.part (Nat.le_of_not_le ordered) finishes starts).invert

/-- Resolving between two namespaces of a chain gives the table that is taken from the tree directly. -/
theorem resolve_same_ofTree {bytes : Bytes} (parsed : TinyFile.read bytes = .ok tree)
    (built : ofTree tree namespaces = .ok chain)
    (unambiguous : ∀ space ∈ namespaces, tree.Unambiguous space) (sourceListed : source ∈ namespaces)
    (targetListed : target ∈ namespaces) (different : source ≠ target) :
    ∃ resolved direct, chain.resolve source target = .ok resolved ∧
      MappingTable.ofTree tree source target = .ok direct ∧ resolved.same direct := by
  have wellFormed : tree.WellFormed := TinyFile.read_wellFormed parsed
  obtain ⟨rfl, last, route⟩ := ofTree_route wellFormed unambiguous built
  obtain ⟨tables, path, route⟩ := exists_path route (List.getElem?_idxOf sourceListed)
    (List.getElem?_idxOf targetListed)
  cases route with
  | nil => exact absurd rfl different
  | cons leads route =>
    obtain ⟨resolved, composed, resolves⟩ := route.compose leads
    obtain ⟨direct, taken⟩ := MappingTable.exists_ofTree wellFormed resolves.source_clear.described
      (List.idxOf_lt_length_iff.mp resolves.source_clear.inside)
      (List.idxOf_lt_length_iff.mp resolves.target_clear.inside)
    have leadsDirectly : Leads tree source target direct :=
      .ofTree wellFormed (unambiguous source sourceListed) (unambiguous target targetListed) taken
    refine ⟨resolved, direct, ?_, taken, resolves.same leadsDirectly⟩
    simp only [resolve, Outcome.bind_eq_ok, position_eq_ok]
    exact ⟨_, ⟨sourceListed, rfl⟩, _, ⟨targetListed, rfl⟩, _, path, Outcome.within_eq_ok.mpr composed⟩

/-- A file in which some names are left out and a descriptor mentions a class that is not in the file. -/
def fourSpaces : Bytes :=
  ["tiny\t2\t0\tofficial\tintermediary\tsrg\tnamed\n", "c\ta\tclass_1\tC_1\tcom/example/A\n",
    "\tf\tLa;\tb\tfield_2\tf_2\tvalue\n", "\tm\t(Lx/S;)La;\tc\tmethod_3\t\trun\n",
    "c\td\tclass_4\t\t\n"].flatMap Text.encodeUtf8

theorem resolve_same_ofTree_fourSpaces :
    ∃ tree chain, TinyFile.read fourSpaces = .ok tree ∧
      ofTree tree ["official", "intermediary", "srg", "named"] = .ok chain ∧
      (∀ space ∈ ["official", "intermediary", "srg", "named"], tree.Unambiguous space) ∧
      ∃ resolved direct, chain.resolve "named" "official" = .ok resolved ∧
        MappingTable.ofTree tree "named" "official" = .ok direct ∧ resolved.same direct := by
  have checked : (match TinyFile.read fourSpaces with
      | .ok tree => (ofTree tree ["official", "intermediary", "srg", "named"]).isOk &&
          decide (∀ space ∈ ["official", "intermediary", "srg", "named"], tree.Unambiguous space)
      | .error _ => false) = true := by decide +kernel
  cases parsed : TinyFile.read fourSpaces with
  | error failure => simp [parsed] at checked
  | ok tree =>
    rw [parsed, Bool.and_eq_true, decide_eq_true_eq] at checked
    obtain ⟨chain, built⟩ := Outcome.exists_of_isOk checked.1
    exact ⟨tree, chain, rfl, built, checked.2,
      resolve_same_ofTree parsed built checked.2 (by decide) (by decide) (by decide)⟩

end NamespaceChain

end JarRemap
