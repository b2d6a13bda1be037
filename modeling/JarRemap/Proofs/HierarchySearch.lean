import JarRemap.Mapping.Hierarchy
import JarRemap.Proofs.TableLookups

/-!
# Searching a hierarchy upwards

The search takes one class off its list of waiting classes in every step. Its bound is never used up: every
class is visited at most once, so every super of a known class waits at most once. Where no class is above
itself, the search goes on from any class on its way like a search that begins there.
-/
namespace JarRemap.ClassHierarchy

open List OrderedMap

variable {hierarchies : List ClassHierarchy} {find? : String → Option String} {visited waiting before : List String}
  {name answer goal : String}

/-- The super class and the interfaces of a class, as far as the hierarchies know them. -/
def superNames (hierarchies : List ClassHierarchy) (name : String) : List String :=
  (firstSupers? hierarchies name).getD []

def IsSuper (hierarchies : List ClassHierarchy) (name above : String) : Prop :=
  above ∈ superNames hierarchies name

/-- The second class is the first one or above it. -/
def Reaches (hierarchies : List ClassHierarchy) : String → String → Prop :=
  Relation.ReflTransGen (IsSuper hierarchies)

def Acyclic (hierarchies : List ClassHierarchy) : Prop :=
  ∀ name, ¬ Relation.TransGen (IsSuper hierarchies) name name

/-- The first super of each class leads from a class to `goal`. The list has the classes on the way, without
`goal` itself. -/
inductive LeadsTo (hierarchies : List ClassHierarchy) (goal : String) : String → List String → Prop
  | here : LeadsTo hierarchies goal goal []
  | up {name first : String} {others before : List String}
    (known : firstSupers? hierarchies name = some (first :: others))
    (further : LeadsTo hierarchies goal first before) : LeadsTo hierarchies goal name (name :: before)

theorem superNames_eq {supers : List String} (known : firstSupers? hierarchies name = some supers) :
    superNames hierarchies name = supers := by
  rw [superNames, known, Option.getD_some]

theorem LeadsTo.reaches (path : LeadsTo hierarchies goal name before) : Reaches hierarchies name goal := by
  induction path with
  | here => exact .refl
  | up known _ ih =>
    refine .head ?_ ih
    rw [IsSuper, superNames_eq known]
    exact mem_cons_self

theorem acyclic_of_rank (rank : String → Nat)
    (lowers : ∀ name above, IsSuper hierarchies name above → rank above < rank name) : Acyclic hierarchies := by
  intro name cycle
  have lower : ∀ {above}, Relation.TransGen (IsSuper hierarchies) name above → rank above < rank name := by
    intro above path
    induction path with
    | single step => exact lowers _ _ step
    | tail _ step ih => exact (lowers _ _ step).trans ih
  exact lt_irrefl _ (lower cycle)

/-- The search on the waiting classes has an answer, with the classes in `visited` left out. -/
inductive Found (hierarchies : List ClassHierarchy) (find? : String → Option String) :
    (visited waiting : List String) → (answer : String) → Prop
  | skip {visited waiting : List String} {name answer : String} (seen : name ∈ visited)
    (later : Found hierarchies find? visited waiting answer) :
    Found hierarchies find? visited (name :: waiting) answer
  | here {visited waiting : List String} {name answer : String} (fresh : name ∉ visited)
    (entry : find? name = some answer) : Found hierarchies find? visited (name :: waiting) answer
  | above {visited waiting : List String} {name answer : String} (fresh : name ∉ visited)
    (absent : find? name = none)
    (later : Found hierarchies find? (name :: visited) (superNames hierarchies name ++ waiting) answer) :
    Found hierarchies find? visited (name :: waiting) answer

def knownClasses (hierarchies : List ClassHierarchy) : Finset String :=
  (hierarchies.flatMap fun hierarchy => hierarchy.supers.keys).toFinset

/-- How many classes a search can still take off: those that wait, and the supers of all known classes that
were not visited. -/
def pending (hierarchies : List ClassHierarchy) (visited waiting : List String) : Nat :=
  waiting.length +
    ∑ name ∈ knownClasses hierarchies with name ∉ visited, (superNames hierarchies name).length

theorem superNames_of_unknown (unknown : name ∉ knownClasses hierarchies) : superNames hierarchies name = [] := by
  have unanswered : firstSupers? hierarchies name = none := by
    rw [firstSupers?, List.findSome?_eq_none_iff]
    intro hierarchy listed
    rw [supers?, get?_eq_none]
    intro key
    exact unknown (mem_toFinset.mpr (mem_flatMap.mpr ⟨hierarchy, listed, key⟩))
  rw [superNames, unanswered, Option.getD_none]

theorem pending_skip : pending hierarchies visited (name :: waiting) = pending hierarchies visited waiting + 1 := by
  rw [pending, pending, length_cons]
  omega

theorem pending_above (fresh : name ∉ visited) : pending hierarchies visited (name :: waiting) =
      pending hierarchies (name :: visited) (superNames hierarchies name ++ waiting) + 1 := by
  have left : (knownClasses hierarchies).filter (· ∉ name :: visited) =
      ((knownClasses hierarchies).filter (· ∉ visited)).erase name := by
    ext other
    simp only [Finset.mem_filter, Finset.mem_erase, mem_cons]
    tauto
  have taken : ∑ other ∈ knownClasses hierarchies with other ∉ visited,
      (superNames hierarchies other).length = (superNames hierarchies name).length +
        ∑ other ∈ knownClasses hierarchies with other ∉ name :: visited, (superNames hierarchies other).length := by
    rw [left]
    by_cases known : name ∈ knownClasses hierarchies
    · rw [Finset.add_sum_erase _ (fun other => (superNames hierarchies other).length)]
      exact Finset.mem_filter.mpr ⟨known, fresh⟩
    · rw [superNames_of_unknown known, Finset.erase_eq_of_notMem]
      · simp
      · exact fun listed => known (Finset.mem_filter.mp listed).1
  rw [pending, pending, taken, length_cons, length_append]
  omega

theorem sum_supers (hierarchy : ClassHierarchy) :
    ∑ name ∈ hierarchy.supers.keys.toFinset, ((hierarchy.supers? name).getD []).length =
      hierarchy.supers.values.flatten.length := by
  rw [OrderedMap.keys, sum_toFinset _ hierarchy.supers.distinct, OrderedMap.values, map_map, length_flatten, map_map]
  congr 1
  refine map_congr_left ?_
  rintro ⟨name, supers⟩ listed
  have held : hierarchy.supers? name = some supers := mem_entries.mp listed
  simp [held]

/-- The supers of the known classes are all counted in the bound of a search. A class may be known to several
hierarchies, but only its first supers are looked at. -/
theorem sum_superNames_le (hierarchies : List ClassHierarchy) :
    ∑ name ∈ knownClasses hierarchies, (superNames hierarchies name).length ≤
      (hierarchies.flatMap fun hierarchy => hierarchy.supers.values.flatten).length := by
  induction hierarchies with
  | nil => simp [knownClasses]
  | cons hierarchy others ih =>
    have classes : knownClasses (hierarchy :: others) =
        hierarchy.supers.keys.toFinset ∪ (knownClasses others \ hierarchy.supers.keys.toFinset) := by
      rw [Finset.union_sdiff_self_eq_union, knownClasses, flatMap_cons, toFinset_append, knownClasses]
    have first : ∑ name ∈ hierarchy.supers.keys.toFinset, (superNames (hierarchy :: others) name).length =
        hierarchy.supers.values.flatten.length := by
      rw [← sum_supers]
      refine Finset.sum_congr rfl ?_
      intro name known
      obtain ⟨supers, held⟩ : ∃ supers, hierarchy.supers? name = some supers := by
        rw [← Option.ne_none_iff_exists', ne_eq, supers?, get?_eq_none, not_not]
        exact mem_toFinset.mp known
      have answered : firstSupers? (hierarchy :: others) name = some supers := by
        simp [firstSupers?, held]
      rw [superNames_eq answered, held, Option.getD_some]
    have rest : ∑ name ∈ knownClasses others \ hierarchy.supers.keys.toFinset,
        (superNames (hierarchy :: others) name).length ≤
          ∑ name ∈ knownClasses others, (superNames others name).length := by
      calc ∑ name ∈ knownClasses others \ hierarchy.supers.keys.toFinset, (superNames (hierarchy :: others) name).length
        _ = ∑ name ∈ knownClasses others \ hierarchy.supers.keys.toFinset, (superNames others name).length := by
          refine Finset.sum_congr rfl ?_
          intro name known
          have unknown : hierarchy.supers? name = none := by
            rw [supers?, get?_eq_none]
            exact fun key => (Finset.mem_sdiff.mp known).2 (mem_toFinset.mpr key)
          simp [superNames, firstSupers?, unknown]
        _ ≤ ∑ name ∈ knownClasses others, (superNames others name).length :=
          Finset.sum_le_sum_of_subset Finset.sdiff_subset
    rw [classes, Finset.sum_union Finset.disjoint_sdiff, first, flatMap_cons, length_append]
    omega

theorem pending_le_searchFuel : pending hierarchies [] [name] ≤ searchFuel hierarchies := by
  have bound := sum_superNames_le hierarchies
  simp only [pending, searchFuel, length_singleton, not_mem_nil, not_false_eq_true, Finset.filter_true]
  omega

theorem found_of_search {fuel : Nat}
    (searched : search find? (superNames hierarchies) fuel visited waiting = some answer) :
    Found hierarchies find? visited waiting answer := by
  induction fuel generalizing visited waiting with
  | zero => cases waiting <;> simp [search] at searched
  | succ fuel ih =>
    cases waiting with
    | nil => simp [search] at searched
    | cons name waiting =>
      rw [search] at searched
      by_cases seen : name ∈ visited
      · rw [if_pos (by simpa using seen)] at searched
        exact .skip seen (ih searched)
      · rw [if_neg (by simpa using seen)] at searched
        cases entry : find? name with
        | some found =>
          rw [entry] at searched
          exact .here seen (entry.trans searched)
        | none =>
          rw [entry] at searched
          exact .above seen entry (ih searched)

theorem Found.search (found : Found hierarchies find? visited waiting answer) {fuel : Nat}
    (enough : pending hierarchies visited waiting ≤ fuel) :
    search find? (superNames hierarchies) fuel visited waiting = some answer := by
  induction found generalizing fuel with
  | skip seen _ ih =>
    rw [pending_skip] at enough
    obtain ⟨less, rfl⟩ : ∃ less, fuel = less + 1 := ⟨fuel - 1, by omega⟩
    rw [ClassHierarchy.search, if_pos (by simpa using seen)]
    exact ih (by omega)
  | here fresh entry =>
    rw [pending_skip] at enough
    obtain ⟨less, rfl⟩ : ∃ less, fuel = less + 1 := ⟨fuel - 1, by omega⟩
    rw [ClassHierarchy.search, if_neg (by simpa using fresh), entry]
  | above fresh absent _ ih =>
    rw [pending_above fresh] at enough
    obtain ⟨less, rfl⟩ : ∃ less, fuel = less + 1 := ⟨fuel - 1, by omega⟩
    rw [ClassHierarchy.search, if_neg (by simpa using fresh), absent]
    exact ih (by omega)

theorem findUpwards_eq_some :
    findUpwards hierarchies find? name = some answer ↔ Found hierarchies find? [] [name] answer :=
  ⟨found_of_search, fun found => found.search pending_le_searchFuel⟩

theorem Found.exists_entry (found : Found hierarchies find? visited waiting answer) :
    ∃ first ∈ waiting, ∃ name, Reaches hierarchies first name ∧ find? name = some answer := by
  induction found with
  | skip _ _ ih =>
    obtain ⟨first, listed, entry⟩ := ih
    exact ⟨first, mem_cons_of_mem _ listed, entry⟩
  | here _ entry => exact ⟨_, mem_cons_self, _, .refl, entry⟩
  | above _ _ _ ih =>
    obtain ⟨first, listed, name, reached, entry⟩ := ih
    rcases mem_append.mp listed with isSuper | listed
    · exact ⟨_, mem_cons_self, name, .head isSuper reached, entry⟩
    · exact ⟨first, mem_cons_of_mem _ listed, name, reached, entry⟩

/-- An answer stays if other classes were visited that cannot be reached, and if more classes wait behind. -/
theorem Found.elsewhere (found : Found hierarchies find? visited waiting answer) {others : List String}
    (same : ∀ first ∈ waiting, ∀ name, Reaches hierarchies first name → (name ∈ others ↔ name ∈ visited))
    (more : List String) : Found hierarchies find? others (waiting ++ more) answer := by
  induction found generalizing others with
  | skip seen _ ih =>
    obtain ⟨here, later⟩ := forall_mem_cons.mp same
    exact .skip ((here _ .refl).mpr seen) (ih later)
  | here fresh entry =>
    exact .here (fun seen => fresh ((same _ mem_cons_self _ .refl).mp seen)) entry
  | @above visited _ _ _ fresh absent _ ih =>
    obtain ⟨here, later⟩ := forall_mem_cons.mp same
    rw [cons_append]
    refine .above (fun seen => fresh ((here _ .refl).mp seen)) absent ?_
    rw [← append_assoc]
    refine ih ?_
    intro first listed name reached
    have agree : name ∈ others ↔ name ∈ visited := by
      rcases mem_append.mp listed with isSuper | listed
      · exact here name (.head isSuper reached)
      · exact later first listed name reached
    rw [mem_cons, mem_cons, agree]

section

variable (acyclic : Acyclic hierarchies) (path : LeadsTo hierarchies goal name before)
  (free : ∀ passed ∈ before, find? passed = none)
include acyclic path free

/-- An answer on a class is found from every class whose first supers lead there without an entry. The
induction is along that path; the classes that were visited on it are out of reach. -/
theorem Found.along (found : Found hierarchies find? [] [goal] answer)
    (fresh : ∀ reached, Reaches hierarchies name reached → reached ∉ visited) :
    Found hierarchies find? visited [name] answer := by
  induction path generalizing visited with
  | here =>
    refine found.elsewhere ?_ []
    intro first listed reached reaches
    obtain rfl := mem_singleton.mp listed
    simp [fresh reached reaches]
  | @up name first others before known _ ih =>
    obtain ⟨absent, free⟩ := forall_mem_cons.mp free
    have isSuper : IsSuper hierarchies name first := by
      rw [IsSuper, superNames_eq known]
      exact mem_cons_self
    have further : Found hierarchies find? (name :: visited) [first] answer := by
      refine ih free ?_
      intro reached reaches seen
      rcases mem_cons.mp seen with rfl | seen
      · exact acyclic reached (.head' isSuper reaches)
      · exact fresh reached (.head isSuper reaches) seen
    refine .above (fresh name .refl) absent ?_
    rw [superNames_eq known, append_nil]
    exact further.elsewhere (fun _ _ _ _ => Iff.rfl) others

/-- A class and a class that its first supers lead to have the same answer, if there is no entry on the way
and the second one has an answer, or no class above has one. -/
theorem findUpwards_of_leadsTo
    (answered : (findUpwards hierarchies find? goal).isSome ∨
      ∀ reached, Reaches hierarchies name reached → find? reached = none) :
    findUpwards hierarchies find? name = findUpwards hierarchies find? goal := by
  rcases answered with answered | barren
  · obtain ⟨answer, found⟩ := Option.isSome_iff_exists.mp answered
    rw [found]
    have fresh : ∀ reached, Reaches hierarchies name reached → reached ∉ ([] : List String) := by simp
    exact findUpwards_eq_some.mpr ((findUpwards_eq_some.mp found).along acyclic path free fresh)
  · have unanswered (start : String) (above : Reaches hierarchies name start) :
        findUpwards hierarchies find? start = none := by
      rw [Option.eq_none_iff_forall_ne_some]
      intro answer found
      obtain ⟨first, listed, reached, reaches, entry⟩ := (findUpwards_eq_some.mp found).exists_entry
      obtain rfl := mem_singleton.mp listed
      rw [barren reached (above.trans reaches)] at entry
      cases entry
    rw [unanswered name .refl, unanswered goal path.reaches]

end

end JarRemap.ClassHierarchy
