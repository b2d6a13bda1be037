import JarRemap.Proofs.HierarchySearch
import JarRemap.Proofs.RemappedSymbols

/-!
# References find the members they refer to

A reference may go through a class below the one that declares the member, and its new name is searched for from
there. Both searches give the same name, so the reference still leads to the declaration after both class files
were remapped.
-/
namespace JarRemap

open ClassHierarchy

theorem MappingTable.inheritingRenamer_mapMember (table : MappingTable) (hierarchies : List ClassHierarchy)
    (kind : MemberKind) (owner name descriptor : String) :
    (table.inheritingRenamer hierarchies).mapMember kind owner name descriptor =
      .ok ((findUpwards hierarchies (table.member? kind · name descriptor) owner).getD name) := by
  cases kind <;> rfl

variable {table : MappingTable} {hierarchies : List ClassHierarchy} {kind : MemberKind}
  {owner declarer name descriptor : String} {before : List String}

/-- If the same entry is found from `owner` and from `declarer`, a member has one new name, whether it is referred
to through the one or declared in the other. -/
theorem referenceName_eq_declared
    (common : findUpwards hierarchies (table.member? kind · name descriptor) owner =
      findUpwards hierarchies (table.member? kind · name descriptor) declarer)
    (plain : ¬ Text.startsWith '[' owner) (ordinary : ¬ Text.startsWith '<' name) :
    referenceName ((table.inheritingRenamer hierarchies).mapMember kind) owner name descriptor =
      declaredMemberName (table.inheritingRenamer hierarchies) declarer kind name descriptor := by
  have declared : declaredMemberName (table.inheritingRenamer hierarchies) declarer kind name descriptor =
      (table.inheritingRenamer hierarchies).mapMember kind declarer name descriptor := by
    cases kind with
    | field => rfl
    | method => rw [declaredMemberName, declaredMethodName, if_neg ordinary, Renamer.mapMember]
  rw [referenceName, if_neg (by simp [plain, ordinary]), declared, table.inheritingRenamer_mapMember,
    table.inheritingRenamer_mapMember, common]

/-- References and declarations stay linked.

The hierarchies have no cycle, and the first super of each class leads from `owner` to `declarer` through
classes without an entry for the member. Either the member has a new name in `declarer`, or there is no
entry for it on `owner` or above. Then every reference to the member through `owner`, in whatever class
file, gets the name and the descriptor that its declaration gets in the class file of `declarer`. -/
theorem remapClass_links (acyclic : Acyclic hierarchies)
    (path : LeadsTo hierarchies declarer owner before)
    (free : ∀ passed ∈ before, table.member? kind passed name descriptor = none)
    (answered : (findUpwards hierarchies (table.member? kind · name descriptor) declarer).isSome ∨
      ∀ reached, Reaches hierarchies owner reached → table.member? kind reached name descriptor = none)
    (plain : ¬ Text.startsWith '[' owner) (ordinary : ¬ Text.startsWith '<' name)
    {options otherOptions : RemapOptions} {bytes otherBytes : Bytes} {out otherOut : RemappedClass}
    (referring : remapClass (table.inheritingRenamer hierarchies) options bytes = .ok out)
    (declaring : remapClass (table.inheritingRenamer hierarchies) otherOptions otherBytes = .ok otherOut) :
    ∃ old new other otherNew, ClassFile.read bytes = .ok old ∧ ClassFile.read out.bytes = .ok new ∧
      ClassFile.read otherBytes = .ok other ∧ ClassFile.read otherOut.bytes = .ok otherNew ∧
      ∀ (index : UInt16) (position : Nat),
        old.pool.symbolAt? index = some (.member ⟨kind, owner, name, descriptor⟩) →
        other.name = .ok declarer →
        (other.signatures kind)[position]? = some (some (name, descriptor)) →
        ∃ newOwner newName newDescriptor,
          new.pool.symbolAt? index = some (.member ⟨kind, newOwner, newName, newDescriptor⟩) ∧
          (otherNew.signatures kind)[position]? = some (some (newName, newDescriptor)) := by
  obtain ⟨old, new, _, parsed, reparsed, -, -, -, file⟩ := remapClass_remapped referring
  obtain ⟨other, otherNew, _, otherParsed, otherReparsed, -, called, -, otherFile⟩ :=
    remapClass_remapped declaring
  refine ⟨old, new, other, otherNew, parsed, reparsed, otherParsed, otherReparsed, ?_⟩
  intro index position referred named declared
  obtain rfl : declarer = otherOut.oldName := Except.ok.inj (named.symm.trans called)
  obtain ⟨newOwner, newName, newDescriptor, renamed, mapped, reference⟩ := file.symbolAt?_eq referred
  obtain ⟨declaredName, declaredDescriptor, redeclared, remapped, declaration⟩ :=
    otherFile.signatures_getElem? declared
  have sameName : newName = declaredName := by
    have common := findUpwards_of_leadsTo acyclic path free answered
    rw [referenceName_eq_declared common plain ordinary, redeclared] at renamed
    exact (Except.ok.inj renamed).symm
  have sameDescriptor : newDescriptor = declaredDescriptor := Except.ok.inj (mapped.symm.trans remapped)
  exact ⟨newOwner, newName, newDescriptor, reference, by rw [declaration, sameName, sameDescriptor]⟩

/-- Two hierarchies: one knows `D` below `C` and `I`, the other knows `C` below `B`. -/
def stackedHierarchies : List ClassHierarchy :=
  [empty.insert "D" (some "C") ["I"], empty.insert "C" (some "B") []]

theorem stackedHierarchies_superNames (name : String) : superNames stackedHierarchies name =
      if "D" = name then ["C", "I"] else if "C" = name then ["B"] else [] := by
  by_cases bottom : "D" = name
  · subst bottom
    decide
  · by_cases middle : "C" = name
    · subst middle
      decide
    · simp [superNames, firstSupers?, stackedHierarchies, supers?, ClassHierarchy.insert,
        empty, OrderedMap.contains, bottom, middle]

theorem stackedHierarchies_acyclic : Acyclic stackedHierarchies := by
  refine acyclic_of_rank (fun name => if name = "D" then 2 else if name = "C" then 1 else 0) ?_
  intro name above isSuper
  rw [IsSuper, stackedHierarchies_superNames] at isSuper
  split_ifs at isSuper with bottom middle
  · subst bottom
    simp only [List.mem_cons, List.not_mem_nil, or_false] at isSuper
    rcases isSuper with rfl | rfl <;> decide
  · subst middle
    obtain rfl := List.mem_singleton.mp isSuper
    decide
  · cases isSuper

def inheritedTable : MappingTable :=
  (MappingTable.empty "a" "b").insertClass "C" "Z" |>.insertMember ⟨"B", .method, ⟨"f", "()LC;"⟩, "g"⟩

def referringClass : Bytes := [0xca,0xfe,0xba,0xbe,0,0,0,52,0,7,1,0,1,68,7,0,1,1,0,1,102,1,0,5,40,
  41,76,67,59,12,0,3,0,4,10,0,2,0,5,0,0,0,2,0,0,0,0,0,0,0,0,0,0]

def declaringClass : Bytes := [0xca,0xfe,0xba,0xbe,0,0,0,52,0,5,1,0,1,67,7,0,1,1,0,1,102,1,0,5,40,
  41,76,67,59,0,0,0,2,0,0,0,0,0,0,0,1,0,1,0,3,0,4,0,0,0,0]

theorem remapClass_links_stacked :
    ∃ out otherOut,
      remapClass (inheritedTable.inheritingRenamer stackedHierarchies) {} referringClass = .ok out ∧
      remapClass (inheritedTable.inheritingRenamer stackedHierarchies) {} declaringClass = .ok otherOut ∧
      ∃ new otherNew newOwner newName newDescriptor, ClassFile.read out.bytes = .ok new ∧
        ClassFile.read otherOut.bytes = .ok otherNew ∧
        new.pool.symbolAt? 6 = some (.member ⟨.method, newOwner, newName, newDescriptor⟩) ∧
        (otherNew.signatures .method)[0]? = some (some (newName, newDescriptor)) := by
  obtain ⟨out, referring⟩ : ∃ out, remapClass (inheritedTable.inheritingRenamer stackedHierarchies) {}
      referringClass = .ok out := Outcome.exists_of_isOk (by decide +kernel)
  obtain ⟨otherOut, declaring⟩ : ∃ out, remapClass (inheritedTable.inheritingRenamer stackedHierarchies) {}
      declaringClass = .ok out := Outcome.exists_of_isOk (by decide +kernel)
  have bottom : firstSupers? stackedHierarchies "D" = some ["C", "I"] := by decide +kernel
  have path : LeadsTo stackedHierarchies "C" "D" ["D"] := .up bottom .here
  have free : ∀ passed ∈ ["D"], inheritedTable.member? .method passed "f" "()LC;" = none := by
    decide +kernel
  have answered : (findUpwards stackedHierarchies (inheritedTable.member? .method · "f" "()LC;") "C").isSome := by
    decide +kernel
  obtain ⟨old, new, other, otherNew, parsed, reparsed, otherParsed, otherReparsed, linked⟩ :=
    remapClass_links stackedHierarchies_acyclic path free (.inl answered) (by decide) (by decide) referring
      declaring
  have referred : (ClassFile.read referringClass).map (·.pool.symbolAt? 6) =
      .ok (some (.member ⟨.method, "D", "f", "()LC;"⟩)) := by decide +kernel
  have named : (ClassFile.read declaringClass).bind ClassFile.name = .ok "C" := by decide +kernel
  have declared : (ClassFile.read declaringClass).map (fun file => (file.signatures .method)[0]?) =
      .ok (some (some ("f", "()LC;"))) := by decide +kernel
  rw [parsed] at referred
  rw [otherParsed] at named declared
  obtain ⟨newOwner, newName, newDescriptor, reference, declaration⟩ :=
    linked 6 0 (Except.ok.inj referred) named (Except.ok.inj declared)
  exact ⟨out, otherOut, referring, declaring, new, otherNew, newOwner, newName, newDescriptor, reparsed,
    otherReparsed, reference, declaration⟩

end JarRemap
