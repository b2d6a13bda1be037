import JarRemap.Proofs.RemappedArchives

/-!
# Uses across packages

A constant of a class uses the class that it names, or names an array of, and a reference uses the member that its
owner leads to. What can be seen in its package only and is used from another one is needed outside. The symbols that
are collected from all constants of all classes are exactly the needed ones.
-/
namespace JarRemap

open List Outcome Text AccessTransform

/-- Steps that may give nothing succeed if each of them does, and then the results are gathered. -/
theorem Outcome.filterMapM_eq_ok {α β : Type} {step : α → Outcome (Option β)} {values : List α} {results : List β} :
    values.filterMapM step = .ok results ↔ ∃ found, Forall₂ (fun value given => step value = .ok given) values found ∧
        found.reduceOption = results := by
  have gathered : values.filterMapM step = reduceOption <$> values.mapM step := by
    induction values with
    | nil => rfl
    | cons value values ih =>
      rw [filterMapM_cons, mapM_cons, map_bind]
      refine bind_congr fun given => ?_
      cases given with
      | none | some result => simp [ih]
  rw [gathered, map_eq_ok]
  simp only [mapM_eq_ok]

namespace PackageAccess

variable {files : List ClassFile} {names : List String}

section packages

variable {name package : String} {user target : Nat}

/-- The package is what stands before the last slash of the name, and nothing for a name without slashes. -/
def InPackage (name package : String) : Prop :=
  (∃ simple, name = package ++ "/" ++ simple ∧ '/' ∉ simple.toList) ∨ package = "" ∧ '/' ∉ name.toList

theorem inPackage_iff : InPackage name package ↔ packageOf name = package := by
  have cutAt (package simple : String) (absent : '/' ∉ simple.toList) :
      cutLast? '/' (package ++ "/" ++ simple).toList = some (package.toList, simple.toList) :=
    cutLast?_eq_some.mpr ⟨by simp, absent⟩
  constructor
  · rintro (⟨simple, rfl, absent⟩ | ⟨rfl, absent⟩)
    · rw [packageOf, cutAt package simple absent]
      exact String.ofList_toList
    · rw [packageOf, cutLast?_eq_none.mpr absent]
  · rintro rfl
    rw [packageOf]
    cases cut : cutLast? '/' name.toList with
    | none => exact .inr ⟨rfl, cutLast?_eq_none.mp cut⟩
    | some parts =>
      obtain ⟨before, after⟩ := parts
      obtain ⟨split, absent⟩ := cutLast?_eq_some.mp cut
      refine .inl ⟨String.ofList after, String.toList_inj.mp ?_, by rwa [String.toList_ofList]⟩
      simp [split]

def Apart (files : List ClassFile) (user target : Nat) : Prop :=
  ∃ userName targetName userPackage targetPackage, Named files user userName ∧ Named files target targetName ∧
    InPackage userName userPackage ∧ InPackage targetName targetPackage ∧ userPackage ≠ targetPackage

theorem AreNames.crosses_iff (areNames : AreNames files names) (userInside : user < files.length)
    (targetInside : target < files.length) :
    (tableOf files names).crosses user target = true ↔ Apart files user target := by
  rw [Forall₂.length_eq areNames] at userInside targetInside
  have userNamed : names[user]? = some names[user] := getElem?_eq_getElem userInside
  have targetNamed : names[target]? = some names[target] := getElem?_eq_getElem targetInside
  have crosses : (tableOf files names).crosses user target = true ↔
      packageOf names[user] ≠ packageOf names[target] := by
    simp [ClassTable.crosses, tableOf, userNamed, targetNamed]
  simp only [crosses, Apart, areNames.named_iff, userNamed, targetNamed, inPackage_iff]
  simp

end packages

section elements

variable {text name : String}

/-- The text of a class constant is about the class: it is its name, or that of an array of it. Texts that start with
a bracket are those of arrays. -/
def Spells (text name : String) : Prop :=
  text = name ∧ text.toList.head? ≠ some '[' ∨
    ∃ depth, text.toList = replicate (depth + 1) '[' ++ 'L' :: (name.toList ++ [';'])

theorem elementClass?_eq_some : elementClass? text = some name ↔ Spells text name := by
  rw [elementClass?]
  by_cases array : startsWith '[' text = true
  · rw [if_pos array]
    have bracket : text.toList.head? = some '[' := by simpa [startsWith] using array
    simp only [Spells, bracket, ne_eq, not_true_eq_false, and_false, false_or, bind, Option.bind_eq_some_iff,
      dropStart?_eq_some, Option.map_eq_map, Option.map_eq_some_iff, dropEnd?_eq_some]
    constructor
    · rintro ⟨_, dropped, chars, rfl, rfl⟩
      obtain ⟨rest, opened⟩ := head?_eq_some_iff.mp bracket
      have brackets : rest.takeWhile (· == '[') = replicate (rest.takeWhile (· == '[')).length '[' :=
        eq_replicate_of_mem fun c taken => by simpa using mem_takeWhile_imp taken
      refine ⟨(rest.takeWhile (· == '[')).length, ?_⟩
      rw [opened, dropWhile_cons_of_pos (by simp), singleton_append] at dropped
      rw [opened, replicate_succ, cons_append, ← brackets, String.toList_ofList, ← dropped, takeWhile_append_dropWhile]
    · rintro ⟨depth, spelled⟩
      refine ⟨name.toList ++ [';'], ?_, name.toList, rfl, String.ofList_toList⟩
      rw [spelled, dropWhile_append_of_pos (by simp), dropWhile_cons_of_neg (by simp)]
      rfl
  · rw [if_neg array, Option.some.injEq]
    have plain : text.toList.head? ≠ some '[' := by simpa [startsWith] using array
    constructor
    · intro same
      exact .inl ⟨same, plain⟩
    · rintro (⟨same, -⟩ | ⟨depth, spelled⟩)
      · exact same
      · rw [spelled] at plain
        exact absurd rfl plain

end elements

section flags

variable {flags : UInt16}

/-- None of the public, private and protected flags is set. -/
def PackageOnly (flags : UInt16) : Prop := flags &&& 0x0001 = 0 ∧ flags &&& 0x0002 = 0 ∧ flags &&& 0x0004 = 0

theorem isPackageOnly_iff : isPackageOnly flags = true ↔ PackageOnly flags := by
  rw [isPackageOnly, decide_eq_true_iff, Visibility.ofFlags, PackageOnly]
  split
  · simp_all
  · split
    · simp_all
    · split <;> simp_all

theorem not_packageOnly_or (flags : UInt16) : ¬ PackageOnly (flags ||| 0x0001) := by
  rintro ⟨cleared, -⟩
  have kept : (flags ||| 0x0001) &&& 0x0001 = 0x0001 := by
    apply UInt16.eq_of_toBitVec_eq
    ext position inside
    simp only [UInt16.toBitVec_and, UInt16.toBitVec_or, BitVec.getElem_and, BitVec.getElem_or]
    exact Bool.and_eq_right_iff_imp.mpr fun held => by rw [held, Bool.or_true]
  rw [kept] at cleared
  cases cleared

theorem flags_eq (flags : UInt16) :
    (flags &&& 0x0001 ||| flags &&& 0x0002 ||| flags &&& 0x0004) ||| flags &&& ~~~0x0007 = flags := by
  apply UInt16.eq_of_toBitVec_eq
  ext position inside
  interval_cases position <;> simp

theorem PackageOnly.apply_publish (packageOnly : PackageOnly flags) :
    AccessTransform.publish.apply flags = flags ||| 0x0001 := by
  have limited : Visibility.ofFlags flags = .isDefault := by
    simpa [isPackageOnly] using isPackageOnly_iff.mpr packageOnly
  have unlimited : flags &&& ~~~0x0007 = flags := by
    conv_rhs => rw [← flags_eq flags, packageOnly.1, packageOnly.2.1, packageOnly.2.2]
    simp
  change raise .isPublic flags = _
  rw [raise, limited, if_pos (by decide), unlimited]
  rfl

end flags

section uses

variable {pool : ConstantPool} {constant : Constant} {kind : MemberKind} {ownerSlot typeSlot slot flags : UInt16}
  {site : AccessSite} {found : Option AccessSite} {user : Nat} {result : Option (AccessSite × UInt16)}

inductive IsReference : Constant → MemberKind → (ownerSlot typeSlot : UInt16) → Prop
  | field {ownerSlot typeSlot : UInt16} : IsReference (.fieldRef ownerSlot typeSlot) .field ownerSlot typeSlot
  | method {ownerSlot typeSlot : UInt16} : IsReference (.methodRef ownerSlot typeSlot) .method ownerSlot typeSlot
  | interfaceMethod {ownerSlot typeSlot : UInt16} :
    IsReference (.interfaceMethodRef ownerSlot typeSlot) .method ownerSlot typeSlot

theorem IsReference.unique {otherKind : MemberKind} {otherOwner otherType : UInt16}
    (refers : IsReference constant kind ownerSlot typeSlot)
    (refersToo : IsReference constant otherKind otherOwner otherType) :
    kind = otherKind ∧ ownerSlot = otherOwner ∧ typeSlot = otherType := by
  cases refers <;> cases refersToo <;> exact ⟨rfl, rfl, rfl⟩

/-- The symbol that a constant uses. A class is used by its name, also as the element of an array, and a member by a
reference whose owner leads to the declaration. -/
inductive Uses (files : List ClassFile) (pool : ConstantPool) : Constant → AccessSite → Prop
  | ofClass {slot : UInt16} {text name : String} {target : Nat} (read : pool.text slot = .ok text)
    (spells : Spells text name) (denotes : Denotes files name target) :
    Uses files pool (.classRef slot) (.ofClass target)
  | ofMember {constant : Constant} {kind : MemberKind} {ownerSlot typeSlot : UInt16} {owner name descriptor : String}
    {start index position : Nat} (refers : IsReference constant kind ownerSlot typeSlot)
    (owned : pool.className ownerSlot = .ok owner) (typed : pool.nameAndType typeSlot = .ok (name, descriptor))
    (denotes : Denotes files owner start) (meets : Meets files kind name descriptor start index position) :
    Uses files pool constant (.ofMember kind index position)

/-- The symbol can be seen in its package only. -/
def IsLimited (files : List ClassFile) (site : AccessSite) : Prop :=
  ∃ flags, flagsAt files site = some flags ∧ PackageOnly flags

/-- The symbol can be seen in its package only, but some class in another package uses it. -/
def Needed (files : List ClassFile) (site : AccessSite) : Prop :=
  IsLimited files site ∧ ∃ user file constant, files[user]? = some file ∧ some constant ∈ file.pool.slots.toList ∧
    Uses files file.pool constant site ∧ Apart files user site.index

theorem index_lt_length (flagged : flagsAt files site = some flags) : site.index < files.length := by
  by_contra outside
  have absent : files[site.index]? = none := getElem?_eq_none_iff.mpr (Nat.le_of_not_lt outside)
  cases site <;> simp_all [flagsAt, AccessSite.index]

/-- The symbol that a constant is about, with its access flags, whoever uses it. -/
def candidate (table : ClassTable) (pool : ConstantPool) : Constant → Outcome (Option (AccessSite × UInt16))
  | .classRef slot => do
    let text ← pool.text slot
    return do
      let target ← (elementClass? text).bind table.positions.get?
      let file ← table.files[target]?
      return (.ofClass target, file.access)
  | .fieldRef owner nameAndType => reference .field owner nameAndType
  | .methodRef owner nameAndType => reference .method owner nameAndType
  | .interfaceMethodRef owner nameAndType => reference .method owner nameAndType
  | _ => .ok none
where
  reference (kind : MemberKind) (owner nameAndType : UInt16) : Outcome (Option (AccessSite × UInt16)) := do
    let owner ← pool.className owner
    let (name, descriptor) ← pool.nameAndType nameAndType
    table.findMember kind name descriptor (table.files.size + 1) (table.positions.get? owner)

/-- The symbol, if it is limited to another package than that of the user. -/
def refused (table : ClassTable) (user : Nat) (candidate : AccessSite × UInt16) : Option AccessSite :=
  if table.crosses user candidate.1.index && isPackageOnly candidate.2 then some candidate.1 else none

theorem siteOf_eq (table : ClassTable) :
    table.siteOf user pool constant = (·.bind (refused table user)) <$> candidate table pool constant := by
  have member (kind : MemberKind) (owner nameAndType : UInt16) :
      table.memberSite user pool kind owner nameAndType =
        (·.bind (refused table user)) <$> candidate.reference table pool kind owner nameAndType := by
    simp only [ClassTable.memberSite, candidate.reference, map_bind]
    refine bind_congr fun owner => bind_congr fun names => ?_
    rw [map_eq_pure_bind]
    refine bind_congr fun found => ?_
    cases found <;> rfl
  cases constant with
  | classRef slot =>
    simp only [ClassTable.siteOf, ClassTable.classSite, candidate, map_bind, map_pure]
    refine bind_congr fun text => ?_
    cases (elementClass? text).bind table.positions.get? with
    | none => rfl
    | some target =>
      simp only [bind, Option.bind_some]
      cases table.files[target]? <;> rfl
  | fieldRef | methodRef | interfaceMethodRef => exact member ..
  | _ => rfl

/-- A reference is to the member that the constant uses, with the flags it is declared with. -/
theorem reference_eq_some (areNames : AreNames files names) (refers : IsReference constant kind ownerSlot typeSlot)
    (run : candidate.reference (tableOf files names) pool kind ownerSlot typeSlot = .ok result) :
    result = some (site, flags) ↔ Uses files pool constant site ∧ flagsAt files site = some flags := by
  simp only [candidate.reference, bind_eq_ok] at run
  obtain ⟨owner, owned, ⟨name, descriptor⟩, typed, searched⟩ := run
  have size : (tableOf files names).files.size = files.length := size_toArray
  rw [size] at searched
  -- the reference leads to what is met on the way up from its owner
  have uses : Uses files pool constant site ↔ ∃ start, (tableOf files names).positions.get? owner = some start ∧
      ∃ index position, site = .ofMember kind index position ∧
        Meets files kind name descriptor start index position := by
    simp only [areNames.positions_iff]
    constructor
    · rintro (_ | ⟨refersToo, ownedToo, typedToo, denotes, meets⟩)
      · cases refers
      · obtain ⟨rfl, rfl, rfl⟩ := refers.unique refersToo
        obtain rfl := Outcome.unique owned ownedToo
        cases Outcome.unique typed typedToo
        exact ⟨_, denotes, _, _, rfl, meets⟩
    · rintro ⟨start, denotes, index, position, rfl, meets⟩
      exact .ofMember refers owned typed denotes meets
  rw [uses]
  cases known : (tableOf files names).positions.get? owner with
  | none =>
    rw [known, findMember_none] at searched
    cases searched
    simp
  | some start =>
    rw [known] at searched
    simp only [findMember_eq_some areNames searched, Option.some.injEq, exists_eq_left', ← exists_and_right, and_assoc]

theorem candidate_eq_some (areNames : AreNames files names)
    (run : candidate (tableOf files names) pool constant = .ok result) :
    result = some (site, flags) ↔ Uses files pool constant site ∧ flagsAt files site = some flags := by
  cases constant with
  | classRef slot =>
    simp only [candidate, bind_eq_ok, pure_eq_ok] at run
    obtain ⟨text, read, rfl⟩ := run
    simp only [bind, Option.bind_eq_some_iff, getElem?_tableOf, elementClass?_eq_some, areNames.positions_iff]
    constructor
    · rintro ⟨target, ⟨name, spells, denotes⟩, file, held, same⟩
      cases same
      exact ⟨.ofClass read spells denotes, by simp [flagsAt, held]⟩
    · rintro ⟨uses, flagged⟩
      cases uses with
      | ofClass readToo spells denotes =>
        obtain rfl := Outcome.unique read readToo
        obtain ⟨file, held, rfl⟩ := Option.map_eq_some_iff.mp flagged
        exact ⟨_, ⟨_, spells, denotes⟩, file, held, rfl⟩
      | ofMember refers => cases refers
  | fieldRef => exact reference_eq_some areNames .field run
  | methodRef => exact reference_eq_some areNames .method run
  | interfaceMethodRef => exact reference_eq_some areNames .interfaceMethod run
  | _ =>
    cases run
    refine iff_of_false (Option.some_ne_none _).symm ?_
    rintro ⟨_ | ⟨refers⟩, -⟩
    cases refers

theorem refused_eq_some {table : ClassTable} {found : AccessSite × UInt16} : refused table user found = some site ↔
      found.1 = site ∧ table.crosses user site.index = true ∧ PackageOnly found.2 := by
  rw [refused, Option.ite_none_right_eq_some, Bool.and_eq_true, isPackageOnly_iff, Option.some.injEq]
  constructor
  · rintro ⟨chosen, rfl⟩
    exact ⟨rfl, chosen⟩
  · rintro ⟨rfl, chosen⟩
    exact ⟨chosen, rfl⟩

/-- What is found for a constant and has to be public is the limited symbol that it uses from another package. -/
theorem siteOf_eq_some (areNames : AreNames files names) (inside : user < files.length)
    (run : (tableOf files names).siteOf user pool constant = .ok found) :
    found = some site ↔ Uses files pool constant site ∧ Apart files user site.index ∧ IsLimited files site := by
  rw [siteOf_eq, map_eq_ok] at run
  obtain ⟨result, searched, rfl⟩ := run
  simp only [Option.bind_eq_some_iff, refused_eq_some, Prod.exists]
  constructor
  · rintro ⟨_, flags, same, rfl, crosses, limited⟩
    obtain ⟨uses, flagged⟩ := (candidate_eq_some areNames searched).mp same
    exact ⟨uses, (areNames.crosses_iff inside (index_lt_length flagged)).mp crosses, flags, flagged, limited⟩
  · rintro ⟨uses, apart, flags, flagged, limited⟩
    exact ⟨site, flags, (candidate_eq_some areNames searched).mpr ⟨uses, flagged⟩, rfl,
      (areNames.crosses_iff inside (index_lt_length flagged)).mpr apart, limited⟩

theorem exists_mem_constants : (∃ index, (index, constant) ∈ pool.constants) ↔ some constant ∈ pool.slots.toList := by
  simp only [ConstantPool.constants, mem_filterMap, Prod.exists, Option.map_eq_some_iff, Prod.mk.injEq]
  constructor
  · rintro ⟨_, slot, index, listed, _, rfl, -, rfl⟩
    exact mem_of_getElem? (mem_zipIdx_iff_getElem?.mp listed)
  · intro listed
    obtain ⟨index, held⟩ := mem_iff_getElem?.mp listed
    exact ⟨_, some constant, index, mem_zipIdx_iff_getElem?.mpr held, constant, rfl, rfl, rfl⟩

section sites

variable {sites : List AccessSite}

section

variable (run : (tableOf files names).sites = .ok sites)
include run

theorem sites_eq_ok : ∃ found : List (List AccessSite), Forall₂ (fun entry given => entry.1.pool.constants.filterMapM
      (fun constant => (tableOf files names).siteOf entry.2 entry.1.pool constant.2) = .ok given) files.zipIdx found ∧
        found.flatten = sites := by
  simp only [ClassTable.sites, bind_eq_ok, mapM_eq_ok, pure_eq_ok] at run
  exact run

theorem exists_siteOf {file : ClassFile} (held : files[user]? = some file)
    (holds : some constant ∈ file.pool.slots.toList) :
    ∃ found, (tableOf files names).siteOf user file.pool constant = .ok found ∧
      ∀ site, found = some site → site ∈ sites := by
  obtain ⟨found, each, rfl⟩ := sites_eq_ok run
  obtain ⟨index, listed⟩ := exists_mem_constants.mpr holds
  have entryListed : (file, user) ∈ files.zipIdx := mem_zipIdx_iff_getElem?.mpr held
  obtain ⟨given, givenListed, gathered⟩ := exists_mem_of_forall₂ each entryListed
  obtain ⟨steps, stepEach, rfl⟩ := filterMapM_eq_ok.mp gathered
  obtain ⟨step, stepListed, stepped⟩ := exists_mem_of_forall₂ stepEach listed
  refine ⟨step, stepped, ?_⟩
  rintro site rfl
  exact mem_flatten.mpr ⟨_, givenListed, reduceOption_mem_iff.mpr stepListed⟩

theorem siteOf_of_mem (listed : site ∈ sites) :
    ∃ user file constant, files[user]? = some file ∧ some constant ∈ file.pool.slots.toList ∧
      (tableOf files names).siteOf user file.pool constant = .ok (some site) := by
  obtain ⟨found, each, rfl⟩ := sites_eq_ok run
  obtain ⟨given, givenListed, inGiven⟩ := mem_flatten.mp listed
  obtain ⟨⟨file, user⟩, entryListed, gathered⟩ := exists_mem_of_forall₂ each.flip givenListed
  obtain ⟨steps, stepEach, rfl⟩ := filterMapM_eq_ok.mp gathered
  obtain ⟨⟨index, constant⟩, constantListed, stepped⟩ :=
    exists_mem_of_forall₂ stepEach.flip (reduceOption_mem_iff.mp inGiven)
  exact ⟨user, file, constant, mem_zipIdx_iff_getElem?.mp entryListed,
    exists_mem_constants.mp ⟨index, constantListed⟩, stepped⟩

end

theorem mem_sites (areNames : AreNames files names) (run : (tableOf files names).sites = .ok sites) :
    site ∈ sites ↔ Needed files site := by
  constructor
  · intro listed
    obtain ⟨user, file, constant, held, holds, given⟩ := siteOf_of_mem run listed
    have inside := (List.getElem?_eq_some_iff.mp held).1
    obtain ⟨uses, apart, limited⟩ := (siteOf_eq_some areNames inside given).mp rfl
    exact ⟨limited, user, file, constant, held, holds, uses, apart⟩
  · rintro ⟨limited, user, file, constant, held, holds, uses, apart⟩
    have inside := (List.getElem?_eq_some_iff.mp held).1
    obtain ⟨found, given, listed⟩ := exists_siteOf run held holds
    exact listed site ((siteOf_eq_some areNames inside given).mpr ⟨uses, apart, limited⟩)

end sites

end uses

end PackageAccess

end JarRemap
