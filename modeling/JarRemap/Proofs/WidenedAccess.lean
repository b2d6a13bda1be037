import JarRemap.Proofs.PackageUses

/-!
# What the repair of package access makes public

The repair makes exactly the needed symbols public. The classes that come out have the outlines of those that went in:
the same names, super classes and members, so that the same searches end at the same symbols. What was needed is public
now, so a second repair finds nothing to do.
-/
namespace JarRemap.PackageAccess

open List Outcome ClassTable

variable {files others : List ClassFile} {names : List String} {file : ClassFile} {pool again : ConstantPool}
  {kind : MemberKind} {name descriptor : String} {members : List Member} {constant : Constant}
  {sites : List AccessSite} {user fuel index : Nat}

def blank (member : Member) : Member := { member with access := 0 }

/-- The class file without access flags and without the register of its pool. -/
def outline (file : ClassFile) : ClassFile :=
  { file with
    pool := ⟨file.pool.slots, ∅⟩
    access := 0
    fields := file.fields.map blank
    methods := file.methods.map blank }

theorem areNames_outline : AreNames (files.map outline) names ↔ AreNames files names := forall₂_map_left_iff

/-- What is found, without its access flags. -/
def unflagged {α : Type} (found : Option (α × UInt16)) : Option (α × UInt16) := found.map fun found => (found.1, 0)

theorem memberOf?_blank (start : Nat) : memberOf? ⟨pool.slots, ∅⟩ name descriptor start (members.map blank) =
      unflagged <$> memberOf? pool name descriptor start members := by
  have text : (⟨pool.slots, ∅⟩ : ConstantPool).text = pool.text := rfl
  induction members generalizing start with
  | nil => rfl
  | cons member members ih =>
    simp only [map_cons, memberOf?, ih, text, map_bind]
    refine bind_congr fun spelled => ?_
    split
    · rw [map_bind]
      refine bind_congr fun typed => ?_
      split <;> rfl
    · rfl

theorem findMember_outline (owner : Option Nat) :
    (tableOf (files.map outline) names).findMember kind name descriptor fuel owner =
      unflagged <$> (tableOf files names).findMember kind name descriptor fuel owner := by
  induction fuel generalizing owner with
  | zero => rfl
  | succ fuel ih =>
    cases owner with
    | none => rfl
    | some index =>
      cases held : files[index]? with
      | none =>
        rw [findMember_outside held, findMember_outside (by simp [held])]
        rfl
      | some file =>
        have heldToo : (files.map outline)[index]? = some (outline file) := by simp [held]
        have here : memberOf? (outline file).pool name descriptor 0 (membersOf (outline file) kind) =
            unflagged <$> memberOf? file.pool name descriptor 0 (membersOf file kind) := by
          cases kind <;> exact memberOf?_blank 0
        rw [findMember_succ held, findMember_succ heldToo, here, bind_map_left, map_bind]
        refine bind_congr fun found => ?_
        cases found with
        | none =>
          change (file.superName? >>= _) = unflagged <$> (file.superName? >>= _)
          rw [map_bind]
          exact bind_congr fun above => ih _
        | some found => rfl

theorem candidate_outline : candidate (tableOf (files.map outline) names) ⟨pool.slots, ∅⟩ constant =
      unflagged <$> candidate (tableOf files names) pool constant := by
  have reference (kind : MemberKind) (owner nameAndType : UInt16) :
      candidate.reference (tableOf (files.map outline) names) ⟨pool.slots, ∅⟩ kind owner nameAndType =
        unflagged <$> candidate.reference (tableOf files names) pool kind owner nameAndType := by
    have size : (tableOf (files.map outline) names).files.size = (tableOf files names).files.size := by simp [tableOf]
    simp only [candidate.reference, size, findMember_outline, map_bind]
    rfl
  cases constant with
  | classRef slot =>
    simp only [candidate, map_bind, map_pure, getElem?_tableOf, getElem?_map]
    refine bind_congr fun text => congrArg pure ?_
    change ((elementClass? text).bind (tableOf files names).positions.get?).bind _ = unflagged (Option.bind _ _)
    cases (elementClass? text).bind (tableOf files names).positions.get? with
    | none => rfl
    | some target =>
      rw [Option.bind_some, Option.bind_some]
      cases files[target]? <;> rfl
  | fieldRef | methodRef | interfaceMethodRef => exact reference ..
  | _ => rfl

theorem exists_candidate {found : Option (AccessSite × UInt16)} (same : others.map outline = files.map outline)
    (slots : again.slots = pool.slots) (run : candidate (tableOf files names) pool constant = .ok found) :
    ∃ foundAgain, candidate (tableOf others names) again constant = .ok foundAgain ∧
      unflagged foundAgain = unflagged found := by
  have outlined : unflagged <$> candidate (tableOf others names) again constant = .ok (unflagged found) := by
    rw [← candidate_outline, same, slots, candidate_outline, run]
    rfl
  exact map_eq_ok.mp outlined

section

variable (areNames : AreNames files names) (same : others.map outline = files.map outline)
  (widened : ∀ site, IsLimited others site → IsLimited files site ∧ site ∉ sites)
include areNames same widened

theorem siteOf_again {found : Option AccessSite} (slots : again.slots = pool.slots)
    (run : (tableOf files names).siteOf user pool constant = .ok found)
    (gathered : ∀ site, found = some site → site ∈ sites) :
    (tableOf others names).siteOf user again constant = .ok none := by
  have areNamesToo : AreNames others names := areNames_outline.mp (same ▸ areNames_outline.mpr areNames)
  rw [siteOf_eq, map_eq_ok] at run ⊢
  obtain ⟨result, searched, rfl⟩ := run
  obtain ⟨resultAgain, searchedAgain, sameSite⟩ := exists_candidate same slots searched
  refine ⟨resultAgain, searchedAgain, Option.eq_none_iff_forall_ne_some.mpr fun site chosen => ?_⟩
  obtain ⟨⟨_, flagsAgain⟩, rfl, asked⟩ := Option.bind_eq_some_iff.mp chosen
  obtain ⟨rfl, crosses, packageOnly⟩ := refused_eq_some.mp asked
  obtain ⟨⟨_, flags⟩, rfl, sameToo⟩ := Option.map_eq_some_iff.mp sameSite.symm
  cases sameToo
  have flaggedAgain := ((candidate_eq_some areNamesToo searchedAgain).mp rfl).2
  have flagged := ((candidate_eq_some areNames searched).mp rfl).2
  obtain ⟨⟨_, flaggedToo, limited⟩, unlisted⟩ := widened _ ⟨flagsAgain, flaggedAgain, packageOnly⟩
  cases flagged.symm.trans flaggedToo
  exact unlisted (gathered _ (refused_eq_some.mpr ⟨rfl, crosses, limited⟩))

theorem sites_again (run : (tableOf files names).sites = .ok sites) : (tableOf others names).sites = .ok [] := by
  have nothing (other : ClassFile) (user : Nat) (listed : (other, user) ∈ others.zipIdx) :
      other.pool.constants.filterMapM (fun constant => (tableOf others names).siteOf user other.pool constant.2) =
        .ok [] := by
    have held : (files.map outline)[user]? = some (outline other) := by
      rw [← same, getElem?_map, mem_zipIdx_iff_getElem?.mp listed]
      rfl
    rw [getElem?_map, Option.map_eq_some_iff] at held
    obtain ⟨file, held, sameOutline⟩ := held
    have slots : other.pool.slots = file.pool.slots := congrArg (·.pool.slots) sameOutline.symm
    refine filterMapM_eq_ok.mpr ⟨other.pool.constants.map fun _ => none, ?_, by simp⟩
    rw [forall₂_map_right_iff, forall₂_same]
    rintro ⟨index, constant⟩ constantListed
    have holds : some constant ∈ file.pool.slots.toList := slots ▸ exists_mem_constants.mp ⟨index, constantListed⟩
    obtain ⟨found, given, gathered⟩ := exists_siteOf run held holds
    exact siteOf_again areNames same widened slots given gathered
  refine bind_eq_ok.mpr ⟨others.zipIdx.map fun _ => [], mapM_eq_ok.mpr ?_, by simp⟩
  change Forall₂ _ others.zipIdx _
  rw [forall₂_map_right_iff, forall₂_same]
  rintro ⟨other, user⟩ listed
  exact nothing other user listed

end

section publish

variable {classes after : List ClassEntry} {pools : Nat → ConstantPool}

theorem membersOf_publish (file : ClassFile) (index : Nat) (sites : List AccessSite) (pool : ConstantPool)
    (kind : MemberKind) : membersOf { publish file index sites with pool } kind =
      publishMembers (membersOf file kind) fun position => sites.contains (.ofMember kind index position) := by
  cases kind <;> rfl

theorem outline_publish (slots : pool.slots = file.pool.slots) :
    outline { publish file index sites with pool } = outline file := by
  have members (members : List Member) (chosen : Nat → Bool) :
      (publishMembers members chosen).map blank = members.map blank := by
    apply ext_getElem?
    intro position
    rw [getElem?_map, getElem?_map, getElem?_publishMembers, Option.map_map]
    refine congrArg (Option.map · _) (funext fun member => ?_)
    dsimp only [Function.comp]
    split <;> rfl
  simp [outline, publish, slots, members]

/-- The class files with the symbols made public. Their pools may be others. -/
def published (sites : List AccessSite) (pools : Nat → ConstantPool) (files : List ClassFile) : List ClassFile :=
  files.zipIdx.map fun item => { publish item.1 item.2 sites with pool := pools item.2 }

theorem getElem?_published : (published sites pools files)[index]? =
    files[index]?.map fun file => { publish file index sites with pool := pools index } := by
  simp [published, getElem?_zipIdx]
  rfl

/-- The pools have the slots of those of the class files. -/
def KeepSlots (pools : Nat → ConstantPool) (files : List ClassFile) : Prop :=
  ∀ index file, files[index]? = some file → (pools index).slots = file.pool.slots

theorem KeepSlots.outline_published (kept : KeepSlots pools files) :
    (published sites pools files).map outline = files.map outline := by
  apply ext_getElem?
  intro index
  rw [getElem?_map, getElem?_map, getElem?_published]
  cases held : files[index]? with
  | none => rfl
  | some file => exact congrArg some (outline_publish (kept index file held))

theorem flagsAt_published (site : AccessSite) :
    flagsAt (published sites pools files) site = (flagsAt files site).map fun flags =>
      if site ∈ sites then AccessTransform.publish.apply flags else flags := by
  cases site with
  | ofClass index =>
    rw [flagsAt, flagsAt, getElem?_published]
    cases files[index]? <;> simp [publish]
  | ofMember kind index position =>
    rw [flagsAt, flagsAt, getElem?_published]
    cases files[index]? with
    | none => rfl
    | some file =>
      simp only [bind, Option.map_some, Option.bind_some, membersOf_publish, getElem?_publishMembers]
      cases (membersOf file kind)[position]? with
      | none => rfl
      | some member => by_cases chosen : AccessSite.ofMember kind index position ∈ sites <;> simp [chosen]

theorem exists_published (opened : Opened classes files)
    (each : Forall₂ (fun item changed => publishEntry (tableOf files names) sites item.1 item.2 = .ok changed)
      classes.zipIdx after) : ∃ pools, KeepSlots pools files ∧ Opened after (published sites pools files) := by
  obtain ⟨sameLength, entries⟩ := forall₂_iff_get.mp opened
  obtain ⟨lengthAfter, changes⟩ := forall₂_iff_get.mp each
  rw [length_zipIdx, sameLength] at lengthAfter
  have place (index : Nat) : ∃ pool, ∀ (inside : index < files.length) (insideAfter : index < after.length),
      ClassFile.read after[index].bytes = .ok { publish files[index] index sites with pool } ∧
        pool.slots = files[index].pool.slots := by
    by_cases inside : index < files.length
    · have insideClasses : index < classes.length := sameLength ▸ inside
      have read := entries index insideClasses inside
      have change := changes index (by simpa using insideClasses) (lengthAfter ▸ inside)
      simp only [get_eq_getElem, getElem_zipIdx, Nat.zero_add] at read change
      obtain ⟨_, _, pool, readAgain⟩ := read_publishEntry read (getElem?_eq_getElem inside) change
      exact ⟨pool, fun _ _ => readAgain⟩
    · exact ⟨.empty, fun insideToo => absurd insideToo inside⟩
  choose pools placed using place
  refine ⟨pools, fun index file held => ?_, forall₂_iff_get.mpr ⟨by simp [published, lengthAfter], ?_⟩⟩
  · obtain ⟨inside, rfl⟩ := List.getElem?_eq_some_iff.mp held
    exact (placed index inside (lengthAfter ▸ inside)).2
  · intro index insideAfter _
    simpa [published] using (placed index (lengthAfter ▸ insideAfter) insideAfter).1

end publish

section repair

variable {classes after : List ClassEntry} {pools : Nat → ConstantPool} {site : AccessSite} {count : Nat}

theorem flagsAt_of_needed (listed : site ∈ sites) (limited : IsLimited files site) :
    flagsAt (published sites pools files) site = (flagsAt files site).map (· ||| 0x0001) := by
  obtain ⟨flags, flagged, packageOnly⟩ := limited
  rw [flagsAt_published, flagged, Option.map_some, Option.map_some, if_pos listed, packageOnly.apply_publish]

theorem isLimited_published (limited : ∀ site ∈ sites, IsLimited files site)
    (still : IsLimited (published sites pools files) site) : IsLimited files site ∧ site ∉ sites := by
  obtain ⟨flags, flagged, packageOnly⟩ := still
  have unlisted : site ∉ sites := by
    intro listed
    rw [flagsAt_of_needed listed (limited site listed), Option.map_eq_some_iff] at flagged
    obtain ⟨before, -, rfl⟩ := flagged
    exact not_packageOnly_or before packageOnly
  refine ⟨⟨flags, ?_, packageOnly⟩, unlisted⟩
  simpa [flagsAt_published, unlisted] using flagged

theorem countP_eq_ncard (classes : Nat) (inside : ∀ site ∈ sites, site.index < classes) :
    (range classes).countP (fun index => sites.any (·.index = index)) =
      {index | ∃ site, site ∈ sites ∧ site.index = index}.ncard := by
  have same : {index | ∃ site, site ∈ sites ∧ site.index = index} =
      ↑((range classes).filter fun index => sites.any (·.index = index)).toFinset := by
    ext index
    simp only [Set.mem_ofPred_eq, coe_toFinset, mem_filter, mem_range, any_eq_true, decide_eq_true_eq, iff_and_self]
    rintro ⟨site, listed, rfl⟩
    exact inside site listed
  rw [same, Set.ncard_coe_finset, toFinset_card_of_nodup (nodup_range.filter _), countP_eq_length_filter]

theorem fix_again (openedToo : Opened after others) (areNames : AreNames others names)
    (run : (tableOf others names).sites = .ok []) : fix after = .ok (0, after) := by
  refine fix_eq_ok.mpr ⟨others, names, [], openedToo, areNames, run, by simp, ?_⟩
  have each : Forall₂ (fun item changed => publishEntry (tableOf others names) [] item.1 item.2 = .ok changed)
      after.zipIdx (after.zipIdx.map Prod.fst) := by
    rw [forall₂_map_right_iff, forall₂_same]
    exact fun item _ => rfl
  rwa [zipIdx_map_fst] at each

/-- Exactly the symbols that are needed outside of their packages get the public flag, and all other symbols keep
their flags. The number that is given is that of the classes in which there is such a symbol. A second repair finds
none. -/
theorem fix_publishes_needed (fixed : fix classes = .ok (count, after)) :
    ∃ files widened, Opened classes files ∧ Opened after widened ∧
      (∀ site, Needed files site → flagsAt widened site = (flagsAt files site).map (· ||| 0x0001)) ∧
      (∀ site, ¬ Needed files site → flagsAt widened site = flagsAt files site) ∧
      count = {index | ∃ site, Needed files site ∧ site.index = index}.ncard ∧
      fix after = .ok (0, after) := by
  obtain ⟨files, names, sites, opened, areNames, run, counted, each⟩ := fix_eq_ok.mp fixed
  obtain ⟨pools, kept, openedToo⟩ := exists_published opened each
  have needed (site : AccessSite) : site ∈ sites ↔ Needed files site := mem_sites areNames run
  have limited : ∀ site ∈ sites, IsLimited files site := fun site listed => ((needed site).mp listed).1
  refine ⟨files, published sites pools files, opened, openedToo, fun site needs => ?_, fun site unneeded => ?_, ?_, ?_⟩
  · exact flagsAt_of_needed ((needed site).mpr needs) needs.1
  · have unlisted : site ∉ sites := fun listed => unneeded ((needed site).mp listed)
    simp [flagsAt_published, unlisted]
  · rw [← counted, List.Forall₂.length_eq opened, countP_eq_ncard]
    · simp only [needed]
    · intro site listed
      obtain ⟨flags, flagged, -⟩ := limited site listed
      exact index_lt_length flagged
  · have same : (published sites pools files).map outline = files.map outline := kept.outline_published
    refine fix_again openedToo (areNames_outline.mp (same ▸ areNames_outline.mpr areNames)) ?_
    exact sites_again areNames same (fun site still => isLimited_published limited still) run

/-- The class `a/A` below `b/B`. It has a method `m`, and both have the visibility in their last bits. -/
def circularClass (visibility : UInt8) : Bytes := [0xca, 0xfe, 0xba, 0xbe, 0, 0, 0, 52, 0, 7, 1, 0, 3, 97, 47, 65, 7, 0,
  1, 1, 0, 3, 98, 47, 66, 7, 0, 3, 1, 0, 1, 109, 1, 0, 3, 40, 41, 86, 0, 32 + visibility, 0, 2, 0, 4, 0, 0, 0, 0, 0, 1,
  0, visibility, 0, 5, 0, 6, 0, 0, 0, 0]

/-- The public class `b/B` below `a/A`. It has references to methods `m` and `x` of its own, and declares neither. -/
def circularUser : Bytes := [0xca,0xfe,0xba,0xbe,0,0,0,52,0,12,1,0,3,98,47,66,7,0,1,1,0,3,97,47,65,
  7,0,3,1,0,1,109,1,0,3,40,41,86,12,0,5,0,6,10,0,2,0,7,1,0,1,120,12,0,9,0,6,10,0,2,0,10,0,33,0,2,0,
  4,0,0,0,0,0,0,0,0]

def circularClasses (visibility : UInt8) : List ClassEntry :=
  [⟨"a/A.class", circularClass visibility, none⟩, ⟨"b/B.class", circularUser, none⟩]

theorem fix_publishes_needed_circular :
    fix (circularClasses 0) = .ok (1, circularClasses 1) ∧ fix (circularClasses 1) = .ok (0, circularClasses 1) ∧
    ∃ files, Opened (circularClasses 0) files ∧ 1 = {index | ∃ site, Needed files site ∧ site.index = index}.ncard := by
  have fixed : fix (circularClasses 0) = .ok (1, circularClasses 1) := by decide +kernel
  obtain ⟨files, widened, opened, -, -, -, counted, again⟩ := fix_publishes_needed fixed
  exact ⟨fixed, again, files, opened, counted⟩

end repair

end JarRemap.PackageAccess
