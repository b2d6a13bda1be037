import JarRemap.Proofs.WidenedAccess

/-!
# The repair of package access changes nothing but visibility

A class file that was read can be written again, with other access flags as well, and takes as many bytes as before.
So the repair can fail only while it reads the classes and searches them, before it has changed anything, whether the
changed classes are put into a new list or written back one after another.
-/
namespace JarRemap

open List Outcome ClassFile List

section lengths

variable {α : Type} {write : α → Outcome Bytes} {firsts seconds : List α} {bytes : Bytes}

/-- Where the first can be written, the second takes as many bytes. -/
def SameLength (write : α → Outcome Bytes) (first second : α) : Prop :=
  ∀ bytes, write first = .ok bytes → ∃ others, write second = .ok others ∧ others.length = bytes.length

theorem exists_concatBytes (each : Forall₂ (SameLength write) firsts seconds) :
    SameLength (concatBytes write) firsts seconds := by
  induction each with
  | nil => exact fun bytes written => ⟨bytes, written, rfl⟩
  | cons head _ ih =>
    intro bytes written
    obtain ⟨front, back, writtenFront, writtenBack, rfl⟩ := concatBytes_cons_eq_ok.mp written
    obtain ⟨otherFront, otherWritten, sameFront⟩ := head front writtenFront
    obtain ⟨otherBack, otherWrittenBack, sameBack⟩ := ih back writtenBack
    exact ⟨_, concatBytes_cons_eq_ok.mpr ⟨otherFront, otherBack, otherWritten, otherWrittenBack, rfl⟩,
      by simp [sameFront, sameBack]⟩

theorem exists_listBytes (each : Forall₂ (SameLength write) firsts seconds) :
    SameLength (listBytes write) firsts seconds := by
  intro bytes written
  simp only [listBytes, bind_eq_ok, pure_eq_ok, ← each.length_eq] at written ⊢
  obtain ⟨length, counted, content, concatenated, rfl⟩ := written
  obtain ⟨others, otherWritten, same⟩ := exists_concatBytes each content concatenated
  exact ⟨_, ⟨length, counted, others, otherWritten, rfl⟩, by simp [same]⟩

end lengths

namespace PackageAccess

variable {files : List ClassFile} {names : List String} {file : ClassFile} {sites : List AccessSite} {index count : Nat}
  {classes fixed state : List ClassEntry} {entry changed : ClassEntry} {bytes : Bytes} {failure : Failure}

theorem forall₂_publishMembers {R : Member → Member → Prop} {members : List Member} {chosen : Nat → Bool}
    (each : ∀ (member : Member) (position : Nat), members[position]? = some member →
      R member (if chosen position then { member with access := AccessTransform.publish.apply member.access }
        else member)) :
    Forall₂ R members (publishMembers members chosen) := by
  have paired : Forall₂ R (members.zipIdx.map Prod.fst) (publishMembers members chosen) := by
    rw [publishMembers, forall₂_map_left_iff, forall₂_map_right_iff, forall₂_same]
    exact fun item listed => each item.1 item.2 (mem_zipIdx_iff_getElem?.mp listed)
  rwa [zipIdx_map_fst] at paired

theorem sameLength_publishMembers (members : List Member) (chosen : Nat → Bool) :
    SameLength (listBytes Member.toBytes) members (publishMembers members chosen) := by
  refine exists_listBytes (forall₂_publishMembers fun member position _ bytes written => ?_)
  simp only [Member.toBytes, bind_eq_ok, pure_eq_ok] at written ⊢
  obtain ⟨attributes, written, rfl⟩ := written
  refine ⟨_, ⟨attributes, ?_, rfl⟩, ?_⟩ <;> split <;> simp [written, u16Bytes]

/-- A class file that was read can be written with some of its symbols made public. -/
theorem exists_toBytes_publish (parsed : read bytes = .ok file) (index : Nat) (sites : List AccessSite) :
    ∃ written, (publish file index sites).toBytes = .ok written ∧ written.length = bytes.length := by
  have before := toBytes_of_read parsed
  simp only [toBytes, bind_eq_ok, pure_eq_ok] at before ⊢
  obtain ⟨pool, ofPool, interfaces, ofInterfaces, fields, ofFields, methods, ofMethods, attributes,
    ofAttributes, rfl⟩ :=
    before
  obtain ⟨newFields, ofNewFields, sameFields⟩ := sameLength_publishMembers file.fields
    (fun position => sites.contains (.ofMember .field index position)) fields ofFields
  obtain ⟨newMethods, ofNewMethods, sameMethods⟩ := sameLength_publishMembers file.methods
    (fun position => sites.contains (.ofMember .method index position)) methods ofMethods
  exact ⟨_, ⟨pool, ofPool, interfaces, ofInterfaces, newFields, ofNewFields, newMethods, ofNewMethods, attributes,
    ofAttributes, rfl⟩, by simp [sameFields, sameMethods, u16Bytes]⟩

theorem exists_publishEntry (parsed : read entry.bytes = .ok file) (held : files[index]? = some file) :
    ∃ changed, publishEntry (tableOf files names) sites entry index = .ok changed ∧
      changed.bytes.length = entry.bytes.length := by
  rw [publishEntry, getElem?_tableOf, held]
  split
  · obtain ⟨written, produced, length⟩ := exists_toBytes_publish parsed index sites
    exact ⟨{ entry with bytes := written }, by simp [produced, Outcome.within], length⟩
  · exact ⟨entry, rfl, rfl⟩

/-- Writing an entry once more changes nothing. -/
theorem publishEntry_again (published : publishEntry (tableOf files names) sites entry index = .ok changed) :
    publishEntry (tableOf files names) sites changed index = .ok changed := by
  rw [publishEntry, getElem?_tableOf] at published ⊢
  split at published
  case isFalse none =>
    cases published
    rw [if_neg none]
  case isTrue some =>
    rw [if_pos some]
    cases held : files[index]? with
    | none => rfl
    | some file =>
      simp only [held, bind_eq_ok, within_eq_ok, pure_eq_ok] at published ⊢
      obtain ⟨bytes, produced, rfl⟩ := published
      exact ⟨bytes, produced, rfl⟩

section repaired

variable (each : Forall₂ (fun item changed => publishEntry (tableOf files names) sites item.1 item.2 = .ok changed)
  classes.zipIdx fixed)
include each

theorem exists_changed (held : classes[index]? = some entry) :
    ∃ changed, fixed[index]? = some changed ∧ publishEntry (tableOf files names) sites entry index = .ok changed := by
  have item : classes.zipIdx[index]? = some (entry, index) := by simp [getElem?_zipIdx, held]
  obtain ⟨changed, found⟩ := forall₂_exists_getElem? each item
  exact ⟨changed, found, forall₂_getElem? each item found⟩

theorem exists_original (found : fixed[index]? = some changed) :
    ∃ entry, classes[index]? = some entry ∧ publishEntry (tableOf files names) sites entry index = .ok changed := by
  have inside := (List.getElem?_eq_some_iff.mp found).1
  rw [← each.length_eq, length_zipIdx] at inside
  have held := getElem?_eq_getElem inside
  obtain ⟨_, foundToo, published⟩ := exists_changed each held
  obtain rfl := Option.mem_unique found foundToo
  exact ⟨_, held, published⟩

/-- Writing back puts the changed classes in their places, from any list between the old and the new one. -/
theorem writeBack_eq (indices : List Nat)
    (either : ∀ place : Nat, state[place]? = classes[place]? ∨ state[place]? = fixed[place]?) :
    ∃ after, writeBack (tableOf files names) sites indices state = (.ok (), after) ∧
      ∀ place : Nat, after[place]? = if place ∈ indices then fixed[place]? else state[place]? := by
  induction indices generalizing state with
  | nil => exact ⟨state, rfl, by simp⟩
  | cons index indices ih =>
    have here (entry : ClassEntry) (held : state[index]? = some entry) : ∃ changed, fixed[index]? = some changed ∧
        publishEntry (tableOf files names) sites entry index = .ok changed := by
      rcases either index with same | same
      · exact exists_changed each (same ▸ held)
      · obtain ⟨_, _, published⟩ := exists_original each (same ▸ held)
        exact ⟨entry, same ▸ held, publishEntry_again published⟩
    rw [writeBack]
    cases held : state[index]? with
    | none =>
      obtain ⟨after, written, spec⟩ := ih either
      have absent : fixed[index]? = none := by
        have lengths := each.length_eq
        rcases either index with same | same <;> simp_all
      refine ⟨after, written, fun place => (spec place).trans ?_⟩
      by_cases same : place = index <;> simp [same, held, absent]
    | some entry =>
      obtain ⟨changed, found, published⟩ := here entry held
      have inside := (List.getElem?_eq_some_iff.mp held).1
      have next (place : Nat) : (state.set index changed)[place]? =
          if place = index then fixed[place]? else state[place]? := by
        rw [getElem?_set]
        by_cases same : index = place
        · simp [← same, inside, found]
        · rw [if_neg same, if_neg (Ne.symm same)]
      obtain ⟨after, written, spec⟩ := @ih (state.set index changed) fun place => by
        rw [next]
        split
        · exact .inr rfl
        · exact either place
      refine ⟨after, ?_, fun place => ?_⟩
      · simpa only [Option.map_some, published] using written
      · rw [spec, next]
        by_cases same : place = index <;> by_cases listed : place ∈ indices <;> simp [same, listed]

/-- Classes without a symbol that is made public stay as they are. -/
theorem getElem?_of_absent (absent : ¬ (sites.any fun site => site.index = index) = true) :
    fixed[index]? = classes[index]? := by
  cases held : classes[index]? with
  | none =>
    rw [getElem?_eq_none_iff, ← each.length_eq, length_zipIdx]
    exact getElem?_eq_none_iff.mp held
  | some entry =>
    obtain ⟨changed, found, published⟩ := exists_changed each held
    rw [publishEntry, if_neg absent] at published
    rw [found, Except.ok.inj published]

end repaired

theorem exists_fixed (opened : Opened classes files) (names : List String) (sites : List AccessSite) :
    ∃ fixed, Forall₂ (fun item changed => publishEntry (tableOf files names) sites item.1 item.2 = .ok changed)
      classes.zipIdx fixed := by
  refine ⟨classes.zipIdx.map fun item =>
    ((publishEntry (tableOf files names) sites item.1 item.2).toOption).getD item.1, ?_⟩
  rw [forall₂_map_right_iff, forall₂_same]
  intro item listed
  have held := mem_zipIdx_iff_getElem?.mp listed
  obtain ⟨file, fileHeld⟩ := forall₂_exists_getElem? opened held
  obtain ⟨changed, published, _⟩ := exists_publishEntry (forall₂_getElem? opened held fileHeld) fileHeld
  rw [published]
  rfl

theorem nodup_eraseDups (indices : List Nat) : indices.eraseDups.Nodup := by
  generalize length : indices.length = least
  induction least using Nat.strong_induction_on generalizing indices with
  | h least ih =>
    cases indices with
    | nil => exact nodup_nil
    | cons index others =>
      rw [eraseDups_cons, nodup_cons, mem_eraseDups]
      exact ⟨by simp, ih _ (length ▸ Nat.lt_succ_of_le (length_filter_le _ _)) _ rfl⟩

/-- As many classes change as are told by the symbols. -/
theorem countP_eq_length (inside : ∀ site ∈ sites, site.index < count) :
    (range count).countP (fun index => sites.any (·.index = index)) =
      (sites.map AccessSite.index).eraseDups.length := by
  rw [countP_eq_length_filter]
  refine ((perm_ext_iff_of_nodup (nodup_range.filter _) (nodup_eraseDups _)).mpr fun index => ?_).length_eq
  simp only [mem_filter, mem_range, any_eq_true, decide_eq_true_eq, mem_eraseDups, mem_map, and_iff_right_iff_imp]
  rintro ⟨site, listed, rfl⟩
  exact inside site listed

/-- The repair in place does what the repair does, and can fail only before it has changed a class. -/
theorem fixInPlace_eq (classes : List ClassEntry) :
    (∃ failure, fix classes = .error failure ∧ fixInPlace classes = (.error failure, classes)) ∨
      ∃ count after, fix classes = .ok (count, after) ∧ fixInPlace classes = (.ok count, after) := by
  cases read : ClassTable.read classes with
  | error failure => exact .inl ⟨failure, by rw [fix, read]; rfl, by rw [fixInPlace, read]; rfl⟩
  | ok table =>
    obtain ⟨files, names, opened, areNames, rfl⟩ := read_eq_ok.mp read
    cases run : (tableOf files names).sites with
    | error failure =>
      refine .inl ⟨failure, ?_, ?_⟩
      · simp only [fix, read, bind, Except.bind, run]
      · simp only [fixInPlace, read, bind, Except.bind, run]
    | ok sites =>
      obtain ⟨fixed, each⟩ := exists_fixed opened names sites
      obtain ⟨after, written, spec⟩ :=
        writeBack_eq each (sites.map AccessSite.index).eraseDups fun _ => .inl rfl
      have same : after = fixed := by
        refine ext_getElem? fun place => ?_
        rw [spec, ite_eq_left_iff]
        intro unlisted
        exact (getElem?_of_absent each (by simpa using unlisted)).symm
      refine .inr ⟨_, fixed, fix_eq_ok.mpr ⟨files, names, sites, opened, areNames, run, rfl, each⟩, ?_⟩
      have inside : ∀ site ∈ sites, site.index < classes.length := by
        intro site listed
        obtain ⟨⟨flags, flagged, _⟩, _⟩ := (mem_sites areNames run).mp listed
        rw [Forall₂.length_eq opened]
        exact index_lt_length flagged
      rw [countP_eq_length inside, ← same]
      simp only [fixInPlace, read, bind, Except.bind, run, pure, Except.pure, written]
      rfl

/-- Flags that limited a symbol to its package may have become public. -/
def WidenedFlags (before after : UInt16) : Prop := after = before ∨ PackageOnly before ∧ after = before ||| 0x0001

/-- The members are the same but for widened flags. -/
def WidenedMember (before after : Member) : Prop :=
  after = { before with access := after.access } ∧ WidenedFlags before.access after.access

/-- The class files are the same but for widened flags. -/
structure WidenedClass (before after : ClassFile) : Prop where
  others : after = { before with
    pool := after.pool, access := after.access, fields := after.fields, methods := after.methods }
  pool : after.pool.slots = before.pool.slots
  access : WidenedFlags before.access after.access
  fields : Forall₂ WidenedMember before.fields after.fields
  methods : Forall₂ WidenedMember before.methods after.methods

/-- The entries are the same but for widened flags in the class. -/
structure WidenedEntry (before after : ClassEntry) : Prop where
  path : after.path = before.path
  modified : after.modified = before.modified
  length : after.bytes.length = before.bytes.length
  widened : ∃ file changed, read before.bytes = .ok file ∧ read after.bytes = .ok changed ∧
    WidenedClass file changed ∧
    (changed.access = file.access → changed.fields = file.fields → changed.methods = file.methods →
      after.bytes = before.bytes)

theorem WidenedClass.bytes_eq {changed : ClassFile} {written : Bytes} (widened : WidenedClass file changed)
    (parsed : read bytes = .ok file) (reparsed : read written = .ok changed)
    (access : changed.access = file.access) (fields : changed.fields = file.fields)
    (methods : changed.methods = file.methods) : written = bytes := by
  have pool : changed.pool.toBytes = file.pool.toBytes := by
    rw [ConstantPool.toBytes, ConstantPool.toBytes, ConstantPool.count, ConstantPool.count, widened.pool]
  have same : changed.toBytes = file.toBytes := by
    rw [widened.others, access, fields, methods, toBytes, toBytes, pool]
  rw [toBytes_of_read parsed, toBytes_of_read reparsed] at same
  exact Except.ok.inj same

section sites

variable (limited : ∀ site ∈ sites, IsLimited files site)
include limited

theorem widenedFlags_apply {site : AccessSite} {flags : UInt16} (flagged : flagsAt files site = some flags) :
    WidenedFlags flags (if sites.contains site then AccessTransform.publish.apply flags else flags) := by
  split
  case isFalse => exact .inl rfl
  case isTrue listed =>
    obtain ⟨_, flaggedToo, packageOnly⟩ := limited site (by simpa using listed)
    obtain rfl := Option.mem_unique flagged flaggedToo
    exact .inr ⟨packageOnly, packageOnly.apply_publish⟩

theorem widenedMembers_publish (held : files[index]? = some file) (kind : MemberKind) :
    Forall₂ WidenedMember (membersOf file kind)
      (publishMembers (membersOf file kind) fun position => sites.contains (.ofMember kind index position)) := by
  refine forall₂_publishMembers fun member position found => ?_
  have flags := widenedFlags_apply limited (show flagsAt files (.ofMember kind index position) = some member.access by
    simp [flagsAt, held, found])
  revert flags
  split <;> exact fun flags => ⟨rfl, flags⟩

theorem widenedEntry_publish (parsed : read entry.bytes = .ok file) (held : files[index]? = some file)
    (published : publishEntry (tableOf files names) sites entry index = .ok changed) : WidenedEntry entry changed := by
  obtain ⟨_, publishedToo, length⟩ := exists_publishEntry parsed held
  obtain rfl := Outcome.unique published publishedToo
  obtain ⟨path, modified, pool, reparsed, slots⟩ := read_publishEntry parsed held published
  have widened : WidenedClass file { publish file index sites with pool } :=
    ⟨rfl, slots, widenedFlags_apply limited (by simp [flagsAt, held]), widenedMembers_publish limited held .field,
      widenedMembers_publish limited held .method⟩
  exact ⟨path, modified, length, file, _, parsed, reparsed, widened, widened.bytes_eq parsed reparsed⟩

end sites

/-- The repair of package access changes nothing but visibility, and nothing at all if it fails.

The entries keep their number, order, paths and times. Where a symbol is widened, the class is the same but for flags
that limited a symbol to its package and are public now, and takes as many bytes; all others keep their bytes. -/
theorem fix_widens_only (classes : List ClassEntry) :
    (∀ failure, fix classes = .error failure → fixInPlace classes = (.error failure, classes)) ∧
    ∀ count after, fix classes = .ok (count, after) →
      fixInPlace classes = (.ok count, after) ∧ List.Forall₂ WidenedEntry classes after := by
  rcases fixInPlace_eq classes with ⟨failure, failed, unchanged⟩ | ⟨count, after, done, written⟩
  · refine ⟨fun _ failedToo => ?_, fun _ _ done => ?_⟩
    · obtain rfl := Except.error.inj (failed.symm.trans failedToo)
      exact unchanged
    · cases failed.symm.trans done
  · refine ⟨fun _ failed => ?_, fun _ _ doneToo => ?_⟩
    · cases done.symm.trans failed
    · cases Except.ok.inj (done.symm.trans doneToo)
      refine ⟨written, ?_⟩
      obtain ⟨files, names, sites, opened, areNames, run, _, each⟩ := fix_eq_ok.mp done
      have limited : ∀ site ∈ sites, IsLimited files site := fun site listed => ((mem_sites areNames run).mp listed).1
      exact forall₂_of_published opened each fun _ _ _ _ parsed held published =>
        widenedEntry_publish limited parsed held published

theorem fix_widens_only_circular : fixInPlace (circularClasses 0) = (.ok 1, circularClasses 1) ∧
    Forall₂ WidenedEntry (circularClasses 0) (circularClasses 1) :=
  (fix_widens_only (circularClasses 0)).2 1 (circularClasses 1) (by decide +kernel)

end PackageAccess

end JarRemap
