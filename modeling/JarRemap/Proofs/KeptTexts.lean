import JarRemap.Proofs.PoolHistories
import JarRemap.Proofs.PoolRemapping

/-!
# Texts that a pool gives back

Putting never touches a slot that is there, and replacing touches one. So a text stays until its own slot is
replaced, and a class or a pair of name and descriptor until its slot or one that it refers to is. As long as a slot
gives back what was put there, nothing else is given the same slot.
-/
namespace JarRemap

open Constant

def Constant.references : Constant → List UInt16
  | .utf8 _ | .integer _ | .float _ | .long _ | .double _ => []
  | .classRef index | .string index | .methodType index | .moduleRef index | .packageRef index
  | .methodHandle _ index | .dynamic _ index | .invokeDynamic _ index => [index]
  | .fieldRef owner pair | .methodRef owner pair | .interfaceMethodRef owner pair => [owner, pair]
  | .nameAndType name descriptor => [name, descriptor]

/-- The operation replaces none of these slots. -/
def PoolEdit.Spares (kept : List UInt16) : PoolEdit → Prop
  | .replace index _ => index ∉ kept
  | _ => True

theorem PoolM.gives_of_toOption {α : Type} {act : PoolM α} {pool : ConstantPool} {value : α}
    (ran : (act pool).1.toOption = some value) : act.Gives pool value (act pool).2 := by
  rcases run : act pool with ⟨failure | result, after⟩
  · simp [run, Except.toOption] at ran
  · obtain rfl : result = value := by simpa [run, Except.toOption] using ran
    exact run

namespace ConstantPool

variable {pool after later : ConstantPool} {constant : Constant} {index slot : UInt16} {kept : List UInt16}
  {spelled name descriptor : String}

/-- The second pool comes from the first one by operations that replace none of these slots. There may be any
number of them, and some may fail. -/
def Sparing (kept : List UInt16) (pool later : ConstantPool) : Prop :=
  ∃ edits : List PoolEdit, (∀ edit ∈ edits, edit.Spares kept) ∧ edits.foldl PoolEdit.apply pool = later

/-- What these slots hold in the first pool, they hold in the second one. -/
def KeepsAt (kept : List UInt16) (pool later : ConstantPool) : Prop :=
  ∀ index ∈ kept, ∀ constant, pool.constant? index = some constant → later.constant? index = some constant

theorem KeepsAt.refl : KeepsAt kept pool pool := fun _ _ _ held => held

theorem KeepsAt.trans (first : KeepsAt kept pool after) (second : KeepsAt kept after later) : KeepsAt kept pool later :=
  fun index listed constant held => second index listed constant (first index listed constant held)

theorem put_keepsAt (given : (put constant).Gives pool index after) : KeepsAt kept pool after := by
  intro index _ constant held
  rcases put_cases given with ⟨-, rfl⟩ | ⟨-, -, rfl⟩
  · exact held
  · exact constant?_of_append (toList_appendSlots _ _) held

theorem keepsAt_of_puts (run : Relation.ReflTransGen PutsTo pool after) : KeepsAt kept pool after :=
  keeps_of_puts (fun keeps given => keeps.trans (put_keepsAt given)) run .refl

theorem keepsAt_apply {edit : PoolEdit} (spares : edit.Spares kept) : KeepsAt kept pool (edit.apply pool) := by
  rcases edit.apply_cases pool with puts | ⟨replaced, new, rfl, given⟩
  · exact keepsAt_of_puts puts
  · intro index listed constant held
    have different : replaced ≠ index := by
      rintro rfl
      exact spares listed
    rw [replace_others given different, held]

theorem Sparing.keepsAt (sparing : Sparing kept pool later) : KeepsAt kept pool later := by
  obtain ⟨edits, spare, rfl⟩ := sparing
  induction edits generalizing pool with
  | nil => exact .refl
  | cons edit edits ih =>
    obtain ⟨here, others⟩ := List.forall_mem_cons.mp spare
    exact (keepsAt_apply here).trans (ih others)

/-- The register stays right whatever is put or replaced, also in a pool that is not laid out. -/
theorem registered_history (registered : pool.Registered) (edits : List PoolEdit) :
    (edits.foldl PoolEdit.apply pool).Registered := by
  induction edits generalizing pool with
  | nil => exact registered
  | cons edit edits ih => exact ih (edit.apply_keeps put_registered replace_registered registered)

theorem Sparing.registered (sparing : Sparing kept pool later) (registered : pool.Registered) :
    later.Registered := by
  obtain ⟨edits, -, rfl⟩ := sparing
  exact registered_history registered edits

def involved (pool : ConstantPool) (index : UInt16) : List UInt16 :=
  index :: (pool.constant? index).elim [] references

theorem involved_of_held (held : pool.constant? index = some constant) :
    pool.involved index = index :: constant.references := by
  simp [involved, held]

theorem KeepsAt.text (keeps : KeepsAt kept pool later) (listed : slot ∈ kept)
    (found : pool.text slot = .ok spelled) : later.text slot = .ok spelled := by
  obtain ⟨bytes, held, decoded⟩ := text_eq_ok.mp found
  exact text_eq_ok.mpr ⟨bytes, keeps slot listed _ held, decoded⟩

theorem KeepsAt.className (keeps : KeepsAt (pool.involved index) pool later)
    (found : pool.className index = .ok name) : later.className index = .ok name := by
  obtain ⟨slot, held, named⟩ := className_eq_ok.mp found
  rw [involved_of_held held] at keeps
  exact className_eq_ok.mpr ⟨slot, keeps index (by simp) _ held, keeps.text (by simp [references]) named⟩

theorem KeepsAt.nameAndType (keeps : KeepsAt (pool.involved index) pool later)
    (found : pool.nameAndType index = .ok (name, descriptor)) : later.nameAndType index = .ok (name, descriptor) := by
  obtain ⟨nameSlot, descriptorSlot, held, named, described⟩ := nameAndType_eq_ok.mp found
  rw [involved_of_held held] at keeps
  exact nameAndType_eq_ok.mpr ⟨nameSlot, descriptorSlot, keeps index (by simp) _ held,
    keeps.text (by simp [references]) named, keeps.text (by simp [references]) described⟩

theorem putClass_resolves (registered : pool.Registered) (given : (putClass name).Gives pool index after) :
    after.className index = .ok name := by
  obtain ⟨slot, between, textGiven, given⟩ := PoolM.gives_bind.mp given
  have named : between.text slot = .ok name := putText_resolves registered textGiven
  have held := put_holds (put_registered registered textGiven) given
  exact className_eq_ok.mpr ⟨slot, held, (put_keepsAt given).text (List.mem_singleton_self slot) named⟩

section survival

variable {α : Type} {give : α → PoolM UInt16} {read : ConstantPool → UInt16 → Outcome α}
  {needs : ConstantPool → UInt16 → List UInt16}

/-- What is put is read from the slot that is given for it, right away and after any operations that spare
the slots that it needs. A different value is given a different slot then. -/
def GivesBack (give : α → PoolM UInt16) (read : ConstantPool → UInt16 → Outcome α)
    (needs : ConstantPool → UInt16 → List UInt16) (pool : ConstantPool) : Prop :=
  ∀ value index after, (give value).Gives pool index after →
    read after index = .ok value ∧
      ∀ later, Sparing (needs after index) after later →
        read later index = .ok value ∧
          ∀ other place last, (give other).Gives later place last → other ≠ value → place ≠ index

/-- It is enough to look at one pool: values are read from where they were just put, and reading depends on
the needed slots only. -/
theorem givesBack_of_steady (puts : ∀ value, (give value).Puts)
    (reads : ∀ {value pool index after}, pool.Registered → (give value).Gives pool index after →
      read after index = .ok value) (steady : ∀ {value pool index later}, KeepsAt (needs pool index) pool later →
      read pool index = .ok value → read later index = .ok value)
    (registered : pool.Registered) : GivesBack give read needs pool := by
  intro value index after given
  have found : read after index = .ok value := reads registered given
  refine ⟨found, fun later sparing => ⟨steady sparing.keepsAt found, ?_⟩⟩
  rintro other _ last givenOther different rfl
  have afterRegistered : after.Registered := by
    have kept := (puts value).keeps put_registered registered
    rwa [given] at kept
  -- In the last pool the slot would have to give back both values.
  have run : Relation.ReflTransGen PutsTo later last := by
    have run := puts other later
    rwa [givenOther] at run
  have outlasted : read last _ = .ok value := steady (sparing.keepsAt.trans (keepsAt_of_puts run)) found
  have foundOther : read last _ = .ok other := reads (sparing.registered afterRegistered) givenOther
  exact different (Outcome.unique foundOther outlasted)

/-- Texts survive in a pool with any history, whether it started without slots, started empty or was read.

A text is given back as long as its slot is not replaced, whatever else is put or replaced, and other texts
are given other slots. The name of a class and a name with its descriptor are given back in the same way, as
long as neither their slot nor one that it refers to is replaced. -/
theorem texts_survive (start : pool = .bare ∨ pool.Built) (edits : List PoolEdit) :
    GivesBack putText text (fun _ index => [index]) (edits.foldl PoolEdit.apply pool) ∧
    GivesBack putClass className involved (edits.foldl PoolEdit.apply pool) ∧
    GivesBack (fun pair : String × String => putNameAndType pair.1 pair.2) nameAndType involved
      (edits.foldl PoolEdit.apply pool) := by
  have registered : pool.Registered := by
    rcases start with rfl | built
    · intro constant index found
      simp [bare, known?] at found
    · exact built.wellFormed.registered
  have registered := registered_history registered edits
  refine ⟨?_, ?_, ?_⟩
  · exact givesBack_of_steady putText_puts putText_resolves
      (fun keeps => keeps.text (List.mem_singleton_self _)) registered
  · exact givesBack_of_steady putClass_puts putClass_resolves KeepsAt.className registered
  · exact givesBack_of_steady (fun pair => putNameAndType_puts pair.1 pair.2) putNameAndType_resolves
      KeepsAt.nameAndType registered

/-- A NUL is written with two bytes, and the last character as two surrogates. -/
def rareName : String := "a\x00𝄞"

/-- The name stands in slot 1 and its class in slot 2. -/
def rarePool : ConstantPool := (putClass rareName .empty).2

/-- One of these operations fails, and none replaces the class or its name. -/
def rareHistory : List PoolEdit :=
  [.putText "b", .replace 3 (.string 1), .replace 9 (.string 1), .putClass "b", .putText rareName]

theorem texts_survive_rareName :
    Built .empty ∧ (putClass rareName).Gives .empty 2 rarePool ∧
    Sparing (rarePool.involved 2) rarePool (rareHistory.foldl PoolEdit.apply rarePool) ∧
    (rareHistory.foldl PoolEdit.apply rarePool).className 2 = .ok rareName ∧
    ∃ place last, (putClass "b").Gives (rareHistory.foldl PoolEdit.apply rarePool) place last ∧ place ≠ 2 := by
  have facts : (putClass rareName .empty).1.toOption = some 2 ∧ rarePool.involved 2 = [2, 1] ∧
      (putClass "b" (rareHistory.foldl PoolEdit.apply rarePool)).1.toOption = some 5 := by decide +kernel
  obtain ⟨ran, involves, ranOther⟩ := facts
  have given : (putClass rareName).Gives .empty 2 rarePool := PoolM.gives_of_toOption ran
  have sparing : Sparing (rarePool.involved 2) rarePool (rareHistory.foldl PoolEdit.apply rarePool) := by
    refine ⟨rareHistory, ?_, rfl⟩
    rw [involves]
    simp [rareHistory, PoolEdit.Spares]
  obtain ⟨-, survives⟩ := (texts_survive (.inr .empty) []).2.1 rareName 2 rarePool given
  obtain ⟨found, apart⟩ := survives _ sparing
  have givenOther := PoolM.gives_of_toOption ranOther
  exact ⟨.empty, given, sparing, found, _, _, givenOther, apart "b" _ _ givenOther (by decide)⟩

end survival

end ConstantPool

end JarRemap
