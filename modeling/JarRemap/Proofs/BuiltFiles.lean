import JarRemap.ClassFile.Building
import JarRemap.Proofs.PoolSteps
import JarRemap.Proofs.Reproduction

/-!
# Class files that were built

A class file is created or read, and then changed step by step, where a step may fail half way. The pool is well
formed after every history of such steps. A class file can be written unless one of its parts is longer than the
number in front of it can tell, and what is written can be read and gives back every part.
-/
namespace JarRemap

open ConstantPool List BuildM Constant

variable {pool : ConstantPool}

/-- The operations that change a pool. A member is put as the kind of reference that `refer` makes. -/
inductive PoolEdit where
  | put (constant : Constant)
  | putText (text : String)
  | putClass (name : String)
  | putString (text : String)
  | putNameAndType (name descriptor : String)
  | putMember (refer : UInt16 → UInt16 → Constant) (owner name descriptor : String)
  | replace (index : UInt16) (new : Constant)

/-- The pool after an operation, whether it succeeded or failed. -/
def PoolEdit.apply (pool : ConstantPool) : PoolEdit → ConstantPool
  | .put constant => (ConstantPool.put constant pool).2
  | .putText text => (ConstantPool.putText text pool).2
  | .putClass name => (ConstantPool.putClass name pool).2
  | .putString text => (ConstantPool.putString text pool).2
  | .putNameAndType name descriptor => (ConstantPool.putNameAndType name descriptor pool).2
  | .putMember refer owner name descriptor => (ConstantPool.putMember refer owner name descriptor pool).2
  | .replace index new => (ConstantPool.replace index new pool).2

/-- The changes of a class file. Its numbers can be assigned, and so can its lists: whoever holds a member
can change its flags, its indices and its attributes. -/
inductive ClassEdit where
  | onPool (edit : PoolEdit)
  | addInterface (name : String)
  | addField (access : UInt16) (name descriptor : String)
  | addMethod (access : UInt16) (name descriptor : String)
  | addAttribute (name : String) (info : Bytes)
  | assignNumbers (minor major access thisClass superClass : UInt16)
  | assignLists (interfaces : List UInt16) (fields methods : List Member) (attributes : List Attribute)

def ClassEdit.apply (file : ClassFile) : ClassEdit → ClassFile
  | .onPool edit => { file with pool := edit.apply file.pool }
  | .addInterface name => (ClassFile.addInterface name file).2
  | .addField access name descriptor => (ClassFile.addField access name descriptor file).2
  | .addMethod access name descriptor => (ClassFile.addMethod access name descriptor file).2
  | .addAttribute name info => (ClassFile.addAttribute name info file).2
  | .assignNumbers minor major access thisClass superClass =>
    { file with minor, major, access, thisClass, superClass }
  | .assignLists interfaces fields methods attributes =>
    { file with interfaces, fields, methods, attributes }

namespace ClassFile

/-- The class file was created or read, and changed any number of times since. -/
inductive Built : ClassFile → Prop
  | created {major access : UInt16} {name : String} {superName : Option String} {file : ClassFile}
    (created : create major access name superName = .ok file) : Built file
  | read {bytes : Bytes} {file : ClassFile} (parsed : read bytes = .ok file) : Built file
  | edited {file : ClassFile} (built : Built file) (edit : ClassEdit) : Built (edit.apply file)

theorem Built.history {file : ClassFile} (built : file.Built) (edits : List ClassEdit) :
    (edits.foldl ClassEdit.apply file).Built := by
  induction edits generalizing file with
  | nil => exact built
  | cons edit edits ih => exact ih (built.edited edit)

/-- A part of the class file is longer than the number that is written in front of it can tell. -/
inductive Oversized (file : ClassFile) : Prop
  | text {index : UInt16} {bytes : Bytes} (held : file.pool.constant? index = some (.utf8 bytes))
    (long : 65535 < bytes.length)
  | interfaces (long : 65535 < file.interfaces.length)
  | fields (long : 65535 < file.fields.length)
  | methods (long : 65535 < file.methods.length)
  | attributes (long : 65535 < file.attributes.length)
  | memberAttributes {member : Member} (listed : member ∈ file.fields ++ file.methods)
    (long : 65535 < member.attributes.length)
  | info {item : Attribute} (listed : item ∈ file.allAttributes) (long : 4294967295 < item.info.length)

end ClassFile

section invariant

variable {α β : Type}

theorem ConstantPool.empty_wellFormed : empty.WellFormed := by
  refine ⟨⟨[], rfl⟩, by decide, ?_⟩
  intro constant index found
  simp [known?, empty] at found

open ConstantPool in
/-- An operation on a pool puts constants one after another, or it replaces one and succeeds. -/
theorem PoolEdit.apply_cases (edit : PoolEdit) (pool : ConstantPool) :
    Relation.ReflTransGen PutsTo pool (edit.apply pool) ∨ ∃ index new, edit = .replace index new ∧
        (ConstantPool.replace index new).Gives pool () (edit.apply pool) := by
  cases edit with
  | put constant => exact .inl (put_puts constant pool)
  | putText text => exact .inl (putText_puts text pool)
  | putClass name => exact .inl (putClass_puts name pool)
  | putString text => exact .inl (putString_puts text pool)
  | putNameAndType name descriptor => exact .inl (putNameAndType_puts name descriptor pool)
  | putMember refer owner name descriptor => exact .inl (putMember_puts refer owner name descriptor pool)
  | replace index new =>
    rw [apply]
    rcases ran : ConstantPool.replace index new pool with ⟨failure | _, after⟩
    · rw [replace_failed ran]
      exact .inl .refl
    · exact .inr ⟨index, new, rfl, ran⟩

open ConstantPool in
/-- What a successful put and a successful replacement keep is kept by every operation, also if it fails. -/
theorem PoolEdit.apply_keeps {Holds : ConstantPool → Prop}
    (putKeeps : ∀ {pool constant index after},
      Holds pool → (ConstantPool.put constant).Gives pool index after → Holds after)
    (replaceKeeps : ∀ {pool new index after},
      Holds pool → (ConstantPool.replace index new).Gives pool () after → Holds after)
    (edit : PoolEdit) (start : Holds pool) : Holds (edit.apply pool) := by
  rcases edit.apply_cases pool with puts | ⟨index, new, -, given⟩
  · exact keeps_of_puts putKeeps puts start
  · exact replaceKeeps start given

/-- A step that starts with the pool and leaves it alone afterwards leaves the pool of its start, also if
it ends there. -/
theorem BuildM.pool_onPool_bind {act : PoolM α} {next : α → BuildM β}
    (keeps : ∀ value file, (next value file).2.pool = file.pool) (file : ClassFile) :
    ((onPool act >>= next) file).2.pool = (act file.pool).2 := by
  change (ExceptT.bindCont (m := StateM ClassFile) next (act file.pool).1
    { file with pool := (act file.pool).2 }).2.pool = _
  cases (act file.pool).1 with
  | error failure => rfl
  | ok value => exact keeps value _

namespace ClassFile

variable {file : ClassFile}

theorem create_wellFormed {major access : UInt16} {name : String} {superName : Option String}
    (created : create major access name superName = .ok file) : file.pool.WellFormed := by
  unfold create at created
  extract_lets slots at created
  have puts : slots.Puts := .bind (putClass_puts name) fun _ => .bind (putClass_puts _) fun _ => .pure _
  have filled : (slots ConstantPool.empty).2.WellFormed := puts.keeps put_wellFormed empty_wellFormed
  generalize slots ConstantPool.empty = run at created filled
  obtain ⟨outcome, pool⟩ := run
  cases outcome with
  | error failure => cases created
  | ok places =>
    cases created
    exact filled

open ConstantPool in
theorem edit_wellFormed (edit : ClassEdit) (wellFormed : file.pool.WellFormed) : (edit.apply file).pool.WellFormed := by
  have member (access : UInt16) (name descriptor : String) : (Member.create access name descriptor).Puts :=
    .bind (putText_puts name) fun _ => .bind (putText_puts descriptor) fun _ => .pure _
  cases edit with
  | onPool edit => exact edit.apply_keeps put_wellFormed replace_wellFormed wellFormed
  | addInterface name =>
    change ((addInterface name) file).2.pool.WellFormed
    rw [addInterface, pool_onPool_bind fun _ _ => rfl]
    exact (putClass_puts name).keeps put_wellFormed wellFormed
  | addField access name descriptor =>
    change ((addField access name descriptor) file).2.pool.WellFormed
    rw [addField, pool_onPool_bind fun _ _ => rfl]
    exact (member access name descriptor).keeps put_wellFormed wellFormed
  | addMethod access name descriptor =>
    change ((addMethod access name descriptor) file).2.pool.WellFormed
    rw [addMethod, pool_onPool_bind fun _ _ => rfl]
    exact (member access name descriptor).keeps put_wellFormed wellFormed
  | addAttribute name info =>
    change ((addAttribute name info) file).2.pool.WellFormed
    rw [addAttribute, pool_onPool_bind fun _ _ => rfl]
    exact (putText_puts name).keeps put_wellFormed wellFormed
  | assignNumbers | assignLists => exact wellFormed

theorem Built.wellFormed (built : file.Built) : file.pool.WellFormed := by
  induction built with
  | created created => exact create_wellFormed created
  | read parsed => exact read_wellFormed parsed
  | edited built edit ih => exact edit_wellFormed edit ih

end ClassFile

end invariant

section writing

variable {α β : Type} {constant : Constant}

def Outcome.Succeeds (outcome : Outcome α) : Prop := ∃ result, outcome = .ok result

namespace Outcome

theorem not_succeeds {outcome : Outcome α} : ¬ outcome.Succeeds ↔ ∃ failure, outcome = .error failure := by
  cases outcome <;> simp [Succeeds]

@[simp] theorem succeeds_ok (value : α) : Succeeds (.ok value) := ⟨value, rfl⟩

@[simp] theorem succeeds_pure (value : α) : Succeeds (pure value) := ⟨value, rfl⟩

/-- Two steps succeed together if the success of the second does not depend on what the first gives. -/
theorem succeeds_bind {first : Outcome α} {next : α → Outcome β} {Fits : Prop}
    (independent : ∀ value, (next value).Succeeds ↔ Fits) : (first >>= next).Succeeds ↔ first.Succeeds ∧ Fits := by
  constructor
  · rintro ⟨result, given⟩
    obtain ⟨value, start, finish⟩ := bind_eq_ok.mp given
    exact ⟨⟨value, start⟩, (independent value).mp ⟨result, finish⟩⟩
  · rintro ⟨⟨value, start⟩, fits⟩
    obtain ⟨result, finish⟩ := (independent value).mpr fits
    exact ⟨result, bind_eq_ok.mpr ⟨value, start, finish⟩⟩

end Outcome

open Outcome

theorem lengthBytes16_succeeds {length : Nat} : (lengthBytes16 length).Succeeds ↔ length ≤ 65535 := by
  unfold lengthBytes16
  split <;> simp [Succeeds] <;> omega

theorem lengthBytes32_succeeds {length : Nat} : (lengthBytes32 length).Succeeds ↔ length ≤ 4294967295 := by
  unfold lengthBytes32
  split <;> simp [Succeeds] <;> omega

section lists

variable {write : α → Outcome Bytes} {elements : List α}

theorem concatBytes_succeeds :
    (concatBytes write elements).Succeeds ↔ ∀ element ∈ elements, (write element).Succeeds := by
  induction elements with
  | nil => simp
  | cons first others ih =>
    rw [forall_mem_cons, ← ih]
    constructor
    · rintro ⟨bytes, written⟩
      obtain ⟨front, back, start, finish, -⟩ := concatBytes_cons_eq_ok.mp written
      exact ⟨⟨front, start⟩, back, finish⟩
    · rintro ⟨⟨front, start⟩, back, finish⟩
      exact ⟨front ++ back, concatBytes_cons_eq_ok.mpr ⟨front, back, start, finish, rfl⟩⟩

theorem listBytes_succeeds : (listBytes write elements).Succeeds ↔
      elements.length ≤ 65535 ∧ ∀ element ∈ elements, (write element).Succeeds := by
  unfold listBytes
  rw [succeeds_bind fun _ => succeeds_bind fun _ => iff_true_intro (succeeds_pure _),
    lengthBytes16_succeeds, concatBytes_succeeds, and_true]

end lists

theorem Constant.toBytes_succeeds :
    constant.toBytes.Succeeds ↔ ∀ bytes, constant = .utf8 bytes → bytes.length ≤ 65535 := by
  rw [toBytes, succeeds_bind fun _ => iff_true_intro (succeeds_pure _), and_true]
  cases constant with
  | utf8 bytes =>
    rw [bodyBytes, succeeds_bind fun _ => iff_true_intro (succeeds_pure _), lengthBytes16_succeeds, and_true]
    simp
  | _ => simp [bodyBytes]

theorem Attribute.toBytes_succeeds {item : Attribute} : item.toBytes.Succeeds ↔ item.info.length ≤ 4294967295 := by
  rw [Attribute.toBytes, succeeds_bind fun _ => iff_true_intro (succeeds_pure _), lengthBytes32_succeeds, and_true]

theorem Member.toBytes_succeeds {member : Member} : member.toBytes.Succeeds ↔
      member.attributes.length ≤ 65535 ∧ ∀ item ∈ member.attributes, item.info.length ≤ 4294967295 := by
  rw [Member.toBytes, succeeds_bind fun _ => iff_true_intro (succeeds_pure _), listBytes_succeeds, and_true]
  simp only [Attribute.toBytes_succeeds]

namespace ConstantPool

theorem mem_written (bounded : pool.count ≤ 65535) :
    constant ∈ pool.slots.toList.filterMap id ↔ ∃ index, pool.constant? index = some constant := by
  rw [mem_filterMap]
  simp only [id_eq, exists_eq_right]
  rw [mem_iff_getElem?]
  simp only [constant?_eq_some]
  constructor
  · rintro ⟨place, held⟩
    obtain ⟨inside, -⟩ := List.getElem?_eq_some_iff.mp held
    have small : place < 65536 := by
      rw [Array.length_toList, ← count] at inside
      omega
    exact ⟨place.toUInt16, by simpa [Nat.toUInt16, Nat.mod_eq_of_lt small] using held⟩
  · rintro ⟨index, held⟩
    exact ⟨index.toNat, held⟩

/-- A well-formed pool can be written unless it holds a long text. Its own length always fits. -/
theorem toBytes_succeeds (wellFormed : pool.WellFormed) : pool.toBytes.Succeeds ↔
      ∀ index bytes, pool.constant? index = some (.utf8 bytes) → bytes.length ≤ 65535 := by
  rw [toBytes, succeeds_bind fun _ => succeeds_bind fun _ => iff_true_intro (succeeds_pure _),
    lengthBytes16_succeeds, concatBytes_succeeds, and_true]
  simp only [wellFormed.bounded, true_and, Constant.toBytes_succeeds, mem_written wellFormed.bounded]
  constructor
  · intro short index bytes held
    exact short _ ⟨index, held⟩ bytes rfl
  · rintro short _ ⟨index, held⟩ bytes rfl
    exact short index bytes held

end ConstantPool

namespace ClassFile

variable {file : ClassFile}

theorem toBytes_succeeds (wellFormed : file.pool.WellFormed) : file.toBytes.Succeeds ↔
      (∀ index bytes, file.pool.constant? index = some (.utf8 bytes) → bytes.length ≤ 65535) ∧
      file.interfaces.length ≤ 65535 ∧ (file.fields.length ≤ 65535 ∧ ∀ member ∈ file.fields, member.toBytes.Succeeds) ∧
      (file.methods.length ≤ 65535 ∧ ∀ member ∈ file.methods, member.toBytes.Succeeds) ∧
      file.attributes.length ≤ 65535 ∧ ∀ item ∈ file.attributes, item.info.length ≤ 4294967295 := by
  rw [toBytes, succeeds_bind fun _ => succeeds_bind fun _ => succeeds_bind fun _ => succeeds_bind fun _ =>
    succeeds_bind fun _ => iff_true_intro (succeeds_pure _)]
  simp only [ConstantPool.toBytes_succeeds wellFormed, listBytes_succeeds, Attribute.toBytes_succeeds,
    succeeds_ok, implies_true, and_true]

/-- A class file with a well-formed pool can be written exactly if no part of it is oversized. -/
theorem toBytes_succeeds_iff (wellFormed : file.pool.WellFormed) : file.toBytes.Succeeds ↔ ¬ file.Oversized := by
  rw [toBytes_succeeds wellFormed]
  simp only [Member.toBytes_succeeds]
  constructor
  · rintro ⟨texts, interfaces, ⟨fields, ofFields⟩, ⟨methods, ofMethods⟩, attributes, infos⟩ oversized
    cases oversized with
    | text held long => exact absurd (texts _ _ held) (by omega)
    | interfaces long | fields long | methods long | attributes long => omega
    | memberAttributes listed long =>
      rcases mem_append.mp listed with listed | listed
      · exact absurd (ofFields _ listed).1 (by omega)
      · exact absurd (ofMethods _ listed).1 (by omega)
    | @info item listed long =>
      have short : item.info.length ≤ 4294967295 := by
        simp only [allAttributes, mem_append, mem_flatMap] at listed
        rcases listed with (listed | ⟨member, listed, attached⟩) | ⟨member, listed, attached⟩
        · exact infos item listed
        · exact (ofFields member listed).2 item attached
        · exact (ofMethods member listed).2 item attached
      omega
  · intro fits
    have ofMember {member : Member} (listed : member ∈ file.fields ++ file.methods) :
        member.attributes.length ≤ 65535 ∧ ∀ item ∈ member.attributes, item.info.length ≤ 4294967295 := by
      refine ⟨Nat.le_of_not_lt fun long => fits (.memberAttributes listed long), ?_⟩
      intro item attached
      refine Nat.le_of_not_lt fun long => fits (.info ?_ long)
      simp only [allAttributes, mem_append, mem_flatMap]
      rcases mem_append.mp listed with listed | listed
      · exact .inl (.inr ⟨member, listed, attached⟩)
      · exact .inr ⟨member, listed, attached⟩
    refine ⟨?_, ?_, ⟨?_, ?_⟩, ⟨?_, ?_⟩, ?_, ?_⟩
    · exact fun index bytes held => Nat.le_of_not_lt fun long => fits (.text held long)
    · exact Nat.le_of_not_lt fun long => fits (.interfaces long)
    · exact Nat.le_of_not_lt fun long => fits (.fields long)
    · exact fun member listed => ofMember (mem_append_left _ listed)
    · exact Nat.le_of_not_lt fun long => fits (.methods long)
    · exact fun member listed => ofMember (mem_append_right _ listed)
    · exact Nat.le_of_not_lt fun long => fits (.attributes long)
    · exact fun item listed => Nat.le_of_not_lt fun long => fits (.info (by simp [allAttributes, listed]) long)

/-- Everything that can be built can be written and read back.

After any history of operations, some of which may have failed, writing fails exactly if a part of the
class file is oversized. What is written is read as a class file that differs at most in the register of
its pool: the pool has as many slots, with the same constant, or none, at every index. -/
theorem toBytes_of_built (built : file.Built) :
    ((∃ failure, file.toBytes = .error failure) ↔ file.Oversized) ∧
      ∀ bytes, file.toBytes = .ok bytes →
        ∃ pool, read bytes = .ok { file with pool } ∧ pool.count = file.pool.count ∧
          ∀ index, pool.constant? index = file.pool.constant? index := by
  have wellFormed : file.pool.WellFormed := built.wellFormed
  constructor
  · rw [← not_succeeds, toBytes_succeeds_iff wellFormed, not_not]
  · intro bytes written
    obtain ⟨constants, laidOut⟩ := wellFormed.laidOut
    obtain ⟨pool, parsed, slots⟩ := read_of_toBytes laidOut written
    refine ⟨pool, parsed, ?_, fun index => ?_⟩
    · rw [ConstantPool.count, slots, ConstantPool.count]
    · rw [ConstantPool.constant?, slots, ConstantPool.constant?]

/-- Changes after which a constant of two slots stands at the end of the pool. The second one fails. -/
def wideEdits : List ClassEdit := [.addField 2 "f" "I", .onPool (.replace 0 (.long 1)),
  .onPool (.put (.long 9))]

def interfaceEdits : List ClassEdit := [.assignLists (List.replicate 65536 1) [] [] []]

theorem toBytes_of_built_wideEdits :
    ∃ start bytes, create 52 33 "A" none = .ok start ∧
      ((wideEdits.foldl ClassEdit.apply start).Built ∧
        (wideEdits.foldl ClassEdit.apply start).toBytes = .ok bytes ∧
        ∃ pool, read bytes = .ok { wideEdits.foldl ClassEdit.apply start with pool } ∧
          pool.count = (wideEdits.foldl ClassEdit.apply start).pool.count ∧
          ∀ index, pool.constant? index =
            (wideEdits.foldl ClassEdit.apply start).pool.constant? index) ∧
      (interfaceEdits.foldl ClassEdit.apply start).Built ∧
      (interfaceEdits.foldl ClassEdit.apply start).Oversized ∧
      ∃ failure, (interfaceEdits.foldl ClassEdit.apply start).toBytes = .error failure := by
  obtain ⟨bytes, run⟩ : (create 52 33 "A" none >>= fun start =>
      (wideEdits.foldl ClassEdit.apply start).toBytes).Succeeds := exists_of_isOk (by decide +kernel)
  obtain ⟨start, created, written⟩ := bind_eq_ok.mp run
  have wide : (wideEdits.foldl ClassEdit.apply start).Built := (Built.created created).history _
  have crowded : (interfaceEdits.foldl ClassEdit.apply start).Built := (Built.created created).history _
  have oversized : (interfaceEdits.foldl ClassEdit.apply start).Oversized := by
    apply Oversized.interfaces
    rw [show (interfaceEdits.foldl ClassEdit.apply start).interfaces = List.replicate 65536 1 from rfl,
      List.length_replicate]
    decide
  exact ⟨start, bytes, created, ⟨wide, written, (toBytes_of_built wide).2 bytes written⟩, crowded,
    oversized, (toBytes_of_built crowded).1.mpr oversized⟩

end ClassFile

end writing

end JarRemap
