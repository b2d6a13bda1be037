import JarRemap.Proofs.RenewedAttributes

/-!
# What remapping does not touch

Indices are written where indices stood, so a renewed attribute is as long as the old one. Only a body of
code can get shorter: bytes after its attribute table are dropped. All that it says besides its attributes stays,
and so does the content of every attribute that is not known to hold names.
-/
namespace JarRemap

open Reader List Member AttributeM Attribute

variable {α : Type} {name : String}

namespace RemapScope

/-- A pass through names puts slots in the place of slots. -/
theorem carrying_length (scope : RemapScope) :
    scope.Carrying (fun _ => True) fun old new => old.length = new.length := by
  have free {α : Type} {act : PoolM α} {good : α → Prop} (always : ∀ value, good value) :
      act.Keeps (fun _ => True) good := fun _ value _ _ _ => ⟨trivial, always value⟩
  constructor
  case toBlends => exact ⟨fun _ => rfl, fun same alike => by simp [same, alike]⟩
  all_goals
    intros
    exact free fun _ => by simp [u16Bytes]

theorem length_eq_of_namePass? {scope : RemapScope} {depth : Nat} {kind : AttributeKind} {pass : AttributeM Bytes}
    (passes : scope.namePass? depth kind = some pass) {pool after : ConstantPool} {info written : Bytes}
    (run : PoolM.Gives (pass info) pool (written, []) after) : written.length = info.length := by
  by_cases named : kind = .sourceFile
  · subst named
    cases passes
    simp only [mapSourceFile, gives_bind, gives_take, gives_lift, u16_eq_ok,
      gives_pure] at run
    obtain ⟨_, _, _, ⟨rfl, rfl⟩, _, _, _, ⟨-, rfl⟩, rfl, rfl, rfl⟩ := run
    simp [u16Bytes]
  · obtain ⟨-, read, rfl, same⟩ := scope.carrying_length.namePass? passes named _ _ _ _ _ trivial run
    simpa using same.symm

end RemapScope

namespace Reader

/-- How many bytes the reader takes for a value is the size of the value. -/
def Sized (reader : Reader α) (size : α → Nat) : Prop :=
  ∀ input value rest, reader input = .ok (value, rest) → input.length = size value + rest.length

variable {reader : Reader α} {size : α → Nat}

theorem timesFrom_sized (sized : reader.Sized size) {count : Nat} {seen values : List α}
    {input rest : Bytes} (taken : timesFrom seen reader count input = .ok (values, rest)) :
    ∃ more, values = seen.reverse ++ more ∧ input.length = (more.map size).sum + rest.length := by
  induction count generalizing seen input with
  | zero =>
    obtain ⟨rfl, rfl⟩ := pure_eq_ok.mp taken
    exact ⟨[], by simp, by simp⟩
  | succ count ih =>
    obtain ⟨value, left, first, others⟩ := bind_eq_ok.mp taken
    obtain ⟨more, rfl, length⟩ := ih others
    have front := sized _ _ _ first
    refine ⟨value :: more, by simp, ?_⟩
    rw [map_cons, sum_cons]
    omega

theorem list_sized (sized : reader.Sized size) : (list reader).Sized fun values => 2 + (values.map size).sum := by
  intro input values rest taken
  simp only [list, times, bind_eq_ok, u16_eq_ok] at taken
  obtain ⟨count, left, rfl, others⟩ := taken
  obtain ⟨more, rfl, length⟩ := timesFrom_sized sized others
  simp only [u16Bytes, length_append, bigEndianBytes_length]
  rw [length, Nat.add_assoc]

end Reader

theorem Attribute.read_sized : read.Sized fun item => 6 + item.info.length := by
  intro input item rest taken
  simp only [read, bind_eq_ok, u16_eq_ok, u32_eq_ok, block_eq_ok, pure_eq_ok] at taken
  obtain ⟨name, _, rfl, length, _, rfl, info, _, ⟨-, rfl⟩, rfl, rfl⟩ := taken
  simp only [u16Bytes, u32Bytes, length_append, bigEndianBytes_length]
  omega

def Member.componentSize (component : Member) : Nat :=
  4 + (2 + (component.attributes.map fun item => 6 + item.info.length).sum)

theorem Member.readComponent_sized : readComponent.Sized componentSize := by
  intro input component rest taken
  simp only [readComponent, bind_eq_ok, u16_eq_ok, pure_eq_ok] at taken
  obtain ⟨name, _, rfl, descriptor, _, rfl, attributes, left, listed, rfl, rfl⟩ := taken
  have length : _ = 2 + (attributes.map fun item => 6 + item.info.length).sum + left.length :=
    list_sized read_sized _ _ _ listed
  simp only [u16Bytes, length_append, bigEndianBytes_length, componentSize]
  omega

/-- The names of the attributes whose content is renewed. -/
def renewedNames : List String := ["Code", "Signature", "LocalVariableTable", "LocalVariableTypeTable",
  "InnerClasses", "EnclosingMethod", "RuntimeVisibleAnnotations", "RuntimeInvisibleAnnotations",
  "RuntimeVisibleParameterAnnotations", "RuntimeInvisibleParameterAnnotations", "AnnotationDefault",
  "Record", "SourceFile"]

theorem AttributeKind.ofName?_eq_none (other : name ∉ renewedNames) : ofName? name = none := by
  unfold ofName?
  split <;> simp_all [renewedNames]

namespace Attribute

/-- The attribute, or an attribute in it at any depth, is a body of code. -/
def HoldsCode (pool : ConstantPool) (item : Attribute) : Prop :=
  ∃ inner, Relation.ReflTransGen (Contains pool) item inner ∧ pool.text inner.name = .ok "Code"

theorem HoldsCode.outer {pool : ConstantPool} {outer inner : Attribute} (contains : Contains pool outer inner)
    (holds : inner.HoldsCode pool) : outer.HoldsCode pool := by
  obtain ⟨deepest, path, named⟩ := holds
  exact ⟨deepest, .head contains path, named⟩

/-- What has to stay of an attribute. The attributes of code and of record components are compared in
their own right, so only their number is told here. -/
structure Kept (old new : ConstantPool) (before after : Attribute) : Prop where
  slot : after.name = before.name
  name : ∃ name, old.text before.name = .ok name ∧ new.text after.name = .ok name
  length : ¬ before.HoldsCode old → after.info.length = before.info.length
  code : old.text before.name = .ok "Code" → ∃ body rest attributes,
    Code.reader before.info = .ok (body, rest) ∧
      Code.reader after.info = .ok ({ body with attributes }, []) ∧
      attributes.length = body.attributes.length
  record : old.text before.name = .ok "Record" → ∃ components changed,
    Reader.list readComponent before.info = .ok (components, []) ∧
      Reader.list readComponent after.info = .ok (changed, []) ∧
      Forall₂ (fun component other => other.attributes.length = component.attributes.length)
        components changed
  others : ∀ name, old.text before.name = .ok name → name ∉ renewedNames → after.info = before.info

end Attribute

/-- What has to stay of a field or a method, besides its place among the others. -/
def Member.Kept (before after : Member) : Prop :=
  after.access = before.access ∧ after.attributes.length = before.attributes.length

/-- What has to stay of a class file whose class is called `owner`. Every attribute has one in its place,
however deep it stands, and is compared with that one. -/
structure KeptFile (renamer : Renamer) (owner : String) (old new : ClassFile) : Prop where
  version : new.minor = old.minor ∧ new.major = old.major
  access : new.access = old.access
  classes : new.thisClass = old.thisClass ∧ new.superClass = old.superClass ∧
    new.interfaces = old.interfaces
  fields : Forall₂ (fun before after => before.Kept after ∧
    RemappedMember renamer old.pool new.pool (renamer.mapField owner) before after) old.fields new.fields
  methods : Forall₂ (fun before after => before.Kept after ∧
    RemappedMember renamer old.pool new.pool (declaredMethodName renamer owner) before after)
    old.methods new.methods
  attributes : new.attributes.length = old.attributes.length
  places : ∀ item ∈ old.allAttributes, ∀ before,
    Relation.ReflTransGen (Contains old.pool) item before →
    ∃ after, SamePlace old new before after
  kept : ∀ before after, SamePlace old new before after → before.Kept old.pool new.pool after

namespace RemapScope.RenewedWithin

variable {scope : RemapScope} {final : ConstantPool} {depth : Nat} {before result : Attribute}

section

variable (renewed : scope.RenewedWithin final depth before result)
include renewed

theorem slot_eq : result.name = before.name := by
  cases renewed
  rfl

theorem name_eq : ∃ name, scope.old.text before.name = .ok name ∧ final.text result.name = .ok name := by
  obtain ⟨named, progress, given, grown⟩ := renewed
  have later := (scope.mapInfo_grows _ _ _ _ _ _ given).trans grown
  exact ⟨_, named, later.keepsNames.text (progress.keeps.text named)⟩

/-- An attribute without code is as long as before. A record is as long as its components, so the
induction is on the depth to which attributes stand in each other. -/
theorem length_eq (codeless : ¬ before.HoldsCode scope.old) : result.info.length = before.info.length := by
  induction depth generalizing before result with
  | zero =>
    obtain ⟨name, named, -⟩ := renewed.name_eq
    obtain ⟨fuel, _, _, _, impossible, -⟩ := renewed.renewal named
    omega
  | succ fuel ih =>
    obtain ⟨name, named, -⟩ := renewed.name_eq
    obtain ⟨_, pool, after, answer, -, -, renewal, -, same⟩ := renewed.renewal named
    cases renewal with
    | kept => rw [same, Option.getD_none]
    | names holds passes run =>
      rw [same, Option.getD_some, length_eq_of_namePass? passes run]
    | code isCode => exact absurd ⟨before, .refl, isCode ▸ named⟩ codeless
    | record isRecord =>
      rw [isRecord] at named
      obtain ⟨less, components, changed, deeper, read, reread, renewedAll⟩ := renewed.record named
      obtain rfl : fuel = less := by omega
      have sizes : changed.map componentSize = components.map componentSize := by
        apply map_eq_of_forall₂
        refine ((forall₂_and_left components changed).mpr ⟨fun _ => id, renewedAll⟩).imp ?_
        rintro component other ⟨listed, inner⟩
        unfold componentSize
        rw [map_eq_of_forall₂]
        refine ((forall₂_and_left _ _).mpr ⟨fun _ => id, inner⟩).imp ?_
        rintro item after ⟨attached, renewed⟩
        have free : ¬ item.HoldsCode scope.old :=
          fun holds => codeless (holds.outer (.record named read listed attached))
        rw [ih renewed free]
      have oldLength : _ = 2 + (components.map componentSize).sum + 0 := list_sized readComponent_sized _ _ _ read
      have newLength : _ = 2 + (changed.map componentSize).sum + 0 := list_sized readComponent_sized _ _ _ reread
      rw [oldLength, newLength, sizes]

theorem info_eq (named : scope.old.text before.name = .ok name) (other : name ∉ renewedNames) :
    result.info = before.info := by
  obtain ⟨_, pool, after, answer, -, -, renewal, -, rfl⟩ := renewed.renewal named
  cases renewal with
  | kept => rfl
  | names holds passes run => simp [AttributeKind.ofName?_eq_none other] at holds
  | code isCode => simp [isCode, renewedNames] at other
  | record isRecord => simp [isRecord, renewedNames] at other

theorem kept : before.Kept scope.old final result where
  slot := renewed.slot_eq
  name := renewed.name_eq
  length := renewed.length_eq
  code named := by
    obtain ⟨_, body, rest, attributes, -, read, reread, inner⟩ := renewed.code named
    exact ⟨body, rest, attributes, read, reread, inner.length_eq.symm⟩
  record named := by
    obtain ⟨_, components, changed, -, read, reread, inner⟩ := renewed.record named
    exact ⟨components, changed, read, reread, inner.imp fun _ _ related => related.length_eq.symm⟩
  others _ := renewed.info_eq

end

end RemapScope.RenewedWithin

section remapClass

variable {renamer : Renamer} {options : RemapOptions} {bytes : Bytes} {out : RemappedClass}

/-- What remapping must not touch stays put.

The version, the flags and the indices of the classes are the same. Fields, methods and attributes keep
their order and number, members their flags. Every attribute, whether it stands in the class, in a member,
in a body of code or in a record component, has one in its place that keeps the slot and the text of its
name and what has to stay of its content. -/
theorem remapClass_keeps (remapped : remapClass renamer options bytes = .ok out) :
    ∃ old new, ClassFile.read bytes = .ok old ∧ ClassFile.read out.bytes = .ok new ∧
      KeptFile renamer out.oldName old new := by
  obtain ⟨old, new, bootstraps, parsed, reparsed, -, file, renewed⟩ := remapClass_renewed remapped
  refine ⟨old, new, parsed, reparsed, file.version, file.access, file.classes, ?_, ?_,
    renewed.attributes.length_eq.symm, ?_, ?_⟩
  · refine file.fields.mp ?_ renewed.fields
    intro before after member attributes
    exact ⟨⟨member.1, attributes.length_eq.symm⟩, member⟩
  · refine file.methods.mp ?_ renewed.methods
    intro before after member attributes
    exact ⟨⟨member.1, attributes.length_eq.symm⟩, member⟩
  · intro item listed before path
    exact renewed.exists_samePlace rfl listed path
  · intro before after same
    obtain ⟨depth, inner⟩ := renewed.renewed rfl same
    exact inner.kept

/-- The class `A` with a method whose body has a table of local variables and a byte after its attributes,
a record component with a signature, and an attribute of which nothing is known. -/
def layeredClass : Bytes := [0xca,0xfe,0xba,0xbe,0,0,0,52,0,13,1,0,1,65,7,0,1,1,0,1,102,1,0,5,40,41,
  76,65,59,1,0,4,67,111,100,101,1,0,18,76,111,99,97,108,86,97,114,105,97,98,108,101,84,97,98,108,
  101,1,0,4,116,104,105,115,1,0,3,76,65,59,1,0,6,82,101,99,111,114,100,1,0,1,120,1,0,9,83,105,103,
  110,97,116,117,114,101,1,0,6,67,117,115,116,111,109,0,0,0,2,0,0,0,0,0,0,0,1,0,1,0,3,0,4,0,1,0,5,0,
  0,0,33,0,1,0,1,0,0,0,2,42,176,0,0,0,1,0,6,0,0,0,12,0,1,0,0,0,2,0,7,0,8,0,0,9,0,2,0,9,0,0,0,16,0,1,
  0,10,0,8,0,1,0,11,0,0,0,2,0,8,0,12,0,0,0,3,0,8,3]

theorem remapClass_keeps_layeredClass :
    ∃ out, remapClass sampleRenamer {} layeredClass = .ok out ∧
      ∃ old new, ClassFile.read layeredClass = .ok old ∧ ClassFile.read out.bytes = .ok new ∧
        KeptFile sampleRenamer out.oldName old new := by
  obtain ⟨out, remapped⟩ : ∃ out, remapClass sampleRenamer {} layeredClass = .ok out :=
    Outcome.exists_of_isOk (by decide +kernel)
  exact ⟨out, remapped, remapClass_keeps remapped⟩

end remapClass

end JarRemap
