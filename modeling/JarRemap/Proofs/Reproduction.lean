import JarRemap.Mapping.Table
import JarRemap.Proofs.Copying
import JarRemap.Proofs.RemapSteps
import JarRemap.Proofs.SteadyNames

/-!
# Remapping that changes no name

With a steady renamer every constant is replaced by itself, and every attribute is written as it was read. So the
bytes that come out are the bytes that went in, except for bytes after the attribute table of a code attribute,
which remapping drops. An attribute is tight if there are none in it, however deep.
-/
namespace JarRemap

open Reader PoolM AttributeKind Member RemapScope Code

variable {index : UInt16}

/-- Reads a component of a record, which is a field without access flags. -/
def Member.readComponent : Reader Member := do
  let name ← u16
  let descriptor ← u16
  let attributes ← list Attribute.read
  return { access := 0, name, descriptor, attributes }

/-- The bytes of a component, which has no bits for access flags. -/
def Member.componentBytes (component : Member) : Outcome Bytes :=
  if component.access = 0 then do
    let attributes ← listBytes Attribute.toBytes component.attributes
    return u16Bytes component.name ++ u16Bytes component.descriptor ++ attributes
  else Outcome.fail (.lengthTooLarge component.access.toNat 0)

theorem Member.readComponent_inverts : readComponent.Inverts componentBytes := by
  intro input component rest
  simp only [readComponent, componentBytes, bind_eq_ok, u16_eq_ok, pure_eq_ok,
    list_inverts Attribute.read_inverts _ _ _]
  constructor
  · rintro ⟨name, _, rfl, descriptor, _, rfl, attributes, _, ⟨bytes, produced, rfl⟩, rfl, rfl⟩
    exact ⟨_, by rw [if_pos rfl, produced]; rfl, by simp⟩
  · rintro ⟨bytes, written, rfl⟩
    split at written
    case isTrue flagless =>
      obtain ⟨attributes, produced, same⟩ := Outcome.bind_eq_ok.mp written
      obtain rfl := Outcome.pure_eq_ok.mp same
      refine ⟨component.name, _, by simp, component.descriptor, _, rfl, _, rest, ⟨attributes, produced, rfl⟩, ?_, rfl⟩
      rw [← flagless]
    case isFalse => cases written

namespace Attribute

variable {pool : ConstantPool}

/-- The second attribute stands in the content of the first, which is a body of code or a record. -/
inductive Contains (pool : ConstantPool) : Attribute → Attribute → Prop
  | code {outer inner : Attribute} {code : Code} {rest : Bytes}
    (named : pool.text outer.name = .ok "Code") (read : reader outer.info = .ok (code, rest))
    (member : inner ∈ code.attributes) : Contains pool outer inner
  | record {outer inner : Attribute} {component : Member} {components : List Member} {rest : Bytes}
    (named : pool.text outer.name = .ok "Record")
    (read : list readComponent outer.info = .ok (components, rest))
    (listed : component ∈ components) (member : inner ∈ component.attributes) :
    Contains pool outer inner

/-- Neither the attribute nor any attribute in it, at any depth, is a body of code with bytes after its
attribute table. -/
def Tight (pool : ConstantPool) (item : Attribute) : Prop :=
  ∀ inner, Relation.ReflTransGen (Contains pool) item inner → pool.text inner.name = .ok "Code" →
    ∀ code rest, reader inner.info = .ok (code, rest) → rest = []

theorem Tight.inner {outer inner : Attribute} (tight : outer.Tight pool)
    (contains : Contains pool outer inner) : inner.Tight pool :=
  fun deeper path => tight deeper (.head contains path)

end Attribute

def ClassFile.allAttributes (file : ClassFile) : List Attribute :=
  file.attributes ++ file.fields.flatMap Member.attributes ++ file.methods.flatMap Member.attributes

theorem ConstantPool.replace_returns {constant : Constant}
    (held : pool.constant? index = some constant) : Returns pool (replace index constant) () := by
  intro result after given
  obtain ⟨old, was, -, ⟨-, rfl⟩ | ⟨different, -⟩⟩ := replace_cases given
  · exact ⟨rfl, rfl⟩
  · exact absurd (Option.mem_unique was held) different

namespace RemapScope

variable {scope : RemapScope}

/-- Nothing in the scope asks for another name. -/
structure Steady (scope : RemapScope) : Prop where
  renamer : scope.renamer.Steady
  owner : scope.newOwner = scope.owner
  locals : scope.options.renameInvalidLocals = false

theorem keepText_returns {text : String} (read : scope.old.text index = .ok text) (pool : ConstantPool) :
    Returns pool (scope.keepText index text) index := by
  refine .lift_bind fun held found => ?_
  rw [read, Except.ok.injEq] at found
  simpa [found] using .pure index

theorem keepNameAndType_returns {name descriptor : String}
    (read : scope.old.nameAndType index = .ok (name, descriptor)) (pool : ConstantPool) :
    Returns pool (scope.keepNameAndType index name descriptor) index := by
  refine .lift_bind fun held found => ?_
  rw [read, Except.ok.injEq] at found
  simpa [← found] using .pure index

section members

variable {renew : String → Bytes → PoolM (Option Bytes)} {member changed : Member} {pool after : ConstantPool}

theorem mapFieldBy_attributes (given : (scope.mapFieldBy renew member).Gives pool changed after) :
    changed.access = member.access ∧ ∃ between, pool.Grown between ∧
      (scope.mapAttributesBy renew member.attributes).Gives between changed.attributes after := by
  simp only [mapFieldBy, gives_bind, gives_lift, gives_pure, gives_within] at given
  obtain ⟨name, _, ⟨-, rfl⟩, descriptor, _, ⟨-, rfl⟩, newName, _, ⟨-, rfl⟩, newDescriptor, _, ⟨-, rfl⟩,
    nameIndex, named, nameKept, descriptorIndex, described, descriptorKept, attributes, _, rest, rfl, rfl⟩ :=
    given
  have namedGrown : pool.Grown named := scope.keepText_grows _ _ _ _ _ nameKept
  exact ⟨rfl, described, namedGrown.trans (scope.keepText_grows _ _ _ _ _ descriptorKept), rest⟩

theorem mapRecord_rewrites : (scope.mapRecord renew).Rewrites (list readComponent)
      (List.mapM (scope.mapFieldBy renew)) := by
  refine AttributeM.Rewrites.list ?_
  intro pool input written rest after given
  simp only [AttributeM.gives_bind, AttributeM.gives_take, AttributeM.gives_lift,
    AttributeM.gives_liftOutcome, AttributeM.gives_pure, u16_eq_ok,
    list_inverts Attribute.read_inverts _ _ _] at given
  obtain ⟨name, _, _, ⟨rfl, rfl⟩, descriptor, _, _, ⟨rfl, rfl⟩, attributes, _, _,
    ⟨⟨bytes, produced, rfl⟩, rfl⟩, component, _, _, ⟨mapped, rfl⟩, reproduced, _, _, ⟨again, rfl, rfl⟩,
    rfl, rfl, rfl⟩ := given
  obtain ⟨flagless, -⟩ : component.access = 0 ∧ _ := mapFieldBy_attributes mapped
  refine ⟨{ access := 0, name, descriptor, attributes }, component, ?_, mapped, fun more => ?_⟩
  · exact (readComponent_inverts _ _ _).mpr ⟨_, by rw [componentBytes, if_pos rfl, produced]; rfl, by simp⟩
  · refine (readComponent_inverts _ _ _).mpr ⟨_, ?_, rfl⟩
    rw [componentBytes, if_pos flagless, again]
    rfl

end members

section passes

open AttributeM (Carries)

variable {name : String}

/-- The pass through an attribute that holds names and no other attributes. -/
def namePass? (scope : RemapScope) (depth : Nat) : AttributeKind → Option (AttributeM Bytes)
  | .signature => some scope.mapSignatureAttribute
  | .localVariables generic => some (scope.mapLocalVariables generic)
  | .innerClasses => some scope.mapInnerClasses
  | .enclosingMethod => some scope.mapEnclosingMethod
  | .annotations => some (scope.mapAnnotations depth)
  | .parameterAnnotations => some (scope.mapParameterAnnotations depth)
  | .annotationDefault => some (scope.mapElementValue depth)
  | .sourceFile => some scope.mapSourceFile
  | .code | .recordComponents => none

/-- The operation looks for a slot in the place of another one, without leaving the pools that `stays` tells of,
and the bytes of the two are alike. -/
abbrev Slot (stays : ConstantPool → Prop) (alike : Bytes → Bytes → Prop) (act : PoolM UInt16) (index : UInt16) : Prop :=
  act.Keeps stays fun result => alike (u16Bytes index) (u16Bytes result)

/-- All that a pass through names puts in the place of slots is alike to them. -/
structure Carrying (scope : RemapScope) (stays : ConstantPool → Prop) (alike : Bytes → Bytes → Prop) : Prop
    extends AttributeM.Blends alike where
  descriptor : ∀ index, Slot stays alike (scope.mapDescriptorAt index) index
  signature : ∀ index, Slot stays alike (scope.mapSignatureAt index) index
  elementName : ∀ owner index, Slot stays alike (scope.mapElementName owner index) index
  enumConstant : ∀ typeIndex nameIndex, (scope.mapEnumConstant typeIndex nameIndex).Keeps stays fun result =>
    alike (u16Bytes typeIndex) (u16Bytes result.1) ∧ alike (u16Bytes nameIndex) (u16Bytes result.2)
  localName : ∀ index number, Slot stays alike (scope.mapLocalName index number) index
  type : ∀ index type mapped, scope.old.text index = .ok type →
    scope.renamer.mapSignature type = .ok mapped ∨ scope.renamer.mapDescriptor type = .ok mapped →
    Slot stays alike (scope.keepText index mapped) index
  simpleName : ∀ innerIndex outerIndex nameIndex,
    Slot stays alike (scope.mapSimpleName innerIndex outerIndex nameIndex) nameIndex
  enclosing : ∀ ownerIndex methodIndex, Slot stays alike (scope.mapEnclosing ownerIndex methodIndex) methodIndex

namespace Carrying

variable {stays : ConstantPool → Prop} {alike : Bytes → Bytes → Prop} (carrying : scope.Carrying stays alike)
include carrying

/-- Annotations and their values nest in each other, so both are treated in one induction on the depth. -/
theorem annotation (fuel : Nat) : Carries stays alike [] (scope.mapAnnotationTree fuel) ∧
      Carries stays alike [] (scope.mapElementValue fuel) := by
  have equal := carrying.refl
  induction fuel with
  | zero => exact ⟨.fail _, .fail _⟩
  | succ fuel ih =>
    obtain ⟨annotations, values⟩ := ih
    constructor
    · rw [mapAnnotationTree]
      refine .u16 fun _ => .outcome fun _ _ => .lift (carrying.descriptor _) fun _ typed =>
        .bind (.list carrying.toBlends ?_) fun _ _ elements => .done (carrying.append typed elements)
      exact .u16 fun _ => .lift (carrying.elementName _ _) fun _ named =>
        .bind values fun _ _ value => .done (carrying.append named value)
    · rw [mapElementValue]
      refine .u8 fun tag => ?_
      split_ifs
      · exact .u16 fun _ => .done (equal _)
      · exact .u16 fun _ => .u16 fun _ => .lift (carrying.enumConstant _ _) fun _ same =>
          .done (carrying.append (carrying.append (equal [tag]) same.1) same.2)
      · exact .u16 fun _ => .lift (carrying.descriptor _) fun _ same => .done (carrying.append (equal [tag]) same)
      · exact .bind annotations fun _ _ same => .done (carrying.append (equal [tag]) same)
      · exact .bind (.list carrying.toBlends values) fun _ _ same => .done (carrying.append (equal [tag]) same)
      · exact .fail _

theorem localVariables (generic : Bool) : Carries stays alike [] (scope.mapLocalVariables generic) := by
  refine .list carrying.toBlends (.u16 fun start => .u16 fun length => .u16 fun nameIndex => .u16 fun typeIndex =>
    .u16 fun number => .outcome fun type read => ?_)
  have equal := carrying.refl
  have finish {named typed : UInt16} (name : alike (u16Bytes nameIndex) (u16Bytes named))
      (type : alike (u16Bytes typeIndex) (u16Bytes typed)) := carrying.append (carrying.append (carrying.append
    (equal (u16Bytes start ++ u16Bytes length)) name) type) (equal (u16Bytes number))
  split
  · exact .outcome fun mapped given => .lift (carrying.localName _ _) fun _ name =>
      .lift (carrying.type _ _ _ read (.inl given)) fun _ type => .done (finish name type)
  · exact .outcome fun mapped given => .lift (carrying.localName _ _) fun _ name =>
      .lift (carrying.type _ _ _ read (.inr given)) fun _ type => .done (finish name type)

/-- The name of the source file is made up from the new name of the class, so it is left out here. -/
theorem namePass? {depth : Nat} {kind : AttributeKind} {pass : AttributeM Bytes}
    (passes : scope.namePass? depth kind = some pass) (named : kind ≠ .sourceFile) : Carries stays alike [] pass := by
  have annotations : Carries stays alike [] (scope.mapAnnotations depth) :=
    .list carrying.toBlends (carrying.annotation depth).1
  have equal := carrying.refl
  cases kind <;> cases passes
  case signature => exact .u16 fun _ => .lift (carrying.signature _) fun _ same => .done same
  case localVariables generic => exact carrying.localVariables generic
  case innerClasses =>
    exact .list carrying.toBlends (.u16 fun inner => .u16 fun outer => .u16 fun _ => .u16 fun flags =>
      .lift (carrying.simpleName _ _ _) fun _ same =>
        .done (carrying.append (carrying.append (equal (u16Bytes inner ++ u16Bytes outer)) same)
          (equal (u16Bytes flags))))
  case enclosingMethod =>
    exact .u16 fun owner => .u16 fun _ => .lift (carrying.enclosing _ _) fun _ same =>
      .done (carrying.append (equal (u16Bytes owner)) same)
  case annotations => exact annotations
  case parameterAnnotations =>
    exact .u8 fun count => annotations.timesFrom carrying.toBlends count.toNat [] fun _ _ same =>
      .done (carrying.append (equal _) same)
  case annotationDefault => exact (carrying.annotation depth).2
  case sourceFile => exact absurd rfl named

end Carrying

theorem ofName?_eq_code (kind : ofName? name = some .code) : name = "Code" := by
  unfold ofName? at kind
  split at kind <;> simp_all

theorem ofName?_eq_record (kind : ofName? name = some .recordComponents) : name = "Record" := by
  unfold ofName? at kind
  split at kind <;> simp_all

/-- How the content of an attribute can be renewed, with the pool before and after it. -/
inductive Renewal (scope : RemapScope) (fuel : Nat) (name : String) (info : Bytes)
    (pool after : ConstantPool) : Option Bytes → Prop
  | kept (nameless : ofName? name = none ∨ ofName? name = some .sourceFile) :
    Renewal scope fuel name info pool after none
  | names {kind : AttributeKind} {pass : AttributeM Bytes} {written : Bytes}
    (holds : ofName? name = some kind)
    (passes : scope.namePass? (info.length + 1) kind = some pass)
    (run : Gives (pass info) pool (written, []) after) :
    Renewal scope fuel name info pool after (some written)
  | code {body : Code} {attributes : List Attribute} {rest written : Bytes} (named : name = "Code")
    (read : reader info = .ok (body, rest))
    (run : (scope.mapAttributesBy (scope.mapInfo fuel) body.attributes).Gives pool attributes after)
    (reread : reader written = .ok ({ body with attributes }, [])) :
    Renewal scope fuel name info pool after (some written)
  | record {components changed : List Member} {written : Bytes} (named : name = "Record")
    (read : list readComponent info = .ok (components, []))
    (run : (components.mapM (scope.mapFieldBy (scope.mapInfo fuel))).Gives pool changed after)
    (reread : list readComponent written = .ok (changed, [])) :
    Renewal scope fuel name info pool after (some written)

/-- Content is renewed in one of the ways. -/
theorem mapInfo_renewal {fuel : Nat} {info : Bytes} {answer : Option Bytes}
    (given : (scope.mapInfo (fuel + 1) name info).Gives pool answer after) :
    Renewal scope fuel name info pool after answer := by
  have passed {kind : AttributeKind} {pass : AttributeM Bytes}
      (holds : ofName? name = some kind)
      (passes : scope.namePass? (info.length + 1) kind = some pass)
      (given : (some <$> pass.all info).Gives pool answer after) :
      Renewal scope fuel name info pool after answer := by
    obtain ⟨written, run, rfl⟩ := gives_map.mp given
    exact .names holds passes (AttributeM.gives_all.mp run)
  rw [mapInfo] at given
  split at given
  case h_1 holds =>
    obtain ⟨rfl, -⟩ := gives_pure.mp given
    exact .kept (.inl holds)
  case h_2 holds =>
    simp only [gives_bind, gives_lift, gives_pure] at given
    obtain ⟨body, _, ⟨found, rfl⟩, attributes, _, run, written, _, ⟨produced, rfl⟩, rfl, rfl⟩ := given
    obtain ⟨⟨_, rest⟩, read, rfl⟩ := Outcome.map_eq_ok.mp found
    refine .code (ofName?_eq_code holds) read run ?_
    exact (reader_inverts _ _ _).mpr ⟨written, produced, by simp⟩
  case h_3 holds => exact passed holds rfl given
  case h_4 holds => exact passed holds rfl given
  case h_5 holds => exact passed holds rfl given
  case h_6 holds => exact passed holds rfl given
  case h_7 holds => exact passed holds rfl given
  case h_8 holds => exact passed holds rfl given
  case h_9 holds => exact passed holds rfl given
  case h_10 holds =>
    obtain ⟨written, all, rfl⟩ := gives_map.mp given
    obtain ⟨components, changed, read, run, reread⟩ := mapRecord_rewrites _ _ _ _ _ (AttributeM.gives_all.mp all)
    exact .record (ofName?_eq_record holds) read run (by simpa using reread [])
  case h_11 holds =>
    split at given
    · exact passed holds rfl given
    · obtain ⟨rfl, -⟩ := gives_pure.mp given
      exact .kept (.inr holds)

end passes

namespace Steady

variable (steady : scope.Steady) {member : Member}
include steady

theorem mapDescriptorAt (index : UInt16) : Returns scope.old (scope.mapDescriptorAt index) index := by
  refine .lift_bind fun descriptor read => .lift_bind fun new mapped => ?_
  rw [steady.renamer.mapDescriptor mapped]
  exact keepText_returns read _

theorem mapElementName (owner : String) (index : UInt16) :
    Returns scope.old (scope.mapElementName owner index) index := by
  refine .lift_bind fun name read => .lift_bind fun answer answered => ?_
  cases answer with
  | none => exact .pure index
  | some new =>
    rw [steady.renamer.elementName owner name new answered]
    exact keepText_returns read _

theorem mapEnumConstant (typeIndex nameIndex : UInt16) :
    Returns scope.old (scope.mapEnumConstant typeIndex nameIndex) (typeIndex, nameIndex) := by
  refine .lift_bind fun descriptor typeRead => .lift_bind fun name nameRead =>
    .lift_bind fun newName named => .lift_bind fun newDescriptor mapped => ?_
  rw [steady.renamer.mapField named, steady.renamer.mapDescriptor mapped]
  exact .bind (keepText_returns typeRead _) (.bind (keepText_returns nameRead _) (.pure _))

section attributes

theorem mapSignatureAt (index : UInt16) : Returns scope.old (scope.mapSignatureAt index) index := by
  refine .lift_bind fun signature read => .lift_bind fun new mapped => ?_
  rw [steady.renamer.mapSignature mapped]
  exact keepText_returns read _

theorem mapLocalName (index number : UInt16) : Returns scope.old (scope.mapLocalName index number) index := by
  simpa [RemapScope.mapLocalName, steady.locals] using .pure index

omit steady in
theorem mapSimpleName (innerIndex outerIndex nameIndex : UInt16) :
    Returns scope.old (scope.mapSimpleName innerIndex outerIndex nameIndex) nameIndex := by
  unfold RemapScope.mapSimpleName
  split
  case isTrue none =>
    rw [none]
    exact .pure 0
  case isFalse =>
    refine .lift_bind fun oldInner oldRead => .get_bind (.lift_bind fun newInner newRead => ?_)
    rw [oldRead, Except.ok.injEq] at newRead
    simpa [newRead] using .pure nameIndex

theorem mapEnclosing (ownerIndex methodIndex : UInt16) :
    Returns scope.old (scope.mapEnclosing ownerIndex methodIndex) methodIndex := by
  unfold RemapScope.mapEnclosing
  split
  case isTrue none =>
    rw [none]
    exact .pure 0
  case isFalse =>
    refine .lift_bind fun owner _ => .lift_bind fun ⟨name, descriptor⟩ read =>
      .lift_bind fun newName named => .lift_bind fun newDescriptor mapped => ?_
    rw [steady.renamer.mapMethod named, steady.renamer.mapDescriptor mapped]
    exact keepNameAndType_returns read _

theorem carrying : scope.Carrying (· = scope.old) Eq where
  refl _ := rfl
  append := by
    rintro _ _ _ _ rfl rfl
    rfl
  descriptor index := (steady.mapDescriptorAt index).keeps
  signature index := (steady.mapSignatureAt index).keeps
  elementName owner index := (steady.mapElementName owner index).keeps
  enumConstant typeIndex nameIndex := by
    rintro _ result after rfl given
    obtain ⟨rfl, rfl⟩ := steady.mapEnumConstant _ _ _ _ given
    exact ⟨rfl, rfl, rfl⟩
  localName index number := (steady.mapLocalName index number).keeps
  type index type mapped read given := by
    have same : mapped = type := given.elim steady.renamer.mapSignature steady.renamer.mapDescriptor
    rw [same]
    exact (keepText_returns read _).keeps
  simpleName _ _ _ := (mapSimpleName _ _ _).keeps
  enclosing ownerIndex methodIndex := (steady.mapEnclosing ownerIndex methodIndex).keeps

/-- The attribute comes out of `renew` with the content it has. -/
def Renews (scope : RemapScope) (renew : String → Bytes → PoolM (Option Bytes)) (item : Attribute) :
    Prop :=
  ∀ name answer after, scope.old.text item.name = .ok name →
    (renew name item.info).Gives scope.old answer after →
    answer.getD item.info = item.info ∧ after = scope.old

variable {renew : String → Bytes → PoolM (Option Bytes)} {items : List Attribute} {item : Attribute}

omit steady in
theorem mapAttributesBy (renews : ∀ item ∈ items, Renews scope renew item) :
    Returns scope.old (scope.mapAttributesBy renew items) items := by
  refine .mapM fun item member => .lift_bind fun name read => ?_
  intro result after given
  obtain ⟨answer, between, renewed, finish⟩ := gives_bind.mp given
  obtain ⟨same, rfl⟩ := renews item member name answer between read (gives_within.mp renewed)
  cases answer with
  | none =>
    obtain ⟨rfl, rfl⟩ := gives_pure.mp finish
    exact ⟨rfl, rfl⟩
  | some info =>
    obtain ⟨rfl, rfl⟩ := gives_pure.mp finish
    obtain rfl : info = item.info := same
    exact ⟨rfl, rfl⟩

theorem mapFieldBy (renews : ∀ item ∈ member.attributes, Renews scope renew item) :
    Returns scope.old (scope.mapFieldBy renew member) member := by
  refine .lift_bind fun name nameRead => .lift_bind fun descriptor descriptorRead =>
    .lift_bind fun newName named => .lift_bind fun newDescriptor mapped => ?_
  rw [steady.renamer.mapField named, steady.renamer.mapDescriptor mapped]
  exact .bind (keepText_returns nameRead _) (.bind (keepText_returns descriptorRead _)
    (.bind (.within _ (mapAttributesBy renews)) (.pure _)))

/-- A tight attribute keeps its content. The induction is on the depth to which attributes stand in each
other. -/
theorem mapInfo (fuel : Nat) (tight : item.Tight scope.old) : Renews scope (scope.mapInfo fuel) item := by
  induction fuel generalizing item with
  | zero =>
    intro name answer after read given
    simp [mapInfo] at given
  | succ fuel ih =>
    intro name answer after read given
    by_cases source : ofName? name = some .sourceFile
    · obtain ⟨rfl, rfl⟩ : none = answer ∧ scope.old = after := by
        simpa [mapInfo, source, steady.owner] using given
      exact ⟨rfl, rfl⟩
    cases mapInfo_renewal given with
    | kept nameless =>
      obtain rfl : scope.old = after := by
        simpa [mapInfo, nameless.resolve_right source] using given
      exact ⟨rfl, rfl⟩
    | names holds passes run =>
      have carries := steady.carrying.namePass? passes fun same => source (same ▸ holds)
      obtain ⟨rfl, content, whole, same⟩ := carries _ _ _ _ _ rfl run
      rw [List.append_nil] at whole
      exact ⟨(whole.trans same).symm, rfl⟩
    | @code body attributes rest written named parsed run reread =>
      subst named
      have returns := mapAttributesBy fun inner member => ih (tight.inner (.code read parsed member))
      obtain ⟨rfl, rfl⟩ := returns _ _ run
      obtain rfl := tight item .refl read _ _ parsed
      exact ⟨reader_inverts.injective reread parsed, rfl⟩
    | @record components changed written named parsed run reread =>
      subst named
      have returns := Returns.mapM fun component listed => steady.mapFieldBy fun inner member =>
        ih (tight.inner (.record read parsed listed member))
      obtain ⟨rfl, rfl⟩ := returns _ _ run
      exact ⟨(list_inverts readComponent_inverts).injective reread parsed, rfl⟩

theorem mapAttributes (tight : ∀ item ∈ items, item.Tight scope.old) :
    Returns scope.old (scope.mapAttributes items) items :=
  mapAttributesBy fun item member name answer after read given =>
    steady.mapInfo _ (tight item member) name answer after read given

end attributes

theorem mapField (tight : ∀ item ∈ member.attributes, item.Tight scope.old) :
    Returns scope.old (scope.mapField member) member :=
  steady.mapFieldBy fun item listed name answer after read given =>
    steady.mapInfo _ (tight item listed) name answer after read given

theorem mapMethod (tight : ∀ item ∈ member.attributes, item.Tight scope.old) :
    Returns scope.old (scope.mapMethod member) member := by
  refine .lift_bind fun name nameRead => .lift_bind fun descriptor descriptorRead => ?_
  have finish : Returns scope.old (do
      let newDescriptor ← scope.renamer.mapDescriptor descriptor
      let descriptorIndex ← scope.keepText member.descriptor newDescriptor
      let attributes ← within (.attributesOfMethod name descriptor)
        (scope.mapAttributes member.attributes)
      return { member with descriptor := descriptorIndex, attributes }) member := by
    refine .lift_bind fun newDescriptor mapped => ?_
    rw [steady.renamer.mapDescriptor mapped]
    exact .bind (keepText_returns descriptorRead _)
      (.bind (.within _ (steady.mapAttributes tight)) (.pure _))
  split
  · exact .bind (.pure member.name) finish
  · refine .lift_bind fun newName named => ?_
    rw [steady.renamer.mapMethod named]
    exact .bind (keepText_returns nameRead _) finish

section constants

variable {pairIndex : UInt16} {name descriptor : String}

theorem pair_returns (read : scope.old.nameAndType pairIndex = .ok (name, descriptor)) : Returns scope.old (do
      let newDescriptor ← scope.renamer.mapDescriptor descriptor
      scope.keepNameAndType pairIndex name newDescriptor) pairIndex := by
  refine .lift_bind fun newDescriptor mapped => ?_
  rw [steady.renamer.mapDescriptor mapped]
  exact keepNameAndType_returns read _

theorem mapReference {map : (owner name descriptor : String) → Outcome String}
    (same : ∀ owner name descriptor new, map owner name descriptor = .ok new → new = name)
    (ownerIndex pairIndex : UInt16) : Returns scope.old (scope.mapReference map ownerIndex pairIndex) pairIndex := by
  refine .lift_bind fun owner _ => .lift_bind fun ⟨name, descriptor⟩ read => ?_
  simp only
  split
  · exact .bind (.pure name) (steady.pair_returns read)
  · refine .lift_bind fun newName named => ?_
    rw [same _ _ _ _ (Outcome.within_eq_ok.mp named)]
    exact steady.pair_returns read

theorem mapCallSite (index pairIndex : UInt16) : Returns scope.old (scope.mapCallSite index pairIndex) pairIndex := by
  refine .lift_bind fun ⟨name, descriptor⟩ read => .lift_bind fun implemented _ => ?_
  cases implemented with
  | none => exact .bind (.pure name) (steady.pair_returns read)
  | some implemented =>
    simp only
    split
    · exact .bind (.fail _ name) (steady.pair_returns read)
    · refine .lift_bind fun newName named => ?_
      rw [steady.renamer.mapMethod (Outcome.within_eq_ok.mp named)]
      exact steady.pair_returns read

theorem mapConstant (constant : Constant) :
    ∃ answer, Returns scope.old (scope.mapConstant constant) answer ∧ answer.getD constant = constant := by
  have replaced {act : PoolM UInt16} {index : UInt16} (make : UInt16 → Constant)
      (returns : Returns scope.old act index) :
      Returns scope.old (do return some (make (← act))) (some (make index)) :=
    .bind returns (.pure _)
  unfold RemapScope.mapConstant
  split
  case h_1 name =>
    refine ⟨some (.classRef name), .lift_bind fun text read => .lift_bind fun mapped given => ?_, rfl⟩
    rw [steady.renamer.mapClassOrArray given]
    exact replaced .classRef (keepText_returns read _)
  case h_2 owner pair =>
    exact ⟨_, replaced (.fieldRef owner) (steady.mapReference (fun _ _ _ _ => steady.renamer.mapField) _ _), rfl⟩
  case h_3 owner pair =>
    exact ⟨_, replaced (.methodRef owner)
      (steady.mapReference (fun _ _ _ _ => steady.renamer.mapMethod) _ _), rfl⟩
  case h_4 owner pair =>
    exact ⟨_, replaced (.interfaceMethodRef owner)
      (steady.mapReference (fun _ _ _ _ => steady.renamer.mapMethod) _ _), rfl⟩
  case h_5 => exact ⟨_, replaced .methodType (steady.mapDescriptorAt _), rfl⟩
  case h_6 bootstrap pair => exact ⟨_, replaced (.invokeDynamic bootstrap) (steady.mapCallSite _ _), rfl⟩
  case h_7 bootstrap pair =>
    exact ⟨_, replaced (.dynamic bootstrap) (.lift_bind fun _ read => steady.pair_returns read), rfl⟩
  case h_8 => exact ⟨none, .pure _, rfl⟩

theorem mapPool (wellFormed : scope.old.WellFormed) : Returns scope.old scope.mapPool () := by
  refine .forM fun ⟨index, constant⟩ listed => ?_
  have held := (ConstantPool.mem_constants wellFormed.bounded).mp listed
  obtain ⟨answer, returns, same⟩ := steady.mapConstant constant
  refine .bind returns ?_
  cases answer with
  | none => exact .pure ()
  | some new =>
    obtain rfl : new = constant := same
    exact .within _ (ConstantPool.replace_returns held)

end constants

theorem mapFile (wellFormed : scope.old.WellFormed) {file : ClassFile}
    (tight : ∀ item ∈ file.allAttributes, item.Tight scope.old) :
    Returns scope.old (scope.mapFile file) (file.fields, file.methods, file.attributes) := by
  have ofFields : ∀ member ∈ file.fields, ∀ item ∈ member.attributes, item.Tight scope.old := by
    intro member listed item attached
    exact tight item (by simp [ClassFile.allAttributes]; exact .inr (.inl ⟨member, listed, attached⟩))
  have ofMethods : ∀ member ∈ file.methods, ∀ item ∈ member.attributes, item.Tight scope.old := by
    intro member listed item attached
    exact tight item (by simp [ClassFile.allAttributes]; exact .inr (.inr ⟨member, listed, attached⟩))
  have ofClass : ∀ item ∈ file.attributes, item.Tight scope.old :=
    fun item attached => tight item (by simp [ClassFile.allAttributes, attached])
  refine .bind (.within _ (steady.mapPool wellFormed)) ?_
  refine .bind (.mapM fun member listed => .within _ (steady.mapField (ofFields member listed))) ?_
  refine .bind (.mapM fun member listed => .within _ (steady.mapMethod (ofMethods member listed))) ?_
  exact .bind (.within _ (steady.mapAttributes ofClass)) (.pure _)

end Steady

end RemapScope

theorem MappingTable.empty_steady (source target : String) : (MappingTable.empty source target).renamer.Steady := by
  constructor <;> intros <;> intro new answered <;> cases answered

section remapClass

variable {renamer : Renamer} {options : RemapOptions} {bytes : Bytes} {out : RemappedClass}

theorem remapClass_steady (locals : options.renameInvalidLocals = false) (steady : renamer.Steady)
    (tight : ∀ file, ClassFile.read bytes = .ok file → ∀ item ∈ file.allAttributes, item.Tight file.pool)
    (remapped : remapClass renamer options bytes = .ok out) : out.bytes = bytes ∧ out.newName = out.oldName := by
  obtain ⟨file, bootstraps, owner, newOwner, fields, methods, attributes, pool, written, parsed, -, -,
    renamed, given, produced, rfl⟩ := remapClass_eq_ok.mp remapped
  have named : newOwner = owner := steady.mapClass renamed
  let scope : RemapScope := { old := file.pool, renamer, options, owner, newOwner, bootstraps }
  have still : scope.Steady := ⟨steady, named, locals⟩
  obtain ⟨same, rfl⟩ := still.mapFile (ClassFile.read_wellFormed parsed) (tight file parsed) _ _ given
  obtain ⟨rfl, rfl, rfl⟩ : fields = file.fields ∧ methods = file.methods ∧
      attributes = file.attributes := by simpa using same
  obtain ⟨-, original, again, taken⟩ := ClassFile.reader_takes (ClassFile.read_eq_ok.mp parsed)
  obtain rfl : original = written := Outcome.unique again produced
  exact ⟨by simpa using taken.symm, named⟩

/-- Remapping without a change of name reproduces its input.

The renamer either never answers with another name, or it does not do so for this class: then the class
can also be remapped by the part of it that keeps all names. No local variable is to be renamed for its
spelling, and no code attribute has bytes after its attribute table. -/
theorem remapClass_reproduces (locals : options.renameInvalidLocals = false)
    (steady : renamer.Steady ∨ (remapClass renamer.unchanging options bytes).isOk)
    (tight : ∀ file, ClassFile.read bytes = .ok file →
      ∀ item ∈ file.allAttributes, item.Tight file.pool)
    (remapped : remapClass renamer options bytes = .ok out) :
    out.bytes = bytes ∧ out.newName = out.oldName := by
  suffices kept : remapClass renamer.unchanging options bytes = .ok out from
    remapClass_steady locals renamer.unchanging_steady tight kept
  rcases steady with steady | succeeds
  · exact remapClass_below steady.below_unchanging options bytes out remapped
  · match run : remapClass renamer.unchanging options bytes, succeeds with
    | .ok kept, _ =>
      have same := remapClass_below renamer.unchanging_below options bytes kept run
      rw [← remapped, same]

/-- The class `A` with a method whose body is empty. -/
def bodyClass : Bytes := [0xca,0xfe,0xba,0xbe,0,0,0,52,0,6,1,0,1,65,7,0,1,1,0,1,102,1,0,3,40,41,86,
  1,0,4,67,111,100,101,0,0,0,2,0,0,0,0,0,0,0,1,0,0,0,3,0,4,0,1,0,5,0,0,0,12,0,0,0,0,0,0,0,0,0,0,0,0,
  0,0]

theorem bodyClass_tight (file : ClassFile) (parsed : ClassFile.read bodyClass = .ok file) :
    ∀ item ∈ file.allAttributes, item.Tight file.pool := by
  have attributes : file.allAttributes = [⟨5, List.replicate 12 0⟩] := by
    have evaluated : (ClassFile.read bodyClass).map ClassFile.allAttributes =
        .ok [⟨5, List.replicate 12 0⟩] := by decide +kernel
    simpa [parsed, Except.map] using evaluated
  have name : file.pool.text 5 = .ok "Code" := by
    have evaluated : ((ClassFile.read bodyClass).bind fun file => file.pool.text 5) = .ok "Code" := by
      decide +kernel
    simpa [parsed, Except.bind] using evaluated
  have body : reader (List.replicate 12 0) = .ok (⟨0, 0, [], [], []⟩, []) := by decide +kernel
  rw [attributes]
  rintro item listed inner path - code rest read
  obtain rfl := List.mem_singleton.mp listed
  rcases path.cases_head with rfl | ⟨_, step, -⟩
  · exact (Prod.mk.inj (Outcome.unique body read)).2.symm
  · cases step with
    | code _ found member =>
      obtain ⟨rfl, -⟩ := Prod.mk.inj (Outcome.unique body found)
      simp at member
    | record named => simp [name] at named

def otherTable : MappingTable := (MappingTable.empty "left" "right").insertClass "Z" "Y"

theorem remapClass_reproduces_bodyClass :
    ((MappingTable.empty "left" "right").renamer.Steady ∧
      ∃ out, remapClass (MappingTable.empty "left" "right").renamer {} bodyClass = .ok out ∧
        out.bytes = bodyClass ∧ out.newName = out.oldName) ∧
    ((remapClass otherTable.renamer.unchanging {} bodyClass).isOk ∧
      ∃ out, remapClass otherTable.renamer {} bodyClass = .ok out ∧ out.bytes = bodyClass ∧
        out.newName = out.oldName) := by
  have steady : (MappingTable.empty "left" "right").renamer.Steady := MappingTable.empty_steady _ _
  have remapped : remapClass (MappingTable.empty "left" "right").renamer {} bodyClass =
      .ok ⟨"A", "A", bodyClass⟩ := by decide +kernel
  have otherSteady : (remapClass otherTable.renamer.unchanging {} bodyClass).isOk := by decide +kernel
  have otherRemapped : remapClass otherTable.renamer {} bodyClass = .ok ⟨"A", "A", bodyClass⟩ := by
    decide +kernel
  exact ⟨⟨steady, _, remapped, remapClass_reproduces rfl (.inl steady) bodyClass_tight remapped⟩,
    otherSteady, _, otherRemapped,
    remapClass_reproduces rfl (.inr otherSteady) bodyClass_tight otherRemapped⟩

end remapClass

end JarRemap
