import JarRemap.Proofs.PoolGrowth
import JarRemap.Proofs.RenamerOrder

/-!
# The steps of a remapping

An operation follows another one if it takes the same steps, each of which only adds names to the pool, and
gets every answer that the other one gets. All functions that renew attributes and members follow themselves
with a lesser renamer and less fuel. What holds of each step of such a run holds of all of it.
-/
namespace JarRemap

open AttributeM Reader

variable {α β : Type}

/-- On a longer input the reader gives the same and leaves what was added. -/
def Reader.Frames (reader : Reader α) : Prop :=
  ∀ input value rest extra, reader input = .ok (value, rest) →
    reader (input ++ extra) = .ok (value, rest ++ extra)

theorem Reader.Frames.ofInverts {reader : Reader α} {write : α → Outcome Bytes} (inverts : reader.Inverts write) :
    reader.Frames := by
  intro input value rest extra taken
  obtain ⟨bytes, written, rfl⟩ := (inverts _ _ _).mp taken
  exact (inverts _ _ _).mpr ⟨bytes, written, by simp⟩

namespace PoolM

variable {more act : α → PoolM β}

/-- Every successful run of the first operation is one of the second. -/
def Below (first second : PoolM α) : Prop :=
  ∀ pool result after, first.Gives pool result after → second.Gives pool result after

namespace Below

variable {second first : PoolM α}

theorem refl (act : PoolM α) : act.Below act := fun _ _ _ given => given

theorem lift {first second : Outcome α} (start : first.Below second) : Below (liftM first) (liftM second) := by
  intro pool result after given
  obtain ⟨reached, rfl⟩ := gives_lift.mp given
  exact gives_lift.mpr ⟨start result reached, rfl⟩

theorem bind {next further : α → PoolM β} (start : first.Below second)
    (step : ∀ value, (next value).Below (further value)) : (first >>= next).Below (second >>= further) := by
  intro pool result after given
  obtain ⟨middle, between, reached, finished⟩ := gives_bind.mp given
  exact gives_bind.mpr ⟨middle, between, start _ _ _ reached, step middle _ _ _ finished⟩

theorem within (context : Context) (start : first.Below second) :
    (within context first).Below (within context second) :=
  fun _ _ _ given => gives_within.mpr (start _ _ _ (gives_within.mp given))

theorem mapM (step : ∀ value, (act value).Below (more value)) (values : List α) :
    (values.mapM act).Below (values.mapM more) := by
  induction values with
  | nil => exact .refl _
  | cons value values ih =>
    rw [List.mapM_cons, List.mapM_cons]
    exact .bind (step value) fun _ => .bind ih fun _ => .refl _

theorem forM {act more : α → PoolM Unit} (step : ∀ value, (act value).Below (more value))
    (values : List α) : (values.forM act).Below (values.forM more) := by
  induction values with
  | nil => exact .refl _
  | cons value values ih => exact .bind (step value) fun _ => ih

end Below

/-- The second operation takes the steps of the first, which only add names, and gets all its answers. -/
inductive Follows : {α : Type} → PoolM α → PoolM α → Prop
  | stop {α : Type} (cause : Cause) (act : PoolM α) : Follows (fail cause) act
  | same {α : Type} {act : PoolM α} (grows : act.Grows) : Follows act act
  | lift {α : Type} {first second : Outcome α} (start : first.Below second) :
    Follows (liftM first : PoolM α) (liftM second)
  | bind {α β : Type} {first second : PoolM α} {next further : α → PoolM β} (start : Follows first second)
    (step : ∀ value, Follows (next value) (further value)) : Follows (first >>= next) (second >>= further)
  | within {α : Type} {first second : PoolM α} (context : Context) (start : Follows first second) :
    Follows (within context first) (within context second)

namespace Follows

variable {first second : PoolM α}

theorem grows (follows : Follows first second) : first.Grows := by
  induction follows with
  | stop cause act => exact .fail cause
  | same grows => exact grows
  | lift start => exact .lift _
  | bind start step ih further => exact .bind ih further
  | within context start ih => exact .within context ih

theorem isBelow (follows : Follows first second) : first.Below second := by
  induction follows with
  | stop cause act => exact fun _ _ _ given => absurd given not_gives_fail
  | same grows => exact .refl _
  | lift start => exact .lift start
  | bind start step ih further => exact .bind ih further
  | within context start ih => exact .within context ih

theorem pure (value : α) : Follows (Pure.pure value) (Pure.pure value) := .same (.pure value)

theorem read (outcome : Outcome α) : Follows (liftM outcome) (liftM outcome) := .lift (.refl outcome)

theorem map (change : α → β) (start : Follows first second) : Follows (change <$> first) (change <$> second) := by
  rw [← bind_pure_comp, ← bind_pure_comp]
  exact .bind start fun _ => .pure _

theorem mapM (step : ∀ value, Follows (act value) (more value)) (values : List α) :
    Follows (values.mapM act) (values.mapM more) := by
  induction values with
  | nil => exact .pure []
  | cons value values ih =>
    rw [List.mapM_cons, List.mapM_cons]
    exact .bind (step value) fun _ => .bind ih fun _ => .pure _

end Follows

end PoolM

namespace AttributeM

/-- The second pass takes the steps of the first, which only add names, and gets all its answers. Its readers
look at no more than what they take. -/
inductive Follows : {α : Type} → AttributeM α → AttributeM α → Prop
  | stop {α : Type} (cause : Cause) (pass : AttributeM α) : Follows (fail cause) pass
  | pure {α : Type} (value : α) : Follows (Pure.pure value) (Pure.pure value)
  | take {α : Type} {reader : Reader α} (frames : reader.Frames) :
    Follows (take reader) (take reader)
  | lift {α : Type} {first second : PoolM α} (start : PoolM.Follows first second) :
    Follows (liftM first : AttributeM α) (liftM second)
  | bind {α β : Type} {first second : AttributeM α} {next further : α → AttributeM β} (start : Follows first second)
    (step : ∀ value, Follows (next value) (further value)) : Follows (first >>= next) (second >>= further)

/-- On a longer input the pass does the same and leaves what was added. -/
def Frames (pass : AttributeM α) : Prop :=
  ∀ input pool value rest after extra, PoolM.Gives (pass input) pool (value, rest) after →
    PoolM.Gives (pass (input ++ extra)) pool (value, rest ++ extra) after

namespace Follows

variable {first second : AttributeM α}

theorem run (follows : Follows first second) (input : Bytes) : PoolM.Follows (first input) (second input) := by
  induction follows generalizing input with
  | stop cause pass => exact .stop cause _
  | pure value => exact .pure (value, input)
  | take frames => exact .read _
  | lift start => exact .bind start fun value => .pure (value, input)
  | bind start step ih further => exact .bind (ih input) fun taken => further taken.1 taken.2

theorem grows (follows : Follows first second) (input : Bytes) : PoolM.Grows (first input) :=
  (follows.run input).grows

theorem frames (follows : Follows first second) : first.Frames := by
  induction follows with
  | stop cause pass => exact fun _ _ _ _ _ _ given => absurd given not_gives_fail
  | pure value =>
    intro input pool result rest after extra given
    obtain ⟨rfl, rfl, rfl⟩ := gives_pure.mp given
    exact gives_pure.mpr ⟨rfl, rfl, rfl⟩
  | take frames =>
    intro input pool value rest after extra given
    obtain ⟨taken, rfl⟩ := gives_take.mp given
    exact gives_take.mpr ⟨frames _ _ _ _ taken, rfl⟩
  | lift start =>
    intro input pool value rest after extra given
    obtain ⟨run, rfl⟩ := gives_lift.mp given
    exact gives_lift.mpr ⟨run, rfl⟩
  | bind start step ih further =>
    intro input pool result rest after extra given
    obtain ⟨middle, left, between, begun, ended⟩ := gives_bind.mp given
    exact gives_bind.mpr ⟨middle, left ++ extra, between, ih _ _ _ _ _ _ begun, further middle _ _ _ _ _ _ ended⟩

theorem number : Follows (AttributeM.take u16) (AttributeM.take u16) :=
  .take (.ofInverts u16_inverts)

theorem byte : Follows (AttributeM.take u8) (AttributeM.take u8) :=
  .take (.ofInverts u8_inverts)

theorem put {act : PoolM α} (grows : act.Grows) : Follows (liftM act : AttributeM α) (liftM act) := .lift (.same grows)

theorem answer {first second : Outcome α} (start : first.Below second) :
    Follows (liftM first : AttributeM α) (liftM second) :=
  lift (PoolM.Follows.lift start)

theorem read (outcome : Outcome α) : Follows (liftM outcome : AttributeM α) (liftM outcome) :=
  answer (.refl outcome)

theorem timesFrom (follows : Follows first second) (done : List α) (count : Nat) :
    Follows (timesFrom done first count) (timesFrom done second count) := by
  induction count generalizing done with
  | zero => exact .pure _
  | succ count ih => exact .bind follows fun next => ih (next :: done)

theorem list {first second : AttributeM Bytes} (follows : Follows first second) : Follows (list first) (list second) :=
  .bind .number fun count => .bind (.timesFrom follows [] count.toNat) fun _ => .pure _

theorem all {first second : AttributeM Bytes} (follows : Follows first second) (info : Bytes) :
    PoolM.Follows (first.all info) (second.all info) := by
  refine .bind (follows.run info) fun ⟨written, rest⟩ => ?_
  simp only
  split
  · exact .pure _
  · exact .stop _ _

end Follows

end AttributeM

namespace RemapScope

variable {fuel deeper : Nat}

/-- The scope with another renamer. -/
def withRenamer (scope : RemapScope) (renamer : Renamer) : RemapScope := { scope with renamer }

variable (scope : RemapScope) {more : Renamer} (below : scope.renamer.Below more)
include below

theorem mapDescriptorAt_follows (index : UInt16) :
    (scope.mapDescriptorAt index).Follows ((scope.withRenamer more).mapDescriptorAt index) :=
  .bind (.read _) fun _ => .bind (.lift (below.mapDescriptor _)) fun _ => .same (scope.keepText_grows _ _)

section annotations

theorem mapElementName_follows (owner : String) (index : UInt16) :
    (scope.mapElementName owner index).Follows ((scope.withRenamer more).mapElementName owner index) := by
  refine .bind (.read _) fun _ => .bind (.lift (below.elementName _ _)) fun answer => .same ?_
  cases answer with
  | none => exact .pure _
  | some newName => exact scope.keepText_grows index newName

theorem mapEnumConstant_follows (typeIndex nameIndex : UInt16) : (scope.mapEnumConstant typeIndex nameIndex).Follows
      ((scope.withRenamer more).mapEnumConstant typeIndex nameIndex) :=
  .bind (.read _) fun _ => .bind (.read _) fun _ => .bind (.lift (below.mapField _ _ _)) fun _ =>
    .bind (.lift (below.mapDescriptor _)) fun _ => .bind (.same (scope.keepText_grows _ _)) fun _ =>
    .bind (.same (scope.keepText_grows _ _)) fun _ => .pure _

theorem mapElement_follows {pass further : AttributeM Bytes} (owner : String) (values : pass.Follows further) :
    Follows (do
        let nameIndex ← take u16
        let newNameIndex ← scope.mapElementName owner nameIndex
        let value ← pass
        return u16Bytes newNameIndex ++ value)
      (do
        let nameIndex ← take u16
        let newNameIndex ← (scope.withRenamer more).mapElementName owner nameIndex
        let value ← further
        return u16Bytes newNameIndex ++ value) :=
  .bind .number fun _ => .bind (.lift (scope.mapElementName_follows below _ _)) fun _ => .bind values fun _ => .pure _

/-- Annotations and their values nest in each other, so both are treated in one induction on the depth. -/
theorem annotation_follows (enough : fuel ≤ deeper) :
    (scope.mapAnnotationTree fuel).Follows ((scope.withRenamer more).mapAnnotationTree deeper) ∧
      (scope.mapElementValue fuel).Follows ((scope.withRenamer more).mapElementValue deeper) := by
  induction fuel generalizing deeper with
  | zero => exact ⟨.stop _ _, .stop _ _⟩
  | succ fuel ih =>
    obtain ⟨deeper, rfl⟩ : ∃ less, deeper = less + 1 := ⟨deeper - 1, by omega⟩
    obtain ⟨annotations, values⟩ := ih (Nat.le_of_succ_le_succ enough)
    constructor
    · rw [mapAnnotationTree, mapAnnotationTree]
      exact .bind .number fun _ => .bind (.read _) fun _ =>
        .bind (.lift (scope.mapDescriptorAt_follows below _)) fun _ =>
        .bind (.list (scope.mapElement_follows below _ values)) fun _ => .pure _
    · rw [mapElementValue, mapElementValue]
      refine .bind .byte fun tag => ?_
      split_ifs
      · exact .bind .number fun _ => .pure _
      · exact .bind .number fun _ => .bind .number fun _ =>
          .bind (.lift (scope.mapEnumConstant_follows below _ _)) fun _ => .pure _
      · exact .bind .number fun _ => .bind (.lift (scope.mapDescriptorAt_follows below _)) fun _ => .pure _
      · exact .bind annotations fun _ => .pure _
      · exact .bind (.list values) fun _ => .pure _
      · exact .stop _ _

variable {fuel deeper : Nat}

theorem mapAnnotations_follows (enough : fuel ≤ deeper) :
    (scope.mapAnnotations fuel).Follows ((scope.withRenamer more).mapAnnotations deeper) :=
  .list (scope.annotation_follows below enough).1

theorem mapParameterAnnotations_follows (enough : fuel ≤ deeper) :
    (scope.mapParameterAnnotations fuel).Follows ((scope.withRenamer more).mapParameterAnnotations deeper) :=
  .bind .byte fun count => .bind (.timesFrom (scope.mapAnnotations_follows below enough) [] count.toNat)
    fun _ => .pure _

end annotations

section attributes

theorem mapSignatureAttribute_follows :
    scope.mapSignatureAttribute.Follows (scope.withRenamer more).mapSignatureAttribute :=
  .bind .number fun _ => .bind (.lift (.bind (.read _) fun _ => .bind (.lift (below.mapSignature _)) fun _ =>
    .same (scope.keepText_grows _ _))) fun _ => .pure _

theorem mapLocalVariables_follows (generic : Bool) :
    (scope.mapLocalVariables generic).Follows ((scope.withRenamer more).mapLocalVariables generic) := by
  refine .list (.bind .number fun _ => .bind .number fun _ => .bind .number fun _ => .bind .number fun _ =>
    .bind .number fun _ => .bind (.read _) fun type => ?_)
  split
  · exact .bind (.answer (below.mapSignature _)) fun _ => .bind (.put (scope.mapLocalName_grows _ _)) fun _ =>
      .bind (.put (scope.keepText_grows _ _)) fun _ => .pure _
  · exact .bind (.answer (below.mapDescriptor _)) fun _ => .bind (.put (scope.mapLocalName_grows _ _)) fun _ =>
      .bind (.put (scope.keepText_grows _ _)) fun _ => .pure _

omit below in
theorem mapInnerClasses_follows : scope.mapInnerClasses.Follows scope.mapInnerClasses :=
  .list (.bind .number fun _ => .bind .number fun _ => .bind .number fun _ => .bind .number fun _ =>
    .bind (.put (scope.mapSimpleName_grows _ _ _)) fun _ => .pure _)

theorem mapEnclosingMethod_follows : scope.mapEnclosingMethod.Follows (scope.withRenamer more).mapEnclosingMethod := by
  refine .bind .number fun _ => .bind .number fun _ => .bind (.lift ?_) fun _ => .pure _
  unfold mapEnclosing
  split
  · exact .pure _
  · exact .bind (.read _) fun _ => .bind (.read _) fun _ => .bind (.lift (below.mapMethod _ _ _)) fun _ =>
      .bind (.lift (below.mapDescriptor _)) fun _ => .same (scope.keepNameAndType_grows _ _ _)

omit below in
theorem mapSourceFile_follows : scope.mapSourceFile.Follows scope.mapSourceFile :=
  .bind .number fun _ => .bind (.put (scope.keepText_grows _ _)) fun _ => .pure _

variable {renew further : String → Bytes → PoolM (Option Bytes)}

section

variable (step : ∀ name info, (renew name info).Follows (further name info))
include step

omit below in
theorem mapAttributesBy_follows
    (items : List Attribute) :
    (scope.mapAttributesBy renew items).Follows ((scope.withRenamer more).mapAttributesBy further items) := by
  refine .mapM (fun _ => .bind (.read _) fun name => .bind (.within _ (step name _)) fun info => ?_) items
  cases info <;> exact .pure _

theorem mapFieldBy_follows (member : Member) :
    (scope.mapFieldBy renew member).Follows ((scope.withRenamer more).mapFieldBy further member) :=
  .bind (.read _) fun _ => .bind (.read _) fun _ => .bind (.lift (below.mapField _ _ _)) fun _ =>
    .bind (.lift (below.mapDescriptor _)) fun _ => .bind (.same (scope.keepText_grows _ _)) fun _ =>
    .bind (.same (scope.keepText_grows _ _)) fun _ => .bind (.within _ (scope.mapAttributesBy_follows step _)) fun _ =>
    .pure _

theorem mapRecord_follows :
    (scope.mapRecord renew).Follows ((scope.withRenamer more).mapRecord further) :=
  .list (.bind .number fun _ => .bind .number fun _ =>
    .bind (.take (.ofInverts (list_inverts Attribute.read_inverts))) fun _ =>
    .bind (.lift (scope.mapFieldBy_follows below step _)) fun _ => .bind (.read _) fun _ => .pure _)

end

theorem mapInfo_follows (enough : fuel ≤ deeper) (name : String) (info : Bytes) :
    (scope.mapInfo fuel name info).Follows ((scope.withRenamer more).mapInfo deeper name info) := by
  induction fuel generalizing deeper name info with
  | zero => exact .stop _ _
  | succ fuel ih =>
    obtain ⟨deeper, rfl⟩ : ∃ less, deeper = less + 1 := ⟨deeper - 1, by omega⟩
    have step := fun name info => ih (Nat.le_of_succ_le_succ enough) name info
    have nested {first second : AttributeM Bytes} (follows : first.Follows second) :
        (some <$> first.all info).Follows (some <$> second.all info) := .map some (follows.all info)
    rw [mapInfo, mapInfo]
    split
    · exact .pure _
    · exact .bind (.read _) fun code => .bind (scope.mapAttributesBy_follows step code.attributes) fun _ =>
        .bind (.read _) fun _ => .pure _
    · exact nested (scope.mapSignatureAttribute_follows below)
    · exact nested (scope.mapLocalVariables_follows below _)
    · exact nested scope.mapInnerClasses_follows
    · exact nested (scope.mapEnclosingMethod_follows below)
    · exact nested (scope.mapAnnotations_follows below le_rfl)
    · exact nested (scope.mapParameterAnnotations_follows below le_rfl)
    · exact nested (scope.annotation_follows below le_rfl).2
    · exact nested (scope.mapRecord_follows below step)
    · refine .same ?_
      split
      · exact (nested scope.mapSourceFile_follows).grows
      · exact .pure _

theorem mapAttributes_follows (items : List Attribute) :
    (scope.mapAttributes items).Follows ((scope.withRenamer more).mapAttributes items) :=
  scope.mapAttributesBy_follows (fun name info => scope.mapInfo_follows below le_rfl name info) items

end attributes

theorem mapField_follows (member : Member) :
    (scope.mapField member).Follows ((scope.withRenamer more).mapField member) :=
  scope.mapFieldBy_follows below (fun name info => scope.mapInfo_follows below le_rfl name info) member

theorem mapMethod_follows (member : Member) :
    (scope.mapMethod member).Follows ((scope.withRenamer more).mapMethod member) := by
  refine .bind (.read _) fun name => .bind (.read _) fun descriptor => ?_
  have finish (nameIndex : UInt16) : PoolM.Follows
      (do
        let newDescriptor ← scope.renamer.mapDescriptor descriptor
        let descriptorIndex ← scope.keepText member.descriptor newDescriptor
        let attributes ← PoolM.within (.attributesOfMethod name descriptor)
          (scope.mapAttributes member.attributes)
        return { member with name := nameIndex, descriptor := descriptorIndex, attributes })
      (do
        let newDescriptor ← more.mapDescriptor descriptor
        let descriptorIndex ← scope.keepText member.descriptor newDescriptor
        let attributes ← PoolM.within (.attributesOfMethod name descriptor)
          ((scope.withRenamer more).mapAttributes member.attributes)
        return { member with name := nameIndex, descriptor := descriptorIndex, attributes }) :=
    .bind (.lift (below.mapDescriptor _)) fun _ => .bind (.same (scope.keepText_grows _ _)) fun _ =>
      .bind (.within _ (scope.mapAttributes_follows below _)) fun _ => .pure _
  split
  · exact .bind (.pure _) finish
  · exact .bind (.lift (below.mapMethod _ _ _)) fun _ => .bind (.same (scope.keepText_grows _ _)) finish

theorem pair_follows {naming further : PoolM String} (named : naming.Follows further) (pairIndex : UInt16)
    (descriptor : String) : PoolM.Follows (do
        let newName ← naming
        let newDescriptor ← scope.renamer.mapDescriptor descriptor
        scope.keepNameAndType pairIndex newName newDescriptor)
      (do
        let newName ← further
        let newDescriptor ← more.mapDescriptor descriptor
        scope.keepNameAndType pairIndex newName newDescriptor) :=
  .bind named fun _ => .bind (.lift (below.mapDescriptor _)) fun _ => .same (scope.keepNameAndType_grows _ _ _)

theorem mapReference_follows {map further : (owner name descriptor : String) → Outcome String}
    (step : ∀ owner name descriptor, (map owner name descriptor).Below (further owner name descriptor))
    (ownerIndex pairIndex : UInt16) : (scope.mapReference map ownerIndex pairIndex).Follows
      ((scope.withRenamer more).mapReference further ownerIndex pairIndex) := by
  refine .bind (.read _) fun owner => .bind (.read _) fun ⟨name, descriptor⟩ => ?_
  simp only
  split
  · exact scope.pair_follows below (.pure name) _ _
  · exact scope.pair_follows below (.lift (.within _ (step _ _ _))) _ _

theorem mapCallSite_follows (index pairIndex : UInt16) :
    (scope.mapCallSite index pairIndex).Follows ((scope.withRenamer more).mapCallSite index pairIndex) := by
  refine .bind (.read _) fun ⟨name, descriptor⟩ => .bind (.read _) fun implemented => ?_
  cases implemented with
  | none => exact scope.pair_follows below (.pure name) _ _
  | some implemented =>
    simp only
    split
    · exact scope.pair_follows below (.stop _ _) _ _
    · exact scope.pair_follows below (.lift (.within _ (below.mapMethod _ _ _))) _ _

theorem mapConstant_follows (constant : Constant) :
    (scope.mapConstant constant).Follows ((scope.withRenamer more).mapConstant constant) := by
  unfold mapConstant
  split
  · exact .bind (.read _) fun _ => .bind (.lift (below.mapClassOrArray _)) fun _ =>
      .bind (.same (scope.keepText_grows _ _)) fun _ => .pure _
  · exact .bind (scope.mapReference_follows below below.mapField _ _) fun _ => .pure _
  · exact .bind (scope.mapReference_follows below below.mapMethod _ _) fun _ => .pure _
  · exact .bind (scope.mapReference_follows below below.mapMethod _ _) fun _ => .pure _
  · exact .bind (scope.mapDescriptorAt_follows below _) fun _ => .pure _
  · exact .bind (scope.mapCallSite_follows below _ _) fun _ => .pure _
  · exact .bind (.bind (.read _) fun _ => .bind (.lift (below.mapDescriptor _)) fun _ =>
      .same (scope.keepNameAndType_grows _ _ _)) fun _ => .pure _
  · exact .pure _

theorem mapFile_below (file : ClassFile) : (scope.mapFile file).Below ((scope.withRenamer more).mapFile file) := by
  refine .bind (.within _ (.forM (fun _ => ?_) _)) fun _ =>
    .bind (.mapM (fun member => .within _ (scope.mapField_follows below member).isBelow) _) fun _ =>
    .bind (.mapM (fun member => .within _ (scope.mapMethod_follows below member).isBelow) _) fun _ =>
    .bind (.within _ (scope.mapAttributes_follows below _).isBelow) fun _ => .refl _
  exact .bind (scope.mapConstant_follows below _).isBelow fun _ => .refl _

section growth

omit below

theorem mapInfo_grows (fuel : Nat) (name : String) (info : Bytes) : (scope.mapInfo fuel name info).Grows :=
  (scope.mapInfo_follows (.refl _) le_rfl name info).grows

theorem mapFieldBy_grows
    (grows : ∀ name info, (renew name info).Grows) (member : Member) : (scope.mapFieldBy renew member).Grows :=
  (scope.mapFieldBy_follows (.refl _) (fun name info => .same (grows name info)) member).grows

theorem mapAttributes_grows (items : List Attribute) : (scope.mapAttributes items).Grows :=
  (scope.mapAttributes_follows (.refl _) items).grows

theorem mapField_grows (member : Member) : (scope.mapField member).Grows :=
  (scope.mapField_follows (.refl _) member).grows

theorem mapMethod_grows (member : Member) : (scope.mapMethod member).Grows :=
  (scope.mapMethod_follows (.refl _) member).grows

end growth

end RemapScope

theorem remapClass_below {less : Renamer} (below : less.Below more) (options : RemapOptions)
    (bytes : Bytes) : (remapClass less options bytes).Below (remapClass more options bytes) := by
  intro out remapped
  obtain ⟨file, bootstraps, owner, newOwner, fields, methods, attributes, pool, written, parsed, listed,
    named, renamed, given, produced, rfl⟩ := remapClass_eq_ok.mp remapped
  let scope : RemapScope := { old := file.pool, renamer := less, options, owner, newOwner, bootstraps }
  have finished : ((scope.withRenamer more).mapFile file).Gives file.pool (fields, methods, attributes)
      pool := scope.mapFile_below below file _ _ _ given
  exact remapClass_eq_ok.mpr ⟨file, bootstraps, owner, newOwner, fields, methods, attributes, pool,
    written, parsed, listed, named, below.mapClass _ _ renamed, finished, produced, rfl⟩

end JarRemap
