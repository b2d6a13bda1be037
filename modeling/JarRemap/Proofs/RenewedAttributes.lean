import JarRemap.Proofs.ClassRemapping
import JarRemap.Proofs.Reproduction

/-!
# How an attribute comes out of remapping

Every attribute of the new class file stands in the place of an attribute of the old one: in the class, in
a member, or within a body of code or a record. Its content is what a single run made of the old content, after
all constants of the pool were remapped and before only names were added.
-/
namespace JarRemap

open List PoolM Outcome Reader Member

variable {pool after : ConstantPool} {items changed : List Attribute}

namespace RemapScope

variable {scope : RemapScope} {final : ConstantPool}

section content

/-- The second attribute is what a run, in which attributes stand in each other at most `depth` deep, made
of the first. All constants were remapped before the run, and `final` has at most more names than the pool
it left. -/
inductive RenewedWithin (scope : RemapScope) (final : ConstantPool) (depth : Nat) (before : Attribute) :
    Attribute → Prop
  | run {name : String} {pool after : ConstantPool} {answer : Option Bytes}
    (named : scope.old.text before.name = .ok name) (progress : scope.Progress [] pool)
    (given : (scope.mapInfo depth name before.info).Gives pool answer after) (grown : after.Grown final) :
    RenewedWithin scope final depth before { before with info := answer.getD before.info }

/-- The second attribute is what a run made of the first. -/
def Renewed (scope : RemapScope) (final : ConstantPool) (before after : Attribute) : Prop :=
  ∃ depth, scope.RenewedWithin final depth before after

theorem mapAttributesBy_renewed {depth : Bytes → Nat}
    (progress : scope.Progress [] pool) (grown : after.Grown final)
    (given : (scope.mapAttributesBy (fun name info => scope.mapInfo (depth info) name info) items).Gives
      pool changed after) :
    Forall₂ (fun before => scope.RenewedWithin final (depth before.info) before) items changed := by
  have steps := mapM_runs (fun item => .bind (.lift _) fun name =>
    .bind (.within _ (scope.mapInfo_grows _ name _)) fun answer => by
      cases answer <;> exact .pure _) given
  refine steps.imp ?_
  rintro item result ⟨start, finish, started, run, rest⟩
  simp only [gives_bind, gives_lift, gives_within] at run
  obtain ⟨name, _, ⟨named, rfl⟩, answer, left, given, ended⟩ := run
  have made : left.Grown final → scope.RenewedWithin final (depth item.info) item
      { item with info := answer.getD item.info } := .run named (progress.grown started) given
  cases answer with
  | none | some info =>
    obtain ⟨rfl, rfl⟩ := gives_pure.mp ended
    exact made (rest.trans grown)

variable {depth : Nat} {before result : Attribute}

section

variable (renewed : scope.RenewedWithin final depth before result)
include renewed

/-- What was renewed took one of the ways, with attributes that stand in each other less deep. -/
theorem RenewedWithin.renewal {name : String} (named : scope.old.text before.name = .ok name) :
    ∃ fuel pool after answer, depth = fuel + 1 ∧ scope.Progress [] pool ∧
      Renewal scope fuel name before.info pool after answer ∧ after.Grown final ∧
      result = { before with info := answer.getD before.info } := by
  obtain ⟨read, progress, given, grown⟩ := renewed
  obtain rfl := unique named read
  cases depth with
  | zero => exact absurd given not_gives_fail
  | succ fuel => exact ⟨fuel, _, _, _, rfl, progress, mapInfo_renewal given, grown, rfl⟩

theorem RenewedWithin.code (named : scope.old.text before.name = .ok "Code") :
    ∃ fuel body rest attributes, depth = fuel + 1 ∧ Code.reader before.info = .ok (body, rest) ∧
      Code.reader result.info = .ok ({ body with attributes }, []) ∧
      Forall₂ (scope.RenewedWithin final fuel) body.attributes attributes := by
  obtain ⟨fuel, pool, after, answer, rfl, progress, renewal, grown, rfl⟩ := renewed.renewal named
  cases renewal with
  | kept nameless => exact absurd nameless (by decide)
  | names holds passes run =>
    cases holds
    cases passes
  | record impossible => exact absurd impossible (by decide)
  | code _ parsed run reread =>
    exact ⟨fuel, _, _, _, rfl, parsed, reread, mapAttributesBy_renewed progress grown run⟩

theorem RenewedWithin.record (named : scope.old.text before.name = .ok "Record") :
    ∃ fuel components changed, depth = fuel + 1 ∧ list readComponent before.info = .ok (components, []) ∧
      list readComponent result.info = .ok (changed, []) ∧
      Forall₂ (fun component other => Forall₂ (scope.RenewedWithin final fuel)
        component.attributes other.attributes) components changed := by
  obtain ⟨fuel, pool, after, answer, rfl, progress, renewal, grown, rfl⟩ := renewed.renewal named
  cases renewal with
  | kept nameless => exact absurd nameless (by decide)
  | names holds passes run =>
    cases holds
    cases passes
  | code impossible => exact absurd impossible (by decide)
  | record _ parsed run reread =>
    refine ⟨fuel, _, _, rfl, parsed, reread, ?_⟩
    have steps := mapM_runs (scope.mapFieldBy_grows (scope.mapInfo_grows fuel)) run
    refine steps.imp ?_
    rintro component other ⟨start, finish, started, mapped, rest⟩
    obtain ⟨-, between, more, attributes⟩ := mapFieldBy_attributes mapped
    exact mapAttributesBy_renewed (progress.grown (started.trans more)) (rest.trans grown) attributes

end

end content

end RemapScope

section files

variable {before : Attribute} {old new : ClassFile} {scope : RemapScope}

/-- The two attributes stand in the same place of two class files. Within a body of code or a record the
place is told by the position there. -/
inductive SamePlace (old new : ClassFile) : Attribute → Attribute → Prop
  | ofClass {place : Nat} {before after : Attribute} (was : old.attributes[place]? = some before)
    (is : new.attributes[place]? = some after) : SamePlace old new before after
  | ofField {position place : Nat} {member changed : Member} {before after : Attribute}
    (declared : old.fields[position]? = some member) (again : new.fields[position]? = some changed)
    (was : member.attributes[place]? = some before) (is : changed.attributes[place]? = some after) :
    SamePlace old new before after
  | ofMethod {position place : Nat} {member changed : Member} {before after : Attribute}
    (declared : old.methods[position]? = some member) (again : new.methods[position]? = some changed)
    (was : member.attributes[place]? = some before) (is : changed.attributes[place]? = some after) :
    SamePlace old new before after
  | inCode {place : Nat} {outer changed before after : Attribute} {body newBody : Code} {rest more : Bytes}
    (within : SamePlace old new outer changed) (named : old.pool.text outer.name = .ok "Code")
    (read : Code.reader outer.info = .ok (body, rest))
    (reread : Code.reader changed.info = .ok (newBody, more))
    (was : body.attributes[place]? = some before) (is : newBody.attributes[place]? = some after) :
    SamePlace old new before after
  | inRecord {position place : Nat} {outer changed before after : Attribute}
    {components newComponents : List Member} {component newComponent : Member} {rest more : Bytes}
    (within : SamePlace old new outer changed) (named : old.pool.text outer.name = .ok "Record")
    (read : list readComponent outer.info = .ok (components, rest))
    (reread : list readComponent changed.info = .ok (newComponents, more))
    (listed : components[position]? = some component)
    (again : newComponents[position]? = some newComponent)
    (was : component.attributes[place]? = some before)
    (is : newComponent.attributes[place]? = some after) : SamePlace old new before after

/-- The attributes of the class and of its members are renewed in their places. -/
structure RemapScope.RenewedFile (scope : RemapScope) (old new : ClassFile) : Prop where
  fields : Forall₂ (fun member changed => Forall₂ (scope.Renewed new.pool)
    member.attributes changed.attributes) old.fields new.fields
  methods : Forall₂ (fun member changed => Forall₂ (scope.Renewed new.pool)
    member.attributes changed.attributes) old.methods new.methods
  attributes : Forall₂ (scope.Renewed new.pool) old.attributes new.attributes

/-- In every place, the new attribute is what a run made of the old one. The induction follows the place
from the outside to the inside. -/
theorem RemapScope.RenewedFile.renewed (file : scope.RenewedFile old new)
    (pool : scope.old = old.pool) {after : Attribute} (same : SamePlace old new before after) :
    scope.Renewed new.pool before after := by
  induction same with
  | ofClass was is => exact forall₂_getElem? file.attributes was is
  | ofField declared again was is =>
    exact forall₂_getElem? (forall₂_getElem? file.fields declared again) was is
  | ofMethod declared again was is =>
    exact forall₂_getElem? (forall₂_getElem? file.methods declared again) was is
  | inCode _ named read reread was is ih =>
    obtain ⟨depth, outer⟩ := ih
    obtain ⟨fuel, body, rest, attributes, -, parsed, written, inner⟩ := outer.code (pool ▸ named)
    obtain ⟨⟩ := unique parsed read
    obtain ⟨⟩ := unique written reread
    exact ⟨fuel, forall₂_getElem? inner was is⟩
  | inRecord _ named read reread listed again was is ih =>
    obtain ⟨depth, outer⟩ := ih
    obtain ⟨fuel, components, changed, -, parsed, written, inner⟩ := outer.record (pool ▸ named)
    obtain ⟨⟩ := unique parsed read
    obtain ⟨⟩ := unique written reread
    exact ⟨fuel, forall₂_getElem? (forall₂_getElem? inner listed again) was is⟩

/-- No place is lost: there is an attribute in the place of every old one, however deep that stands. -/
theorem RemapScope.RenewedFile.exists_samePlace (file : scope.RenewedFile old new)
    (pool : scope.old = old.pool) {item : Attribute} (listed : item ∈ old.allAttributes)
    (path : Relation.ReflTransGen (Attribute.Contains old.pool) item before) :
    ∃ after, SamePlace old new before after := by
  induction path with
  | refl =>
    simp only [ClassFile.allAttributes, mem_append, mem_flatMap] at listed
    simp only [mem_iff_getElem?] at listed
    rcases listed with (⟨place, was⟩ | ⟨_, ⟨position, declared⟩, place, was⟩) |
      ⟨_, ⟨position, declared⟩, place, was⟩
    · obtain ⟨after, is⟩ := forall₂_exists_getElem? file.attributes was
      exact ⟨after, .ofClass was is⟩
    · obtain ⟨changed, again⟩ := forall₂_exists_getElem? file.fields declared
      obtain ⟨after, is⟩ := forall₂_exists_getElem? (forall₂_getElem? file.fields declared again) was
      exact ⟨after, .ofField declared again was is⟩
    · obtain ⟨changed, again⟩ := forall₂_exists_getElem? file.methods declared
      obtain ⟨after, is⟩ := forall₂_exists_getElem? (forall₂_getElem? file.methods declared again) was
      exact ⟨after, .ofMethod declared again was is⟩
  | tail _ contains ih =>
    obtain ⟨changed, same⟩ := ih
    obtain ⟨depth, outer⟩ := file.renewed pool same
    cases contains with
    | code named read member =>
      obtain ⟨fuel, body, rest, attributes, -, parsed, written, inner⟩ := outer.code (pool ▸ named)
      obtain ⟨⟩ := unique parsed read
      obtain ⟨place, was⟩ := mem_iff_getElem?.mp member
      obtain ⟨after, is⟩ := forall₂_exists_getElem? inner was
      exact ⟨after, .inCode same named read written was is⟩
    | record named read listed member =>
      obtain ⟨fuel, components, newComponents, -, parsed, written, inner⟩ := outer.record (pool ▸ named)
      obtain ⟨⟩ := unique parsed read
      obtain ⟨position, placed⟩ := mem_iff_getElem?.mp listed
      obtain ⟨other, again⟩ := forall₂_exists_getElem? inner placed
      obtain ⟨place, was⟩ := mem_iff_getElem?.mp member
      obtain ⟨after, is⟩ := forall₂_exists_getElem? (forall₂_getElem? inner placed again) was
      exact ⟨after, .inRecord same named read written placed again was is⟩

namespace RemapScope

variable {scope : RemapScope} {final : ConstantPool}

theorem mapAttributes_renewed (progress : scope.Progress [] pool)
    (grown : after.Grown final) (given : (scope.mapAttributes items).Gives pool changed after) :
    Forall₂ (scope.Renewed final) items changed :=
  (mapAttributesBy_renewed progress grown given).imp fun _ _ renewed => ⟨_, renewed⟩

theorem RanFile.renewed (file : scope.RanFile old new) : scope.RenewedFile old new := by
  refine ⟨file.ranFields.imp ?_, file.ranMethods.imp ?_, ?_⟩
  · rintro member changed ⟨start, finish, progress, run, rest⟩
    obtain ⟨-, between, more, attributes⟩ := mapFieldBy_attributes run
    exact mapAttributes_renewed (progress.grown more) rest attributes
  · rintro member changed ⟨start, finish, progress, run, rest⟩
    obtain ⟨-, between, more, attributes⟩ := mapMethod_remapped ⟨progress.wellFormed, progress.keeps⟩ run
    exact mapAttributes_renewed (progress.grown more) rest attributes
  · obtain ⟨start, finish, progress, run, rest⟩ := file.ranAttributes
    exact mapAttributes_renewed progress rest run

end RemapScope

/-- A class file that was remapped can be read again, with every constant remapped and every attribute
renewed in its place. -/
theorem remapClass_renewed {renamer : Renamer} {options : RemapOptions} {bytes : Bytes}
    {out : RemappedClass} (remapped : remapClass renamer options bytes = .ok out) :
    ∃ old new bootstraps, ClassFile.read bytes = .ok old ∧ ClassFile.read out.bytes = .ok new ∧
      old.name = .ok out.oldName ∧ RemappedFile renamer bootstraps out.oldName old new ∧ RemapScope.RenewedFile
        { old := old.pool, renamer, options, owner := out.oldName, newOwner := out.newName, bootstraps }
        old new := by
  obtain ⟨old, new, bootstraps, parsed, reparsed, -, named, -, file⟩ := remapClass_ran remapped
  exact ⟨old, new, bootstraps, parsed, reparsed, named, file.toRemappedFile, file.renewed⟩

end files

end JarRemap
