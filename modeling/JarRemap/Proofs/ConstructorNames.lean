import JarRemap.Proofs.RemappedSymbols
import JarRemap.Proofs.RenewedAttributes

/-!
# Names of constructors and initialisers

A name that starts with an angle bracket stays where methods are declared and where constants refer to them,
whatever the renamer answers. The attribute that names the enclosing method asks the renamer for every name. If
that has an answer for a constructor, the attribute names a method that its class does not declare.
-/
namespace JarRemap

open AttributeM

/-- What remapping makes of the content of an attribute that names the enclosing method. The index of the
class stays. The method, if there is one, has the name that the renamer gives, of whatever kind it is. -/
inductive RemappedEnclosing (renamer : Renamer) (old new : ConstantPool) : Bytes → Bytes → Prop
  | absent {owner : UInt16} :
    RemappedEnclosing renamer old new (u16Bytes owner ++ u16Bytes 0) (u16Bytes owner ++ u16Bytes 0)
  | method {owner pair newPair : UInt16} {ownerName : String} (present : pair ≠ 0)
    (read : old.className owner = .ok ownerName)
    (remapped : RemappedPair renamer old new (fun name descriptor newName =>
      renamer.mapMethod ownerName name descriptor = .ok newName) pair newPair) :
    RemappedEnclosing renamer old new (u16Bytes owner ++ u16Bytes pair) (u16Bytes owner ++ u16Bytes newPair)

/-- What becomes of names that start with an angle bracket. They stay where methods are declared and where
constants refer to methods. -/
structure SpecialNames (renamer : Renamer) (old new : ClassFile) : Prop where
  declared : ∀ (position : Nat) (name descriptor : String),
    (old.signatures .method)[position]? = some (some (name, descriptor)) → Text.startsWith '<' name →
    ∃ newDescriptor, (new.signatures .method)[position]? = some (some (name, newDescriptor))
  referenced : ∀ index owner name descriptor,
    old.pool.symbolAt? index = some (.member ⟨.method, owner, name, descriptor⟩) →
    Text.startsWith '<' name → ∃ newOwner newDescriptor,
      new.pool.symbolAt? index = some (.member ⟨.method, newOwner, name, newDescriptor⟩)
  enclosing : ∀ before after, SamePlace old new before after →
    old.pool.text before.name = .ok "EnclosingMethod" →
    RemappedEnclosing renamer old.pool new.pool before.info after.info

theorem RemappedEnclosing.mono {renamer : Renamer} {old new later : ConstantPool} {before after : Bytes}
    (keeps : new.KeepsNames later) (remapped : RemappedEnclosing renamer old new before after) :
    RemappedEnclosing renamer old later before after := by
  cases remapped with
  | absent => exact .absent
  | method present read remapped => exact .method present read (remapped.mono keeps)

namespace RemapScope

variable {scope : RemapScope} {pool after : ConstantPool}

theorem mapEnclosingMethod_remapped (wellFormed : pool.WellFormed) (keeps : scope.old.KeepsNames pool)
    {info written : Bytes} (given : PoolM.Gives (scope.mapEnclosingMethod info) pool (written, []) after) :
    RemappedEnclosing scope.renamer scope.old after info written := by
  simp only [mapEnclosingMethod, gives_bind, gives_take, Reader.u16_eq_ok,
    gives_lift, gives_pure] at given
  obtain ⟨owner, _, _, ⟨rfl, rfl⟩, pair, _, _, ⟨rfl, rfl⟩, newPair, _, _, ⟨enclosing, rfl⟩, rfl, rfl, rfl⟩ := given
  rw [List.append_nil]
  unfold mapEnclosing at enclosing
  split at enclosing
  case isTrue none =>
    obtain ⟨rfl, rfl⟩ := PoolM.gives_pure.mp enclosing
    rw [none]
    exact .absent
  case isFalse present =>
    simp only [PoolM.gives_bind, PoolM.gives_lift] at enclosing
    obtain ⟨ownerName, _, ⟨read, rfl⟩, ⟨name, descriptor⟩, _, ⟨pairRead, rfl⟩, newName, _, ⟨named, rfl⟩,
      newDescriptor, _, ⟨mapped, rfl⟩, kept⟩ := enclosing
    exact .method present read ⟨name, descriptor, newName, newDescriptor, pairRead, named, mapped,
      keepNameAndType_resolves wellFormed keeps kept⟩

theorem RenewedWithin.enclosing {final : ConstantPool} {depth : Nat} {before result : Attribute}
    (renewed : scope.RenewedWithin final depth before result)
    (named : scope.old.text before.name = .ok "EnclosingMethod") :
    RemappedEnclosing scope.renamer scope.old final before.info result.info := by
  obtain ⟨fuel, pool, after, answer, rfl, progress, renewal, grown, rfl⟩ := renewed.renewal named
  cases renewal with
  | kept nameless => exact absurd nameless (by decide)
  | code impossible | record impossible => exact absurd impossible (by decide)
  | names holds passes run =>
    cases holds
    cases passes
    exact (mapEnclosingMethod_remapped progress.wellFormed progress.keeps run).mono grown.keepsNames

end RemapScope

section remapClass

variable {renamer : Renamer} {options : RemapOptions} {bytes : Bytes} {out : RemappedClass}

/-- Constructors and initialisers keep their names where they are declared and where constants refer to
them. Where an attribute names one as the enclosing method, it gets the name that the renamer has for it:
it stays exactly if the renamer answers with the same name. -/
theorem remapClass_specialNames (remapped : remapClass renamer options bytes = .ok out) :
    ∃ old new, ClassFile.read bytes = .ok old ∧ ClassFile.read out.bytes = .ok new ∧
      SpecialNames renamer old new := by
  obtain ⟨old, new, bootstraps, parsed, reparsed, -, file, renewed⟩ := remapClass_renewed remapped
  refine ⟨old, new, parsed, reparsed, ?_, ?_, ?_⟩
  · intro position name descriptor declared special
    obtain ⟨newName, newDescriptor, named, -, redeclared⟩ := file.signatures_getElem? declared
    obtain rfl : name = newName := by simpa [declaredMemberName, declaredMethodName, special] using named
    exact ⟨newDescriptor, redeclared⟩
  · intro index owner name descriptor read special
    obtain ⟨newOwner, newName, newDescriptor, named, -, written⟩ := file.symbolAt?_eq read
    obtain rfl : name = newName := by simpa [referenceName, special] using named
    exact ⟨newOwner, newDescriptor, written⟩
  · intro before after same named
    obtain ⟨depth, inner⟩ := renewed.renewed rfl same
    exact inner.enclosing named

/-- The class `A$1`, which is enclosed in the constructor of `A`. -/
def enclosedClass : Bytes := [0xca,0xfe,0xba,0xbe,0,0,0,52,0,11,1,0,3,65,36,49,7,0,1,1,0,1,65,7,0,3,
  1,0,6,60,105,110,105,116,62,1,0,3,40,41,86,12,0,5,0,6,1,0,15,69,110,99,108,111,115,105,110,103,77,
  101,116,104,111,100,1,0,16,106,97,118,97,47,108,97,110,103,47,79,98,106,101,99,116,7,0,9,0,32,0,2,
  0,10,0,0,0,0,0,0,0,1,0,8,0,0,0,4,0,4,0,7]

def constructorTable : MappingTable :=
  (MappingTable.empty "a" "b").insertMember ⟨"A", .method, ⟨"<init>", "()V"⟩, "create"⟩

theorem remapClass_specialNames_enclosedClass :
    ∃ out, remapClass constructorTable.renamer {} enclosedClass = .ok out ∧
      ∃ old new, ClassFile.read enclosedClass = .ok old ∧ ClassFile.read out.bytes = .ok new ∧
        SpecialNames constructorTable.renamer old new := by
  obtain ⟨out, remapped⟩ : ∃ out, remapClass constructorTable.renamer {} enclosedClass = .ok out :=
    Outcome.exists_of_isOk (by decide +kernel)
  exact ⟨out, remapped, remapClass_specialNames remapped⟩

/-- What the class file names as its enclosing method, if its first attribute does so. -/
def ClassFile.enclosingMethod? (file : ClassFile) : Option (String × String × String) := do
  let item ← file.attributes.head?
  let name ← (file.pool.text item.name).toOption
  guard (name = "EnclosingMethod")
  let ((owner, pair), _) ← ((do return (← Reader.u16, ← Reader.u16) : Reader _) item.info).toOption
  let owner ← (file.pool.className owner).toOption
  let (name, descriptor) ← (file.pool.nameAndType pair).toOption
  return (owner, name, descriptor)

/-- A constructor can be renamed: the class `A` goes on to declare its constructor, but `A$1` names another
method as the one that encloses it. -/
theorem enclosing_constructor_renamed :
    ((ClassFile.read enclosedClass).map ClassFile.enclosingMethod? = .ok (some ("A", "<init>", "()V"))) ∧
      (do
        let out ← remapClass constructorTable.renamer {} enclosedClass
        let new ← ClassFile.read out.bytes
        return new.enclosingMethod?) = .ok (some ("A", "create", "()V")) ∧
      declaredMethodName constructorTable.renamer "A" "<init>" "()V" = .ok "<init>" := by
  decide +kernel

end remapClass

end JarRemap
