import JarRemap.ClassFile.InnerClass
import JarRemap.Proofs.UntouchedParts

/-!
# Simple names of inner classes

The list of inner classes gives a class, the class it is in and its simple name, by their places in the pool. Both
classes have their new names before the list is renewed, so the new simple name can be told from them. It is told
only where the class has a new name and the old simple name followed from the old names in the same way.
-/
namespace JarRemap

open List Reader PoolM ConstantPool

/-- An entry of the list of inner classes, by places in the pool; zero stands for nothing. -/
structure InnerEntry where
  inner : UInt16
  outer : UInt16
  name : UInt16
  flags : UInt16

namespace InnerEntry

def read : Reader InnerEntry := do
  let inner ← u16
  let outer ← u16
  let name ← u16
  let flags ← u16
  return { inner, outer, name, flags }

/-- The entry has the names, as the pool tells them. -/
structure Names (pool : ConstantPool) (entry : InnerEntry) (inner outer simple : String) : Prop where
  inner : pool.className entry.inner = .ok inner
  outer : pool.className? entry.outer = .ok (some outer)
  simple : pool.text entry.name = .ok simple

/-- How an entry comes out of remapping. -/
structure Follows (renamer : Renamer) (old new : ConstantPool) (before after : InnerEntry) : Prop where
  inner : after.inner = before.inner
  outer : after.outer = before.outer
  flags : after.flags = before.flags
  absent : before.name = 0 → after.name = 0
  names : ∀ inner outer simple, before.Names old inner outer simple →
    ∃ newInner newOuter newSimple, renamer.mapClassOrArray inner = .ok newInner ∧
      renamer.mapClassOrArray outer = .ok newOuter ∧ after.Names new newInner newOuter newSimple ∧
      (inner = outer ++ "$" ++ simple → newInner ≠ inner →
        ∀ rest, newInner = newOuter ++ "$" ++ rest → newSimple = rest) ∧
      (simple ≠ RemapScope.simpleName inner (some outer) ∨ newInner = inner →
        after.name = before.name ∧ newSimple = simple)

end InnerEntry

variable {scope : RemapScope} {pool after final : ConstantPool} {entry result : InnerEntry}

namespace RemapScope

theorem simpleName_append (outer rest : String) : simpleName (outer ++ "$" ++ rest) (some outer) = rest := by
  have cut : Text.stripStart? (outer ++ "$") (outer ++ "$" ++ rest) = some rest := by
    rw [Text.stripStart?, Text.dropStart?_eq_some.mpr (String.toList_append ..)]
    simp
  simp [simpleName, cut]

def mapEntry (scope : RemapScope) (entry : InnerEntry) : PoolM InnerEntry := do
  let name ← scope.mapSimpleName entry.inner entry.outer entry.name
  return { entry with name }

theorem mapEntry_grows (scope : RemapScope) (entry : InnerEntry) : (scope.mapEntry entry).Grows :=
  .bind (scope.mapSimpleName_grows _ _ _) fun _ => .pure _

theorem mapInnerClasses_rewrites :
    scope.mapInnerClasses.Rewrites (list InnerEntry.read) (List.mapM scope.mapEntry) := by
  refine AttributeM.Rewrites.list ?_
  intro pool input written rest after given
  simp only [AttributeM.gives_bind, AttributeM.gives_take, AttributeM.gives_lift, AttributeM.gives_pure,
    u16_eq_ok] at given
  obtain ⟨inner, _, _, ⟨rfl, rfl⟩, outer, _, _, ⟨rfl, rfl⟩, name, _, _, ⟨rfl, rfl⟩, flags, _, _, ⟨rfl, rfl⟩,
    slot, _, _, ⟨run, rfl⟩, rfl, rfl, rfl⟩ := given
  refine ⟨⟨inner, outer, name, flags⟩, ⟨inner, outer, slot, flags⟩, ?_, ?_, fun more => ?_⟩
  · simp [InnerEntry.read]
  · simp only [mapEntry, gives_bind, gives_pure]
    exact ⟨slot, _, run, rfl, rfl⟩
  · simp [InnerEntry.read]

theorem Progress.className_eq (progress : scope.Progress [] pool) {index : UInt16} {name : String}
    (read : scope.old.className index = .ok name) :
    ∃ newName, scope.renamer.mapClassOrArray name = .ok newName ∧ pool.className index = .ok newName := by
  obtain ⟨slot, held, spelled⟩ := className_eq_ok.mp read
  obtain ⟨_, placed, remapped⟩ := progress.done index _ held (by simp)
  cases remapped with
  | classRef again mapped written =>
    obtain rfl := Outcome.unique spelled again
    exact ⟨_, mapped, className_eq_ok.mpr ⟨_, placed, written⟩⟩
  | other nameless => simp [Constant.namesSymbol] at nameless

end RemapScope

namespace ConstantPool

variable {index : UInt16} {name : String}

theorem className?_eq_some : pool.className? index = .ok (some name) ↔ index ≠ 0 ∧ pool.className index = .ok name := by
  rw [className?]
  by_cases absent : index = 0 <;> simp [absent]

theorem Grown.className (grown : pool.Grown after) (found : pool.className index = .ok name) :
    after.className index = .ok name := by
  obtain ⟨slot, held, named⟩ := className_eq_ok.mp found
  exact className_eq_ok.mpr ⟨slot, grown.constant? held, grown.keepsNames.text named⟩

theorem WellFormed.ne_zero (wellFormed : pool.WellFormed) (found : pool.text index = .ok name) : index ≠ 0 := by
  rintro rfl
  obtain ⟨_, held, -⟩ := text_eq_ok.mp found
  obtain ⟨constants, laidOut⟩ := wellFormed.laidOut
  rw [constant?_eq_some, laidOut] at held
  cases held

end ConstantPool

namespace RemapScope

/-- The run of one entry, once all constants are remapped. Whichever way it takes, the classes have the same names
in every pool that comes later. -/
theorem mapEntry_follows (progress : scope.Progress [] pool) (grown : after.Grown final)
    (given : (scope.mapEntry entry).Gives pool result after) : entry.Follows scope.renamer scope.old final result := by
  simp only [mapEntry, gives_bind, gives_pure] at given
  obtain ⟨slot, _, run, rfl, rfl⟩ := given
  have later := (scope.mapSimpleName_grows _ _ _ _ _ _ run).trans grown
  rw [mapSimpleName] at run
  refine ⟨rfl, rfl, rfl, fun absent => ?_, fun inner outer simple names => ?_⟩
  · rw [if_pos absent] at run
    exact (gives_pure.mp run).1.symm
  obtain ⟨innerRead, outerRead, simpleRead⟩ := names
  obtain ⟨present, outerNamed⟩ := className?_eq_some.mp outerRead
  obtain ⟨newInner, innerMapped, newInnerRead⟩ := progress.className_eq innerRead
  obtain ⟨newOuter, outerMapped, newOuterNamed⟩ := progress.className_eq outerNamed
  have newOuterRead : pool.className? entry.outer = .ok (some newOuter) :=
    className?_eq_some.mpr ⟨present, newOuterNamed⟩
  have kept : final.text entry.name = .ok simple := later.keepsNames.text (progress.keeps.text simpleRead)
  have named (newSimple : String) (written : final.text slot = .ok newSimple) :
      InnerEntry.Names final { entry with name := slot } newInner newOuter newSimple :=
    ⟨later.className newInnerRead, className?_eq_some.mpr ⟨present, later.className newOuterNamed⟩, written⟩
  rw [if_neg (progress.wellFormed.ne_zero (progress.keeps.text simpleRead))] at run
  simp only [gives_bind, gives_lift, gives_get, innerRead, Except.ok.injEq] at run
  obtain ⟨_, _, ⟨rfl, rfl⟩, _, _, ⟨rfl, rfl⟩, _, _, ⟨innerThere, rfl⟩, run⟩ := run
  obtain rfl := Outcome.unique newInnerRead innerThere
  split at run
  case isTrue same =>
    obtain ⟨rfl, rfl⟩ := gives_pure.mp run
    exact ⟨newInner, newOuter, simple, innerMapped, outerMapped, named simple kept,
      fun _ renamed => absurd same.symm renamed, fun _ => ⟨rfl, rfl⟩⟩
  case isFalse renamed =>
    simp only [gives_bind, gives_lift, outerRead, newOuterRead, simpleRead, Except.ok.injEq] at run
    obtain ⟨_, _, ⟨rfl, rfl⟩, _, _, ⟨rfl, rfl⟩, _, _, ⟨rfl, rfl⟩, run⟩ := run
    split at run
    case isTrue other =>
      obtain ⟨rfl, rfl⟩ := gives_pure.mp run
      refine ⟨newInner, newOuter, simple, innerMapped, outerMapped, named simple kept, ?_, fun _ => ⟨rfl, rfl⟩⟩
      rintro rfl
      exact absurd (simpleName_append outer simple) other
    case isFalse derived =>
      have written := grown.keepsNames.text (keepText_resolves progress.wellFormed progress.keeps run)
      refine ⟨newInner, newOuter, _, innerMapped, outerMapped, named _ written, ?_, ?_⟩
      · rintro - - rest rfl
        exact simpleName_append newOuter rest
      · rintro (underived | same)
        · exact absurd (not_not.mp derived).symm underived
        · exact absurd same.symm renamed

end RemapScope

/-- Each list of inner classes stands in the place of the old one and follows it entry by entry. -/
def FollowsInnerClasses (renamer : Renamer) (old new : ClassFile) : Prop :=
  Forall₂ (fun before after => old.pool.text before.name = .ok "InnerClasses" →
    new.pool.text after.name = .ok "InnerClasses" ∧
    ∃ entries renewed, list InnerEntry.read before.info = .ok (entries, []) ∧
      list InnerEntry.read after.info = .ok (renewed, []) ∧
      Forall₂ (InnerEntry.Follows renamer old.pool new.pool) entries renewed) old.attributes new.attributes

/-- Inner classes are listed in the same order, with the same places of their classes and the same flags. A simple
name that followed from the names of the classes goes on to follow from them, if the inner class is renamed, and all
others stay. -/
theorem remapClass_innerClasses {renamer : Renamer} {options : RemapOptions} {bytes : Bytes} {out : RemappedClass}
    (remapped : remapClass renamer options bytes = .ok out) :
    ∃ old new, ClassFile.read bytes = .ok old ∧ ClassFile.read out.bytes = .ok new ∧
      FollowsInnerClasses renamer old new := by
  obtain ⟨old, new, bootstraps, parsed, reparsed, -, -, file⟩ := remapClass_renewed remapped
  refine ⟨old, new, parsed, reparsed, file.attributes.imp ?_⟩
  rintro before after ⟨depth, renewed⟩ named
  obtain ⟨_, again, kept⟩ := renewed.name_eq
  obtain rfl := Except.ok.inj (named.symm.trans again)
  refine ⟨kept, ?_⟩
  obtain ⟨_, pool, left, answer, -, progress, renewal, grown, rfl⟩ := renewed.renewal named
  cases renewal with
  | kept nameless => exact absurd nameless (by decide)
  | code impossible | record impossible => exact absurd impossible (by decide)
  | names holds passes run =>
    cases holds
    cases passes
    obtain ⟨entries, results, read, runs, reread⟩ := RemapScope.mapInnerClasses_rewrites _ _ _ _ _ run
    refine ⟨entries, results, read, by simpa using reread [], ?_⟩
    refine (PoolM.mapM_runs (RemapScope.mapEntry_grows _) runs).imp ?_
    rintro entry result ⟨start, finish, started, given, rest⟩
    exact RemapScope.mapEntry_follows (progress.grown started) (rest.trans grown) given

/-- The class `A$I`, which lists itself as the class `I` in `A`. -/
def nestedClass : Bytes := [0xca,0xfe,0xba,0xbe,0,0,0,52,0,7,1,0,3,65,36,73,7,0,1,1,0,1,65,7,0,3,1,
  0,1,73,1,0,12,73,110,110,101,114,67,108,97,115,115,101,115,0,32,0,2,0,0,0,0,0,0,0,0,0,1,0,6,0,0,0,
  10,0,1,0,2,0,4,0,5,0,9]

def nestedTable : MappingTable := ((MappingTable.empty "a" "b").insertClass "A" "p/B").insertClass "A$I" "p/B$J"

def listedIn (bytes : Bytes) : Option (List InnerClass) := do
  let file ← (ClassFile.read bytes).toOption
  file.innerClasses.toOption

theorem remapClass_innerClasses_nestedClass : listedIn nestedClass = some [⟨"A$I", some "A", some "I", 9⟩] ∧
    ∃ out, remapClass nestedTable.renamer {} nestedClass = .ok out ∧
      listedIn out.bytes = some [⟨"p/B$J", some "p/B", some "J", 9⟩] ∧
      ∃ old new, ClassFile.read nestedClass = .ok old ∧ ClassFile.read out.bytes = .ok new ∧
        FollowsInnerClasses nestedTable.renamer old new := by
  obtain ⟨before, after⟩ : listedIn nestedClass = some [⟨"A$I", some "A", some "I", 9⟩] ∧
      (remapClass nestedTable.renamer {} nestedClass).toOption.bind (listedIn ·.bytes) =
        some [⟨"p/B$J", some "p/B", some "J", 9⟩] := by decide +kernel
  obtain ⟨out, remapped, listed⟩ := Option.bind_eq_some_iff.mp after
  obtain remapped : remapClass nestedTable.renamer {} nestedClass = .ok out := by
    cases ran : remapClass nestedTable.renamer {} nestedClass with
    | error => simp [ran, Except.toOption] at remapped
    | ok => simpa [ran, Except.toOption] using remapped
  exact ⟨before, out, remapped, listed, remapClass_innerClasses remapped⟩

end JarRemap
