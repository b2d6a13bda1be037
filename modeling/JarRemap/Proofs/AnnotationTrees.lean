import JarRemap.Proofs.UntouchedParts

/-!
# Annotations as trees

The content of an annotation attribute spells a tree, with indices into the pool for names. Remapping goes
through the bytes once and builds no tree. Here a tree is read from the old content and one from the new content:
the second is the first with its names replaced, however deep its values nest.
-/
namespace JarRemap

open AttributeM Reader List Descriptor ConstantPool

mutual

inductive AnnotationTree where
  | mk (descriptor : String) (elements : List (String × ElementValue))

/-- The value of an element. A constant is told by its tag and its place in the pool. -/
inductive ElementValue where
  | constant (tag : UInt8) (index : UInt16)
  | enumConstant (descriptor name : String)
  | classLiteral (descriptor : String)
  | nested (tree : AnnotationTree)
  | array (values : List ElementValue)

end

def ConstantPool.textReader (pool : ConstantPool) : Reader String := do
  let index ← u16
  pool.text index

mutual

/-- Reads an annotation in which values nest at most as deep as told. -/
def AnnotationTree.reader (pool : ConstantPool) : (depth : Nat) → Reader AnnotationTree
  | 0 => fail .nestingTooDeep
  | depth + 1 => do
    let descriptor ← pool.textReader
    let elements ← list do
      let name ← pool.textReader
      let value ← ElementValue.reader pool depth
      return (name, value)
    return .mk descriptor elements

def ElementValue.reader (pool : ConstantPool) : (depth : Nat) → Reader ElementValue
  | 0 => fail .nestingTooDeep
  | depth + 1 => do
    let tag ← u8
    match Char.ofNat tag.toNat with
    | 'B' | 'C' | 'D' | 'F' | 'I' | 'J' | 'S' | 'Z' | 's' =>
      let index ← u16
      return .constant tag index
    | 'e' =>
      let descriptor ← pool.textReader
      let name ← pool.textReader
      return .enumConstant descriptor name
    | 'c' => .classLiteral <$> pool.textReader
    | '@' => .nested <$> AnnotationTree.reader pool depth
    | '[' => .array <$> list (ElementValue.reader pool depth)
    | _ => fail (.unknownElementTag tag)

end

inductive AnnotationForm where
  | declaration
  | parameters
  | default
deriving DecidableEq

/-- The content of an annotation attribute: the annotations of a declaration or of each of its parameters, or
the default of an element. -/
inductive AnnotationContent where
  | declaration (annotations : List AnnotationTree)
  | parameters (annotations : List (List AnnotationTree))
  | default (value : ElementValue)

namespace AnnotationForm

def ofName? : String → Option AnnotationForm
  | "RuntimeVisibleAnnotations" | "RuntimeInvisibleAnnotations" => some .declaration
  | "RuntimeVisibleParameterAnnotations" | "RuntimeInvisibleParameterAnnotations" => some .parameters
  | "AnnotationDefault" => some .default
  | _ => none

def kind : AnnotationForm → AttributeKind
  | declaration => .annotations
  | parameters => .parameterAnnotations
  | default => .annotationDefault

theorem kind_of_ofName? {name : String} {form : AnnotationForm} (annotates : ofName? name = some form) :
    AttributeKind.ofName? name = some form.kind := by
  unfold ofName? at annotates
  split at annotates <;> cases annotates <;> rfl

def reader (pool : ConstantPool) (depth : Nat) : AnnotationForm → Reader AnnotationContent
  | declaration => .declaration <$> list (AnnotationTree.reader pool depth)
  | parameters => do
    let count ← u8
    .parameters <$> times count.toNat (list (AnnotationTree.reader pool depth))
  | default => .default <$> ElementValue.reader pool depth

/-- The tree that the content spells, if it does so to its last byte. No value nests deeper than there are
bytes. -/
def decode (form : AnnotationForm) (pool : ConstantPool) (info : Bytes) : Outcome AnnotationContent := do
  let (content, rest) ← form.reader pool (info.length + 1) info
  if rest.isEmpty then return content else Outcome.fail (.attributeTrailingBytes rest.length)

end AnnotationForm

section renames

def Renamer.mapElement (renamer : Renamer) (owner name : String) : Outcome String := do
  return (← renamer.elementName? owner name).getD name

variable (renamer : Renamer)

mutual

def AnnotationTree.renamed : AnnotationTree → Outcome AnnotationTree
  | .mk descriptor elements => do
    let newDescriptor ← renamer.mapDescriptor descriptor
    let newElements ← renamedElements (className descriptor) elements
    return .mk newDescriptor newElements

/-- The elements of an annotation of the type `owner` with their names replaced. -/
def renamedElements (owner : String) : List (String × ElementValue) → Outcome (List (String × ElementValue))
  | [] => return []
  | (name, value) :: others => do
    let newName ← renamer.mapElement owner name
    let newValue ← value.renamed
    let newOthers ← renamedElements owner others
    return (newName, newValue) :: newOthers

/-- The value with its names replaced. An enum constant is a field of the class of its type. -/
def ElementValue.renamed : ElementValue → Outcome ElementValue
  | .constant tag index => return .constant tag index
  | .enumConstant descriptor name => do
    let newDescriptor ← renamer.mapDescriptor descriptor
    let newName ← renamer.mapField (className descriptor) name descriptor
    return .enumConstant newDescriptor newName
  | .classLiteral descriptor => .classLiteral <$> renamer.mapDescriptor descriptor
  | .nested tree => .nested <$> tree.renamed
  | .array values => .array <$> renamedValues values

def renamedValues : List ElementValue → Outcome (List ElementValue)
  | [] => return []
  | value :: others => do
    let newValue ← value.renamed
    let newOthers ← renamedValues others
    return newValue :: newOthers

end

def AnnotationContent.renamed : AnnotationContent → Outcome AnnotationContent
  | declaration annotations => .declaration <$> annotations.mapM (AnnotationTree.renamed renamer)
  | parameters annotations => .parameters <$> annotations.mapM (mapM (AnnotationTree.renamed renamer))
  | default value => .default <$> value.renamed renamer

def renamedElement (owner : String) (element : String × ElementValue) : Outcome (String × ElementValue) := do
  let newName ← renamer.mapElement owner element.1
  let newValue ← element.2.renamed renamer
  return (newName, newValue)

theorem renamedElements_eq_mapM (owner : String) (elements : List (String × ElementValue)) :
    renamedElements renamer owner elements = elements.mapM (renamedElement renamer owner) := by
  induction elements with
  | nil => rfl
  | cons element others ih =>
    rw [renamedElements, ih, mapM_cons, renamedElement]
    simp only [bind_assoc, pure_bind]

theorem renamedValues_eq_mapM (values : List ElementValue) :
    renamedValues renamer values = values.mapM (ElementValue.renamed renamer) := by
  induction values with
  | nil => rfl
  | cons value others ih => rw [renamedValues, ih, mapM_cons]

end renames

section passes

variable {α β γ : Type} {scope : RemapScope} {pool after : ConstantPool}

namespace Reader

variable {input rest : Bytes}

@[simp] theorem lift_eq_ok {outcome : Outcome α} {result : α} :
    (liftM outcome : Reader α) input = .ok (result, rest) ↔ outcome = .ok result ∧ input = rest := by
  change (outcome >>= fun value => pure (value, input)) = _ ↔ _
  simp only [Outcome.bind_eq_ok, Outcome.pure_eq_ok, Prod.mk.injEq]
  constructor
  · rintro ⟨_, given, rfl, rfl⟩
    exact ⟨given, rfl⟩
  · rintro ⟨given, rfl⟩
    exact ⟨result, given, rfl, rfl⟩

end Reader

namespace RemapScope

/-- The old bytes are read as one value with the old pool. The new ones are read as the other value with every
pool that keeps the names of `after`. -/
structure Respelled (scope : RemapScope) (after : ConstantPool) (reader : ConstantPool → Reader α) (value result : α)
    (input written rest : Bytes) : Prop where
  read : reader scope.old input = .ok (value, rest)
  reread : ∀ later, after.KeepsNames later → ∀ more, reader later (written ++ more) = .ok (result, more)

namespace Respelled

variable {reader : ConstantPool → Reader α} {value result : α} {input written rest : Bytes}

theorem text {index slot : UInt16} {text newText : String} (read : scope.old.text index = .ok text)
    (kept : after.text slot = .ok newText) (rest : Bytes) :
    scope.Respelled after textReader text newText (u16Bytes index ++ rest) (u16Bytes slot) rest := by
  refine ⟨?_, fun later keeps more => ?_⟩
  · simp only [textReader, bind_eq_ok, u16_eq_ok, lift_eq_ok]
    exact ⟨index, rest, rfl, read, rfl⟩
  · simp only [textReader, bind_eq_ok, u16_eq_ok, lift_eq_ok]
    exact ⟨slot, more, rfl, keeps.text kept, rfl⟩

theorem map (spelled : scope.Respelled after reader value result input written rest) (wrap : α → β) :
    scope.Respelled after (fun pool => wrap <$> reader pool) (wrap value) (wrap result) input written rest where
  read := map_eq_ok.mpr ⟨value, spelled.read, rfl⟩
  reread later keeps more := map_eq_ok.mpr ⟨result, spelled.reread later keeps more, rfl⟩

theorem pair {between : ConstantPool} {second : ConstantPool → Reader β} {other newOther : β} {further left : Bytes}
    (first : scope.Respelled between reader value result input written left) (keeps : between.KeepsNames after)
    (next : scope.Respelled after second other newOther left further rest) (wrap : α → β → γ) :
    scope.Respelled after (fun pool => do
        let value ← reader pool
        let other ← second pool
        return wrap value other)
      (wrap value other) (wrap result newOther) input (written ++ further) rest := by
  refine ⟨?_, fun later keepsLater more => ?_⟩
  · simp only [bind_eq_ok, pure_eq_ok]
    exact ⟨value, left, first.read, other, rest, next.read, rfl, rfl⟩
  · simp only [bind_eq_ok, pure_eq_ok, append_assoc]
    exact ⟨result, _, first.reread later (keeps.trans keepsLater) _, newOther, more, next.reread later keepsLater more,
      rfl, rfl⟩

theorem tagged {depth : Nat} {tag : UInt8} {reader : ConstantPool → Reader ElementValue} {value result : ElementValue}
    (reads : ∀ pool input, ElementValue.reader pool (depth + 1) (tag :: input) = reader pool input)
    (spelled : scope.Respelled after reader value result input written rest) :
    scope.Respelled after (fun pool => ElementValue.reader pool (depth + 1)) value result (tag :: input)
      (tag :: written) rest where
  read := (reads _ _).trans spelled.read
  reread later keeps more := (reads _ _).trans (spelled.reread later keeps more)

end Respelled

/-- The pass takes what the reader reads, and writes the renamed value. -/
def Renames (scope : RemapScope) (pass : AttributeM Bytes) (reader : ConstantPool → Reader α)
    (rename : α → Outcome α) : Prop :=
  ∀ pool input written rest after, scope.Ready pool → PoolM.Gives (pass input) pool (written, rest) after →
    ∃ value result, rename value = .ok result ∧ scope.Respelled after reader value result input written rest

namespace Renames

variable {pass : AttributeM Bytes} {reader : ConstantPool → Reader α} {rename : α → Outcome α} {written : List Bytes}

section

variable (renames : scope.Renames pass reader rename) (follows : pass.Follows pass) {input rest : Bytes}
include renames follows

/-- A repeated pass renames one value after another. The values that were read before them are held latest
first. -/
theorem timesFrom {count : Nat} {done : List Bytes} (ready : scope.Ready pool)
    (given : PoolM.Gives (timesFrom done pass count input) pool (written, rest) after) :
    ∃ values results added, written = done.reverse ++ added ∧ values.mapM rename = .ok results ∧
      ∀ seen again, timesFrom seen (reader scope.old) count input = .ok (seen.reverse ++ values, rest) ∧
        ∀ later, after.KeepsNames later → ∀ more, timesFrom again (reader later) count (added.flatten ++ more) =
            .ok (again.reverse ++ results, more) := by
  induction count generalizing done input pool with
  | zero =>
    obtain ⟨rfl, rfl, rfl⟩ := gives_pure.mp given
    exact ⟨[], [], [], by simp, rfl, fun seen again => ⟨by simp [Reader.timesFrom], fun later _ more => by
      simp [Reader.timesFrom]⟩⟩
  | succ count ih =>
    obtain ⟨next, left, between, first, others⟩ := gives_bind.mp given
    obtain ⟨value, result, renamed, spelled⟩ := renames _ _ _ _ _ ready first
    have grown : pool.Grown between := follows.grows _ _ _ _ first
    have further : between.Grown after := (follows.timesFrom _ _).grows _ _ _ _ others
    obtain ⟨values, results, added, rfl, renamedAll, rest⟩ := ih (ready.grown grown) others
    refine ⟨value :: values, result :: results, next :: added, by simp, ?_, fun seen again => ⟨?_,
      fun later keeps more => ?_⟩⟩
    · simp [mapM_cons, renamed, renamedAll]
    · rw [Reader.timesFrom, bind_eq_ok]
      exact ⟨value, left, spelled.read, by simpa using (rest (value :: seen) []).1⟩
    · rw [Reader.timesFrom, bind_eq_ok]
      refine ⟨result, added.flatten ++ more, ?_, by simpa using (rest [] (result :: again)).2 later keeps more⟩
      simpa using spelled.reread later (further.keepsNames.trans keeps) (added.flatten ++ more)

theorem times {count : Nat} (ready : scope.Ready pool)
    (given : PoolM.Gives (AttributeM.timesFrom [] pass count input) pool (written, rest) after) :
    ∃ values results, values.mapM rename = .ok results ∧
      scope.Respelled after (fun pool => times count (reader pool)) values results input written.flatten rest := by
  obtain ⟨values, results, _, rfl, renamed, spelled⟩ := renames.timesFrom follows ready given
  exact ⟨values, results, renamed, (spelled [] []).1, (spelled [] []).2⟩

theorem list : scope.Renames (list pass) (fun pool => Reader.list (reader pool)) (mapM rename) := by
  intro pool input written rest after ready given
  simp only [AttributeM.list, gives_bind, gives_take, u16_eq_ok, gives_pure] at given
  obtain ⟨count, _, _, ⟨rfl, rfl⟩, parts, _, _, repeated, rfl, rfl, rfl⟩ := given
  obtain ⟨values, results, renamed, spelled⟩ := renames.times follows ready repeated
  refine ⟨values, results, renamed, ?_, fun later keeps more => ?_⟩
  · simp only [Reader.list, bind_eq_ok, u16_eq_ok]
    exact ⟨count, _, rfl, spelled.read⟩
  · simp only [Reader.list, bind_eq_ok, u16_eq_ok, append_assoc]
    exact ⟨count, _, rfl, spelled.reread later keeps more⟩

end

end Renames

section names

variable {index slot : UInt16}

theorem mapDescriptorAt_resolves (ready : scope.Ready pool)
    (given : (scope.mapDescriptorAt index).Gives pool slot after) :
    ∃ descriptor mapped, scope.old.text index = .ok descriptor ∧
      scope.renamer.mapDescriptor descriptor = .ok mapped ∧ after.text slot = .ok mapped := by
  simp only [mapDescriptorAt, PoolM.gives_bind, PoolM.gives_lift] at given
  obtain ⟨descriptor, _, ⟨read, rfl⟩, mapped, _, ⟨renamed, rfl⟩, kept⟩ := given
  exact ⟨descriptor, mapped, read, renamed, keepText_resolves ready.wellFormed ready.keeps kept⟩

theorem mapElementName_resolves {owner : String} (ready : scope.Ready pool)
    (given : (scope.mapElementName owner index).Gives pool slot after) :
    ∃ name newName, scope.old.text index = .ok name ∧ scope.renamer.mapElement owner name = .ok newName ∧
      after.text slot = .ok newName := by
  simp only [mapElementName, PoolM.gives_bind, PoolM.gives_lift] at given
  obtain ⟨name, _, ⟨read, rfl⟩, answer, _, ⟨answered, rfl⟩, kept⟩ := given
  have renamed : scope.renamer.mapElement owner name = .ok (answer.getD name) := by
    simp [Renamer.mapElement, answered]
  refine ⟨name, _, read, renamed, ?_⟩
  cases answer with
  | none =>
    obtain ⟨rfl, rfl⟩ := PoolM.gives_pure.mp kept
    exact ready.keeps.text read
  | some newName => exact keepText_resolves ready.wellFormed ready.keeps kept

theorem mapEnumConstant_resolves {typeIndex nameIndex typeSlot nameSlot : UInt16} (ready : scope.Ready pool)
    (given : (scope.mapEnumConstant typeIndex nameIndex).Gives pool (typeSlot, nameSlot) after) :
    ∃ descriptor name newDescriptor newName, scope.old.text typeIndex = .ok descriptor ∧
      scope.old.text nameIndex = .ok name ∧ scope.renamer.mapDescriptor descriptor = .ok newDescriptor ∧
      scope.renamer.mapField (className descriptor) name descriptor = .ok newName ∧
      after.text typeSlot = .ok newDescriptor ∧ after.text nameSlot = .ok newName := by
  simp only [mapEnumConstant, PoolM.gives_bind, PoolM.gives_lift, PoolM.gives_pure, Prod.mk.injEq] at given
  obtain ⟨descriptor, _, ⟨typeRead, rfl⟩, name, _, ⟨nameRead, rfl⟩, newName, _, ⟨named, rfl⟩, newDescriptor, _,
    ⟨described, rfl⟩, _, between, typeKept, _, _, nameKept, ⟨rfl, rfl⟩, rfl⟩ := given
  have first : pool.Grown between := scope.keepText_grows _ _ _ _ _ typeKept
  have later := ready.grown first
  refine ⟨descriptor, name, newDescriptor, newName, typeRead, nameRead, described, named, ?_, ?_⟩
  · exact (scope.keepText_grows _ _ _ _ _ nameKept).keepsNames.text
      (keepText_resolves ready.wellFormed ready.keeps typeKept)
  · exact keepText_resolves later.wellFormed later.keeps nameKept

end names

section values

variable {depth : Nat}

theorem constantTags_eq : constantTags = [66, 67, 68, 70, 73, 74, 83, 90, 115] := by decide

theorem reader_constant {tag : UInt8} (listed : constantTags.contains tag = true) (pool : ConstantPool)
    (input : Bytes) : ElementValue.reader pool (depth + 1) (tag :: input) =
      (ElementValue.constant tag <$> u16) input := by
  rw [constantTags_eq, contains_iff_mem] at listed
  rw [ElementValue.reader]
  fin_cases listed <;> rfl

section

variable (pool : ConstantPool) (input : Bytes)

theorem reader_enum : ElementValue.reader pool (depth + 1) ('e'.toNat.toUInt8 :: input) = (do
      let descriptor ← pool.textReader
      let name ← pool.textReader
      return ElementValue.enumConstant descriptor name : Reader ElementValue) input := by
  rw [ElementValue.reader]
  rfl

theorem reader_class : ElementValue.reader pool (depth + 1) ('c'.toNat.toUInt8 :: input) =
      (ElementValue.classLiteral <$> pool.textReader) input := by
  rw [ElementValue.reader]
  rfl

theorem reader_nested : ElementValue.reader pool (depth + 1) ('@'.toNat.toUInt8 :: input) =
      (ElementValue.nested <$> AnnotationTree.reader pool depth) input := by
  rw [ElementValue.reader]
  rfl

theorem reader_array : ElementValue.reader pool (depth + 1) ('['.toNat.toUInt8 :: input) =
      (ElementValue.array <$> list (ElementValue.reader pool depth)) input := by
  rw [ElementValue.reader]
  rfl

end

/-- Passes through annotations and values up to a depth rename them. -/
structure RenamesValues (scope : RemapScope) (depth : Nat) : Prop where
  tree : scope.Renames (scope.mapAnnotationTree depth) (fun pool => AnnotationTree.reader pool depth)
    (AnnotationTree.renamed scope.renamer)
  value : scope.Renames (scope.mapElementValue depth) (fun pool => ElementValue.reader pool depth)
    (ElementValue.renamed scope.renamer)

variable (renames : scope.RenamesValues depth)
include renames

theorem RenamesValues.element (owner : String) : scope.Renames (do
        let nameIndex ← take u16
        let newNameIndex ← scope.mapElementName owner nameIndex
        let value ← mapElementValue scope depth
        return u16Bytes newNameIndex ++ value)
      (fun pool => do
        let name ← pool.textReader
        let value ← ElementValue.reader pool depth
        return (name, value))
      (renamedElement scope.renamer owner) := by
  intro pool input written rest after ready given
  simp only [gives_bind, gives_take, u16_eq_ok, gives_lift, gives_pure] at given
  obtain ⟨index, left, _, ⟨rfl, rfl⟩, slot, _, between, ⟨named, rfl⟩, bytes, _, last, valued, rfl, rfl, rfl⟩ := given
  obtain ⟨name, newName, nameRead, nameMapped, nameKept⟩ := mapElementName_resolves ready named
  have grown : pool.Grown between := (scope.mapElementName_follows (.refl _) _ _).grows _ _ _ named
  obtain ⟨value, newValue, renamed, spelled⟩ := renames.value _ _ _ _ _ (ready.grown grown) valued
  have further : between.Grown last := (scope.annotation_follows (.refl _) le_rfl).2.grows _ _ _ _ valued
  refine ⟨(name, value), (newName, newValue), ?_, ?_⟩
  · simp [renamedElement, nameMapped, renamed]
  · exact (Respelled.text nameRead nameKept left).pair further.keepsNames spelled Prod.mk

theorem RenamesValues.deeperTree :
    scope.Renames (scope.mapAnnotationTree (depth + 1)) (fun pool => AnnotationTree.reader pool (depth + 1))
      (AnnotationTree.renamed scope.renamer) := by
  intro pool input written rest after ready given
  rw [mapAnnotationTree] at given
  simp only [gives_bind, gives_take, u16_eq_ok, gives_lift, gives_liftOutcome, gives_pure] at given
  obtain ⟨index, left, _, ⟨rfl, rfl⟩, descriptor, _, _, ⟨read, rfl, rfl⟩, slot, _, between, ⟨described, rfl⟩, bytes, _,
    last, listed, rfl, rfl, rfl⟩ := given
  obtain ⟨_, newDescriptor, again, mapped, kept⟩ := mapDescriptorAt_resolves ready described
  obtain rfl := Outcome.unique read again
  have grown : pool.Grown between := (scope.mapDescriptorAt_follows (.refl _) _).grows _ _ _ described
  have follows := scope.mapElement_follows (.refl _) (className descriptor)
    (scope.annotation_follows (.refl _) (le_refl depth)).2
  have elements := (renames.element (className descriptor)).list follows
  obtain ⟨values, results, renamed, spelled⟩ := elements _ _ _ _ _ (ready.grown grown) listed
  have further : between.Grown last := follows.list.grows _ _ _ _ listed
  refine ⟨.mk descriptor values, .mk newDescriptor results, ?_, ?_⟩
  · simp [AnnotationTree.renamed, renamedElements_eq_mapM, mapped, renamed]
  · simpa only [AnnotationTree.reader] using
      (Respelled.text read kept left).pair further.keepsNames spelled AnnotationTree.mk

/-- What is inside a value is less deep, and is renamed by assumption. -/
theorem RenamesValues.deeperValue :
    scope.Renames (scope.mapElementValue (depth + 1)) (fun pool => ElementValue.reader pool (depth + 1))
      (ElementValue.renamed scope.renamer) := by
  intro pool input written rest after ready given
  rw [mapElementValue] at given
  obtain ⟨tag, left, _, start, finish⟩ := gives_bind.mp given
  obtain ⟨taken, rfl⟩ := gives_take.mp start
  obtain rfl : input = tag :: left := u8_eq_ok.mp taken
  split_ifs at finish with isConstant isEnum isClass isNested isArray <;>
    simp only [gives_bind, gives_take, u16_eq_ok, gives_lift, gives_pure, Prod.exists, not_gives_fail] at finish
  · obtain ⟨index, more, _, ⟨rfl, rfl⟩, rfl, rfl, rfl⟩ := finish
    have spelled : scope.Respelled pool (fun _ => u16) index index (u16Bytes index ++ more) (u16Bytes index)
        more :=
      ⟨by simp, by simp⟩
    exact ⟨_, _, rfl, .tagged (reader_constant isConstant) (spelled.map _)⟩
  · obtain ⟨typeIndex, _, _, ⟨rfl, rfl⟩, nameIndex, _, _, ⟨rfl, rfl⟩, typeSlot, nameSlot, _, last, ⟨mapped, rfl⟩,
      rfl, rfl, rfl⟩ := finish
    obtain ⟨descriptor, name, newDescriptor, newName, typeRead, nameRead, described, named, typeKept, nameKept⟩ :=
      mapEnumConstant_resolves ready mapped
    rw [isEnum]
    exact ⟨.enumConstant descriptor name, .enumConstant newDescriptor newName,
      by simp [ElementValue.renamed, described, named], .tagged reader_enum ((Respelled.text typeRead typeKept _).pair
        (.refl _) (Respelled.text nameRead nameKept _) ElementValue.enumConstant)⟩
  · obtain ⟨index, _, _, ⟨rfl, rfl⟩, slot, _, _, ⟨described, rfl⟩, rfl, rfl, rfl⟩ := finish
    obtain ⟨descriptor, newDescriptor, read, mapped, kept⟩ := mapDescriptorAt_resolves ready described
    rw [isClass]
    exact ⟨.classLiteral descriptor, .classLiteral newDescriptor, by simp [ElementValue.renamed, mapped],
      .tagged reader_class ((Respelled.text read kept _).map _)⟩
  · obtain ⟨bytes, _, _, nested, rfl, rfl, rfl⟩ := finish
    obtain ⟨value, result, renamed, spelled⟩ := renames.tree _ _ _ _ _ ready nested
    rw [isNested]
    exact ⟨.nested value, .nested result, by simp [ElementValue.renamed, renamed],
      .tagged reader_nested (spelled.map _)⟩
  · obtain ⟨bytes, _, _, listed, rfl, rfl, rfl⟩ := finish
    obtain ⟨items, results, renamed, spelled⟩ :=
      renames.value.list (scope.annotation_follows (.refl _) le_rfl).2 _ _ _ _ _ ready listed
    rw [isArray]
    exact ⟨.array items, .array results, by simp [ElementValue.renamed, renamedValues_eq_mapM, renamed],
      .tagged reader_array (spelled.map _)⟩

omit renames in
/-- Annotations and their values nest in each other, so both are treated in one induction on the depth. -/
theorem renamesValues (scope : RemapScope) (depth : Nat) : scope.RenamesValues depth := by
  induction depth with
  | zero =>
    exact ⟨fun _ _ _ _ _ _ given => absurd given PoolM.not_gives_fail,
      fun _ _ _ _ _ _ given => absurd given PoolM.not_gives_fail⟩
  | succ depth ih => exact ⟨ih.deeperTree, ih.deeperValue⟩

end values

section contents

variable {form : AnnotationForm} {depth : Nat}

theorem namePass?_renames {pass : AttributeM Bytes} (passes : scope.namePass? depth form.kind = some pass) :
    scope.Renames pass (fun pool => form.reader pool depth) (AnnotationContent.renamed scope.renamer) := by
  intro pool input written rest after ready given
  have annotations := (scope.renamesValues depth).tree.list (scope.annotation_follows (.refl _) le_rfl).1
  cases form <;> cases passes
  case declaration =>
    obtain ⟨values, results, renamed, spelled⟩ := annotations _ _ _ _ _ ready given
    exact ⟨.declaration values, .declaration results, by simp [AnnotationContent.renamed, renamed], spelled.map _⟩
  case parameters =>
    simp only [mapParameterAnnotations, gives_bind, gives_take, u8_eq_ok, gives_pure] at given
    obtain ⟨count, _, _, ⟨rfl, rfl⟩, parts, _, _, repeated, rfl, rfl, rfl⟩ := given
    obtain ⟨values, results, renamed, spelled⟩ :=
      annotations.times (scope.mapAnnotations_follows (.refl _) le_rfl) ready repeated
    refine ⟨.parameters values, .parameters results, by simp [AnnotationContent.renamed, renamed], ?_, ?_⟩
    · simp only [AnnotationForm.reader, bind_eq_ok, u8_eq_ok, map_eq_ok]
      exact ⟨count, _, rfl, values, spelled.read, rfl⟩
    · intro later keeps more
      simp only [AnnotationForm.reader, bind_eq_ok, u8_eq_ok, map_eq_ok, append_assoc]
      exact ⟨count, _, rfl, results, spelled.reread later keeps more, rfl⟩
  case default =>
    obtain ⟨value, result, renamed, spelled⟩ := (scope.renamesValues depth).value _ _ _ _ _ ready given
    exact ⟨.default value, .default result, by simp [AnnotationContent.renamed, renamed], spelled.map _⟩

/-- An annotation attribute that was renewed spells the renamed tree. It is as long as before, so the same depth is
enough for both. -/
theorem RenewedWithin.annotations {final : ConstantPool} {before result : Attribute} {name : String}
    (renewed : scope.RenewedWithin final depth before result) (named : scope.old.text before.name = .ok name)
    (annotates : AnnotationForm.ofName? name = some form) :
    ∃ tree newTree, form.decode scope.old before.info = .ok tree ∧ tree.renamed scope.renamer = .ok newTree ∧
      form.decode final result.info = .ok newTree := by
  obtain ⟨fuel, pool, after, answer, rfl, progress, renewal, grown, rfl⟩ := renewed.renewal named
  have kind := AnnotationForm.kind_of_ofName? annotates
  cases renewal with
  | kept nameless => cases form <;> simp [kind, AnnotationForm.kind] at nameless
  | code isCode =>
    rw [isCode] at annotates
    cases annotates
  | record isRecord =>
    rw [isRecord] at annotates
    cases annotates
  | @names _ _ written holds passes run =>
    obtain rfl := Option.mem_unique kind holds
    have ready : scope.Ready pool := ⟨progress.wellFormed, progress.keeps⟩
    obtain ⟨tree, newTree, renamed, spelled⟩ := namePass?_renames passes _ _ _ _ _ ready run
    have length : written.length = before.info.length := length_eq_of_namePass? passes run
    have reread := spelled.reread final grown.keepsNames []
    rw [append_nil] at reread
    refine ⟨tree, newTree, ?_, renamed, ?_⟩
    · simp [AnnotationForm.decode, spelled.read]
    · simp [AnnotationForm.decode, length, reread]

end contents

end RemapScope

end passes

section remapClass

variable {renamer : Renamer} {options : RemapOptions} {bytes : Bytes} {out : RemappedClass}

/-- Every attribute has one in its place, at whatever level it stands. If it holds annotations, the other one has
the same name and holds the same tree with the names replaced. -/
structure RenamedAnnotations (renamer : Renamer) (old new : ClassFile) : Prop where
  places : ∀ item ∈ old.allAttributes, ∀ before,
    Relation.ReflTransGen (Attribute.Contains old.pool) item before → ∃ after, SamePlace old new before after
  trees : ∀ before after, SamePlace old new before after → ∀ name form, old.pool.text before.name = .ok name →
    AnnotationForm.ofName? name = some form → new.pool.text after.name = .ok name ∧
      ∃ tree newTree, form.decode old.pool before.info = .ok tree ∧ tree.renamed renamer = .ok newTree ∧
        form.decode new.pool after.info = .ok newTree

/-- Annotations are remapped as trees. -/
theorem remapClass_renames_annotations (remapped : remapClass renamer options bytes = .ok out) :
    ∃ old new, ClassFile.read bytes = .ok old ∧ ClassFile.read out.bytes = .ok new ∧
      RenamedAnnotations renamer old new := by
  obtain ⟨old, new, bootstraps, parsed, reparsed, -, -, renewed⟩ := remapClass_renewed remapped
  refine ⟨old, new, parsed, reparsed, ?_, ?_⟩
  · intro item listed before path
    exact renewed.exists_samePlace rfl listed path
  · intro before after same name form named annotates
    obtain ⟨depth, inner⟩ := renewed.renewed rfl same
    obtain ⟨again, read, written⟩ := inner.name_eq
    obtain rfl := Except.ok.inj (named.symm.trans read)
    exact ⟨written, inner.annotations named annotates⟩

/-- The class `A` with an annotation. One of its elements is an array with an enum constant and another annotation,
which has a class literal, and the other is a string. -/
def annotatedClass : Bytes := [0xca,0xfe,0xba,0xbe,0,0,0,52,0,8,1,0,1,65,7,0,1,1,0,3,76,65,59,1,0,1,
  118,1,0,1,88,1,0,1,107,1,0,25,82,117,110,116,105,109,101,86,105,115,105,98,108,101,65,110,110,111,
  116,97,116,105,111,110,115,0,32,0,2,0,0,0,0,0,0,0,0,0,1,0,7,0,0,0,31,0,1,0,3,0,2,0,4,91,0,2,101,0,
  3,0,5,64,0,3,0,1,0,4,99,0,3,0,6,115,0,1]

def annotationTable : MappingTable :=
  (((MappingTable.empty "a" "b").insertClass "A" "p/B").insertMember ⟨"A", .field, ⟨"X", "LA;"⟩, "Y"⟩).insertMember
    ⟨"A", .method, ⟨"v", "()V"⟩, "w"⟩

def ClassFile.firstAnnotations (file : ClassFile) : Option AnnotationContent := do
  let item ← file.attributes.head?
  (AnnotationForm.declaration.decode file.pool item.info).toOption

def sampleAnnotations (descriptor constant element : String) : AnnotationContent :=
  .declaration [.mk descriptor [(element, .array [.enumConstant descriptor constant,
    .nested (.mk descriptor [(element, .classLiteral descriptor)])]), ("k", .constant 115 1)]]

theorem remapClass_renames_annotations_annotatedClass :
    (ClassFile.read annotatedClass).map ClassFile.firstAnnotations = .ok (some (sampleAnnotations "LA;" "X" "v")) ∧
    (sampleAnnotations "LA;" "X" "v").renamed annotationTable.renamer = .ok (sampleAnnotations "Lp/B;" "Y" "w") ∧
    ∃ out, remapClass annotationTable.renamer {} annotatedClass = .ok out ∧
      ∃ old new, ClassFile.read annotatedClass = .ok old ∧ ClassFile.read out.bytes = .ok new ∧
        RenamedAnnotations annotationTable.renamer old new := by
  obtain ⟨out, remapped⟩ : ∃ out, remapClass annotationTable.renamer {} annotatedClass = .ok out :=
    Outcome.exists_of_isOk (by decide +kernel)
  exact ⟨rfl, rfl, out, remapped, remapClass_renames_annotations remapped⟩

end remapClass

end JarRemap
