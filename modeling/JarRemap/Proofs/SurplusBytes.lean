import JarRemap.Proofs.RenewedAttributes
import JarRemap.Proofs.SlotCounter

/-!
# Bytes after the content

A reader that succeeds has looked at no more than the bytes it took, so it does the same on a longer input. A class
file and all attributes that are renewed as a whole refuse added bytes. Code is the exception: the bytes after it
are lost when it is written.
-/
namespace JarRemap

open PoolM Reader Code AttributeKind

variable {α β : Type} {kind : AttributeKind} {name : String} {written info : Bytes}

namespace Reader.Frames

open Reader

theorem pure (value : α) : Frames (Pure.pure value) := by
  intro input result rest extra taken
  obtain ⟨rfl, rfl⟩ := pure_eq_ok.mp taken
  exact pure_eq_ok.mpr ⟨rfl, rfl⟩

theorem fail (cause : Cause) : Frames (fail cause : Reader α) :=
  fun _ _ _ _ taken => absurd taken fail_ne_ok

theorem bind {first : Reader α} {next : α → Reader β} (start : first.Frames)
    (finish : ∀ value, (next value).Frames) : (first >>= next).Frames := by
  intro input result rest extra taken
  obtain ⟨middle, left, before, after⟩ := bind_eq_ok.mp taken
  exact bind_eq_ok.mpr ⟨middle, left ++ extra, start _ _ _ _ before, finish middle _ _ _ _ after⟩

theorem within {reader : Reader α} (context : Context) (frames : reader.Frames) : (within context reader).Frames :=
  fun _ _ _ _ taken => within_eq_ok.mpr (frames _ _ _ _ (within_eq_ok.mp taken))

theorem u32 : u32.Frames := by
  intro input value rest extra taken
  obtain rfl := u32_eq_ok.mp taken
  exact u32_eq_ok.mpr (by simp)

end Reader.Frames

section classFiles

namespace PoolReading

variable {count : UInt16} {reading last : PoolReading}

/-- The same place in a longer input. -/
def followedBy (reading : PoolReading) (extra : Bytes) : PoolReading :=
  { reading with input := reading.input ++ extra }

theorem Reaches.followedBy (reaches : Reaches count reading last) (extra : Bytes) :
    Reaches count (reading.followedBy extra) (last.followedBy extra) := by
  induction reaches with
  | refl => exact .refl
  | tail _ turn ih =>
    obtain ⟨below, taken, fits⟩ := turn
    exact ih.tail (.mk below (Frames.ofInverts Constant.read_inverts _ _ _ _ taken) fits)

end PoolReading

open PoolReading in
theorem ConstantPool.read_frames : ConstantPool.read.Frames := by
  intro input pool rest extra taken
  obtain ⟨count, left, last, rfl, reaches, done, full, rfl, rfl⟩ := read_eq_ok.mp taken
  refine read_eq_ok.mpr ⟨count, left ++ extra, last.followedBy extra, by simp, ?_, done, full, rfl, rfl⟩
  exact reaches.followedBy extra

namespace ClassFile

theorem reader_frames : reader.Frames := by
  have attributes := Frames.ofInverts (list_inverts Attribute.read_inverts)
  have members := Frames.ofInverts (list_inverts Member.read_inverts)
  have number := Frames.ofInverts u16_inverts
  refine .bind .u32 fun found => ?_
  split
  · exact .fail _
  · exact .bind number fun _ => .bind number fun _ => .bind ConstantPool.read_frames fun _ =>
      .bind number fun _ => .bind number fun _ => .bind number fun _ =>
      .bind (.ofInverts (list_inverts u16_inverts)) fun _ => .bind (.within _ members) fun _ =>
      .bind (.within _ members) fun _ => .bind (.within _ attributes) fun _ => .pure _

theorem read_surplus {bytes extra : Bytes} {file : ClassFile} (parsed : read bytes = .ok file)
    (surplus : extra ≠ []) : read (bytes ++ extra) = Outcome.fail (.classTrailingBytes extra.length) := by
  have taken : reader (bytes ++ extra) = .ok (file, extra) := reader_frames _ _ _ extra (read_eq_ok.mp parsed)
  rw [read, taken]
  change (if extra.isEmpty then _ else _) = _
  rw [if_neg (by simpa using surplus)]

end ClassFile

end classFiles

section passes

variable {pass : AttributeM Bytes}

theorem AttributeM.all_surplus {input rest : Bytes} {pool after : ConstantPool}
    (given : Gives (pass input) pool (written, rest) after) (surplus : rest ≠ []) :
    pass.all input pool = (Outcome.fail (.attributeTrailingBytes rest.length), after) := by
  rw [Gives] at given
  change ExceptT.bindCont (m := StateM ConstantPool) _ (pass input pool).1 (pass input pool).2 = _
  rw [given]
  change (if rest.isEmpty then _ else _ : PoolM Bytes) after = _
  rw [if_neg (by simpa using surplus)]
  rfl

namespace RemapScope

variable (scope : RemapScope) {fuel : Nat}

/-- The pass through an attribute that is renewed as a whole. Attributes within it are renewed with `fuel`,
and annotations with `depth`. -/
def wholePass? (scope : RemapScope) (fuel depth : Nat) : AttributeKind → Option (AttributeM Bytes)
  | .recordComponents => some (scope.mapRecord (scope.mapInfo fuel))
  | .sourceFile =>
    if scope.options.rebuildSourceFile && scope.owner != scope.newOwner then some scope.mapSourceFile
    else none
  | kind => scope.namePass? depth kind

/-- A pass is followed by one that may go deeper. -/
theorem wholePass?_follows {more depth deeper : Nat} (enough : fuel ≤ more) (enoughDepth : depth ≤ deeper)
    (passes : scope.wholePass? fuel depth kind = some pass) :
    ∃ further, scope.wholePass? more deeper kind = some further ∧ pass.Follows further := by
  have same := Renamer.Below.refl scope.renamer
  cases kind with
  | code => cases passes
  | signature =>
    cases passes
    exact ⟨_, rfl, scope.mapSignatureAttribute_follows same⟩
  | localVariables generic =>
    cases passes
    exact ⟨_, rfl, scope.mapLocalVariables_follows same generic⟩
  | innerClasses =>
    cases passes
    exact ⟨_, rfl, scope.mapInnerClasses_follows⟩
  | enclosingMethod =>
    cases passes
    exact ⟨_, rfl, scope.mapEnclosingMethod_follows same⟩
  | annotations =>
    cases passes
    exact ⟨_, rfl, scope.mapAnnotations_follows same enoughDepth⟩
  | parameterAnnotations =>
    cases passes
    exact ⟨_, rfl, scope.mapParameterAnnotations_follows same enoughDepth⟩
  | annotationDefault =>
    cases passes
    exact ⟨_, rfl, (scope.annotation_follows same enoughDepth).2⟩
  | recordComponents =>
    cases passes
    exact ⟨_, rfl, scope.mapRecord_follows same (scope.mapInfo_follows same enough)⟩
  | sourceFile =>
    obtain ⟨asked, ⟨⟩⟩ := Option.ite_none_right_eq_some.mp passes
    exact ⟨_, if_pos asked, scope.mapSourceFile_follows⟩

/-- Apart from code, an attribute that holds names is renewed by a pass through all of its bytes, or it is
kept. -/
theorem mapInfo_eq_pass (holds : ofName? name = some kind) (other : kind ≠ .code) :
    scope.mapInfo (fuel + 1) name info = (scope.wholePass? fuel (info.length + 1) kind).elim (pure none) fun pass =>
        some <$> pass.all info := by
  rw [mapInfo, holds]
  cases kind with
  | code => exact absurd rfl other
  | sourceFile =>
    rw [wholePass?]
    cases scope.options.rebuildSourceFile && scope.owner != scope.newOwner <;> rfl
  | _ => rfl

theorem mapInfo_eq_code (holds : ofName? name = some .code) :
    scope.mapInfo (fuel + 1) name info = do
      let code ← read info
      let attributes ← scope.mapAttributesBy (scope.mapInfo fuel) code.attributes
      return some (← { code with attributes }.toBytes) := by
  rw [mapInfo, holds]

end RemapScope

end passes

namespace RemapScope

variable {scope : RemapScope} {pool after : ConstantPool} {info : Bytes}

theorem mapAttribute_surplus {extra : Bytes} (holds : ofName? name = some kind)
    (other : kind ≠ .code) (given : (scope.mapAttribute name info).Gives pool (some written) after)
    (surplus : extra ≠ []) : scope.mapAttribute name (info ++ extra) pool =
      (Outcome.fail (.attributeTrailingBytes extra.length), after) := by
  rw [mapAttribute, mapInfo_eq_pass scope holds other] at given ⊢
  have longer : info.length ≤ (info ++ extra).length := by simp
  cases passes : scope.wholePass? info.length (info.length + 1) kind with
  | none =>
    rw [passes] at given
    obtain ⟨impossible, -⟩ := gives_pure.mp given
    cases impossible
  | some pass =>
    rw [passes] at given
    obtain ⟨_, all, ⟨⟩⟩ := gives_map.mp given
    obtain ⟨further, passesToo, follows⟩ := scope.wholePass?_follows longer (Nat.succ_le_succ longer) passes
    have framed : Gives (pass (info ++ extra)) pool (written, extra) after :=
      follows.frames _ _ _ _ _ extra (AttributeM.gives_all.mp all)
    rw [passesToo]
    exact map_of_error (AttributeM.all_surplus ((follows.run _).isBelow _ _ _ framed) surplus)

theorem mapAttribute_code_surplus {answer : Option Bytes}
    (given : (scope.mapAttribute "Code" info).Gives pool answer after) (extra : Bytes) :
    (scope.mapAttribute "Code" (info ++ extra)).Gives pool answer after := by
  have longer : info.length ≤ (info ++ extra).length := by simp
  rw [mapAttribute, mapInfo_eq_code scope rfl] at given ⊢
  simp only [gives_bind, gives_lift] at given ⊢
  obtain ⟨_, _, ⟨read, rfl⟩, attributes, between, renewed, finished⟩ := given
  obtain ⟨⟨code, rest⟩, taken, rfl⟩ := Outcome.map_eq_ok.mp read
  have framed : reader (info ++ extra) = .ok (code, rest ++ extra) :=
    Frames.ofInverts reader_inverts _ _ _ extra taken
  refine ⟨code, pool, ⟨Outcome.map_eq_ok.mpr ⟨_, framed, rfl⟩, rfl⟩, attributes, between, ?_, finished⟩
  have deeper := scope.mapInfo_follows (Renamer.Below.refl _) longer
  exact (scope.mapAttributesBy_follows deeper code.attributes).isBelow _ _ _ renewed

end RemapScope

theorem Code.read_eq_ok {code : Code} :
    read info = .ok code ↔ ∃ bytes rest, code.toBytes = .ok bytes ∧ info = bytes ++ rest := by
  simp only [read, Outcome.map_eq_ok, Prod.exists, reader_inverts _ _ _]
  constructor
  · rintro ⟨_, rest, ⟨bytes, written, rfl⟩, rfl⟩
    exact ⟨bytes, rest, written, rfl⟩
  · rintro ⟨bytes, rest, written, rfl⟩
    exact ⟨code, rest, ⟨bytes, written, rfl⟩, rfl⟩

theorem Code.toBytes_eq_ok {code : Code} :
    code.toBytes = .ok info ↔ reader info = .ok (code, []) := by
  simp only [reader_inverts _ _ _, List.append_nil]
  constructor
  · intro written
    exact ⟨info, written, rfl⟩
  · rintro ⟨bytes, written, rfl⟩
    exact written

/-- What becomes of bytes after the content.

Code is read from its own bytes with any bytes after them, so writing it gives back the front of what was
read, and all of it only if nothing follows. Remapping gives what it gives without the bytes after it. All
other attributes that are renewed, and the class file itself, are refused if bytes follow what was accepted. -/
theorem code_alone_drops_surplus (info extra : Bytes) :
    (∀ code, Code.read info = .ok code ↔
      ∃ bytes rest, code.toBytes = .ok bytes ∧ info = bytes ++ rest) ∧
    (∀ code, code.toBytes = .ok info ↔ Code.reader info = .ok (code, [])) ∧
    (∀ (scope : RemapScope) pool answer after, (scope.mapAttribute "Code" info).Gives pool answer after →
      (scope.mapAttribute "Code" (info ++ extra)).Gives pool answer after) ∧
    (extra ≠ [] →
      (∀ (scope : RemapScope) name kind pool written after,
        AttributeKind.ofName? name = some kind → kind ≠ .code →
        (scope.mapAttribute name info).Gives pool (some written) after →
          scope.mapAttribute name (info ++ extra) pool =
            (Outcome.fail (.attributeTrailingBytes extra.length), after)) ∧
      ∀ file, ClassFile.read info = .ok file →
        ClassFile.read (info ++ extra) = Outcome.fail (.classTrailingBytes extra.length)) := by
  refine ⟨fun _ => Code.read_eq_ok, fun _ => Code.toBytes_eq_ok, ?_, ?_⟩
  · intro scope pool answer after given
    exact RemapScope.mapAttribute_code_surplus given extra
  · intro surplus
    refine ⟨?_, fun file parsed => ClassFile.read_surplus parsed surplus⟩
    intro scope name kind pool written after holds other given
    exact RemapScope.mapAttribute_surplus holds other given surplus

def idleScope : RemapScope :=
  { old := .empty, renamer := (MappingTable.empty "left" "right").renamer, options := {}, owner := "A",
    newOwner := "A", bootstraps := [] }

theorem code_alone_drops_surplus_idleScope :
    (idleScope.mapAttribute "Code" (List.replicate 12 0 ++ [255])).Gives .empty
      (some (List.replicate 12 0)) .empty ∧
    idleScope.mapAttribute "EnclosingMethod" ([0, 0, 0, 0] ++ [255]) .empty =
      (Outcome.fail (.attributeTrailingBytes 1), .empty) ∧
    ClassFile.read (bodyClass ++ [255]) = Outcome.fail (.classTrailingBytes 1) := by
  obtain ⟨file, parsed⟩ := Outcome.exists_of_isOk (by decide +kernel : (ClassFile.read bodyClass).isOk)
  obtain ⟨-, -, code, -⟩ := code_alone_drops_surplus (List.replicate 12 0) [255]
  obtain ⟨-, -, -, others⟩ := code_alone_drops_surplus [0, 0, 0, 0] [255]
  obtain ⟨-, -, -, classes⟩ := code_alone_drops_surplus bodyClass [255]
  exact ⟨code _ _ _ _ rfl,
    (others (by simp)).1 _ _ .enclosingMethod _ [0, 0, 0, 0] _ rfl (by decide) rfl,
    (classes (by simp)).2 file parsed⟩

def surplusCode : Bytes := List.replicate 12 0 ++ [255]

/-- `bodyClass` with one byte after the body of its method. -/
def surplusClass : Bytes := [0xca,0xfe,0xba,0xbe,0,0,0,52,0,6,1,0,1,65,7,0,1,1,0,1,102,1,0,3,40,41,
  86,1,0,4,67,111,100,101,0,0,0,2,0,0,0,0,0,0,0,1,0,0,0,3,0,4,0,1,0,5,0,0,0,13,0,0,0,0,0,0,0,0,0,0,
  0,0,255,0,0]

/-- The byte after a body is not refused, and it is lost when the body is written and when its class is
remapped without any new name. -/
theorem surplusCode_shrinks :
    Code.read surplusCode = .ok ⟨0, 0, [], [], []⟩ ∧
      (⟨0, 0, [], [], []⟩ : Code).toBytes = .ok (List.replicate 12 0) ∧
      (⟨0, 0, [], [], []⟩ : Code).toBytes ≠ .ok surplusCode ∧
      remapClass (MappingTable.empty "left" "right").renamer {} surplusClass =
        .ok ⟨"A", "A", bodyClass⟩ := by
  decide +kernel

end JarRemap
