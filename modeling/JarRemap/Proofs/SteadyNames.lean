import JarRemap.Proofs.DescriptorPieces
import JarRemap.Proofs.RenamerOrder
import JarRemap.Proofs.TextCuts

/-!
# Renamers that change no name

A renamer is steady if every new name that it gives is the old one. Descriptors and signatures come out of such a
renamer as they went in. Any renamer can be cut down to a steady one, which fails where a name would change.
-/
namespace JarRemap

open Outcome Descriptor Signature

/-- The name that is answered, if any, is the name that was asked for. -/
def KeepsName (name : String) (answer : Outcome (Option String)) : Prop :=
  ∀ new, answer = .ok (some new) → new = name

/-- The answer, unless it is another name. -/
def keptAnswer (name : String) (answer : Option String) : Outcome (Option String) :=
  if answer.getD name = name then .ok answer else Outcome.fail (.other name)

section answers

variable {name new : String} {answer : Outcome (Option String)}

theorem keptAnswer_eq_ok {given result : Option String} :
    keptAnswer name given = .ok result ↔ given.getD name = name ∧ given = result := by
  unfold keptAnswer
  split <;> simp_all

theorem keptAnswer_keepsName : KeepsName name (answer >>= keptAnswer name) := by
  intro new answered
  simp only [bind_eq_ok, keptAnswer_eq_ok] at answered
  obtain ⟨given, -, kept, rfl⟩ := answered
  exact kept

theorem keptAnswer_below : (answer >>= keptAnswer name).Below answer := by
  intro result answered
  simp only [bind_eq_ok, keptAnswer_eq_ok] at answered
  obtain ⟨given, answered, -, rfl⟩ := answered
  exact answered

theorem KeepsName.below_keptAnswer (keeps : KeepsName name answer) : answer.Below (answer >>= keptAnswer name) := by
  intro result answered
  refine bind_eq_ok.mpr ⟨result, answered, keptAnswer_eq_ok.mpr ⟨?_, rfl⟩⟩
  cases result with
  | none => rfl
  | some new => exact keeps new answered

theorem KeepsName.eq (keeps : KeepsName name answer)
    (answered : (do return (← answer).getD name : Outcome String) = .ok new) : new = name := by
  simp only [bind_eq_ok, pure_eq_ok] at answered
  obtain ⟨given, answered, rfl⟩ := answered
  cases given with
  | none => rfl
  | some new => exact keeps new answered

end answers

namespace Signature

theorem innerPart_append (enclosing inner : List Char) : innerPart enclosing (enclosing ++ '$' :: inner) = inner := by
  have dropped : Text.dropStart? (enclosing ++ ['$']) (enclosing ++ '$' :: inner) = some inner :=
    Text.dropStart?_eq_some.mpr (by simp)
  rw [innerPart, dropped]

end Signature

namespace Renamer

/-- No answer is another name than the one that was asked for. -/
structure Steady (renamer : Renamer) : Prop where
  className : ∀ name, KeepsName name (renamer.className? name)
  fieldName : ∀ owner name descriptor, KeepsName name (renamer.fieldName? owner name descriptor)
  methodName : ∀ owner name descriptor, KeepsName name (renamer.methodName? owner name descriptor)
  elementName : ∀ owner name, KeepsName name (renamer.elementName? owner name)

/-- Answers like the renamer, but fails where a name would change. -/
def unchanging (renamer : Renamer) : Renamer where
  className? name := renamer.className? name >>= keptAnswer name
  fieldName? owner name descriptor := renamer.fieldName? owner name descriptor >>= keptAnswer name
  methodName? owner name descriptor := renamer.methodName? owner name descriptor >>= keptAnswer name
  elementName? owner name := renamer.elementName? owner name >>= keptAnswer name

theorem unchanging_steady (renamer : Renamer) : renamer.unchanging.Steady where
  className _ := keptAnswer_keepsName
  fieldName _ _ _ := keptAnswer_keepsName
  methodName _ _ _ := keptAnswer_keepsName
  elementName _ _ := keptAnswer_keepsName

theorem unchanging_below (renamer : Renamer) : renamer.unchanging.Below renamer where
  className _ := keptAnswer_below
  fieldName _ _ _ := keptAnswer_below
  methodName _ _ _ := keptAnswer_below
  elementName _ _ := keptAnswer_below

namespace Steady

variable {renamer : Renamer} (steady : renamer.Steady) {new name descriptor owner : String}
include steady

theorem below_unchanging : renamer.Below renamer.unchanging where
  className name := (steady.className name).below_keptAnswer
  fieldName owner name descriptor := (steady.fieldName owner name descriptor).below_keptAnswer
  methodName owner name descriptor := (steady.methodName owner name descriptor).below_keptAnswer
  elementName owner name := (steady.elementName owner name).below_keptAnswer

theorem mapClass (mapped : renamer.mapClass name = .ok new) : new = name :=
  (steady.className name).eq mapped

theorem mapField (mapped : renamer.mapField owner name descriptor = .ok new) : new = name :=
  (steady.fieldName owner name descriptor).eq mapped

theorem mapMethod (mapped : renamer.mapMethod owner name descriptor = .ok new) : new = name :=
  (steady.methodName owner name descriptor).eq mapped

theorem mapDescriptor (mapped : renamer.mapDescriptor descriptor = .ok new) : new = descriptor := by
  obtain ⟨row, images, cut, kept, written⟩ := mapDescriptor_eq_ok.mp mapped
  have same : images = row := by
    symm
    rw [← List.forall₂_eq_eq_eq]
    refine kept.imp fun piece image mapped => ?_
    cases piece with
    | char c => simpa [Piece.map] using mapped
    | name chars =>
      simp only [Piece.map, bind_eq_ok, pure_eq_ok] at mapped
      obtain ⟨name, mapped, rfl⟩ := mapped
      rw [steady.mapClass mapped, String.toList_ofList]
  rw [same, ← (pieces_eq_iff.mp cut).1] at written
  exact String.toList_inj.mp written

theorem mapClassOrArray (mapped : renamer.mapClassOrArray name = .ok new) : new = name := by
  unfold Renamer.mapClassOrArray at mapped
  split at mapped
  · exact steady.mapDescriptor mapped
  · exact steady.mapClass mapped

theorem mapSignature {signature : String} (mapped : renamer.mapSignature signature = .ok new) : new = signature := by
  have composes : Composes fun text one _ => one = text := by
    refine ⟨fun _ => rfl, ?_, ?_⟩
    · rintro _ _ _ _ _ _ rfl rfl
      rfl
    · rintro _ _ _ _ _ _ rfl rfl
      exact innerPart_append _ _
  have names (name : List Char) : Relates True (fun one _ => one.toList = name)
      (renamer.mapClass (String.ofList name)) (renamer.mapClass (String.ofList name)) :=
    (Outcome.Below.refl _).relates fun new mapped => by rw [steady.mapClass mapped, String.toList_ofList]
  obtain ⟨_, -, same⟩ := (mapSignature_related composes names signature).exists_ok mapped
  exact String.toList_inj.mp same

end Steady

end Renamer

end JarRemap
