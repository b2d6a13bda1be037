import JarRemap.Proofs.Runs

/-!
# Renamers that answer more

One renamer is below another if it gives no answer that the other one does not give. Whatever comes out of remapping
with the lesser renamer comes out with the greater one, byte for byte. The order is carried here from the answers
to the descriptors and signatures that are made of them. For signatures this is one case of a relation between what
two renamers write for the same text.
-/
namespace JarRemap

open List

variable {α β γ δ : Type}

namespace Outcome

variable {Related : α → β → Prop} {second : Outcome β} {first : Outcome α} {lesser : Prop}

/-- Every result of the first is the result of the second. -/
def Below (first second : Outcome α) : Prop := ∀ result, first = .ok result → second = .ok result

namespace Below

variable {second first : Outcome α}

theorem refl (outcome : Outcome α) : outcome.Below outcome := fun _ given => given

theorem bind {next further : α → Outcome β} (start : first.Below second)
    (step : ∀ value, (next value).Below (further value)) : (first >>= next).Below (second >>= further) := by
  intro result given
  obtain ⟨middle, reached, finished⟩ := bind_eq_ok.mp given
  exact bind_eq_ok.mpr ⟨middle, start middle reached, step middle result finished⟩

theorem within (context : Context) (start : first.Below second) :
    (within context first).Below (within context second) :=
  fun result given => within_eq_ok.mpr (start result (within_eq_ok.mp given))

theorem mapM {act more : α → Outcome β} (step : ∀ value, (act value).Below (more value))
    (values : List α) : (values.mapM act).Below (values.mapM more) :=
  fun _ given => mapM_eq_ok.mpr ((mapM_eq_ok.mp given).imp fun value result => step value result)

end Below

/-- Both outcomes are the same failure or both give results, which are related. A first outcome that is the
`lesser` one may fail alone. -/
inductive Relates (lesser : Prop) (Related : α → β → Prop) : Outcome α → Outcome β → Prop
  | ok {first : α} {second : β} (related : Related first second) : Relates lesser Related (.ok first) (.ok second)
  | failed (failure : Failure) : Relates lesser Related (.error failure) (.error failure)
  | stopped (less : lesser) (failure : Failure) (second : Outcome β) : Relates lesser Related (.error failure) second

theorem Relates.bind {Further : γ → δ → Prop}
    {next : α → Outcome γ} {further : β → Outcome δ} (start : Relates lesser Related first second)
    (step : ∀ one other, Related one other → Relates lesser Further (next one) (further other)) :
    Relates lesser Further (first >>= next) (second >>= further) := by
  cases start with
  | ok related => exact step _ _ related
  | failed failure => exact .failed failure
  | stopped less failure => exact .stopped less failure _

theorem Relates.exists_ok {one : α}
    (related : Relates lesser Related first second) (given : first = .ok one) :
    ∃ other, second = .ok other ∧ Related one other := by
  subst given
  cases related with
  | ok related => exact ⟨_, rfl, related⟩

theorem Below.relates {first second : Outcome α} {Related : α → α → Prop} (below : first.Below second)
    (each : ∀ value, first = .ok value → Related value value) : Relates True Related first second := by
  cases given : first with
  | error failure => exact .stopped trivial failure _
  | ok value =>
    rw [below value given]
    exact .ok (each value given)

end Outcome

namespace Signature

open Outcome (Relates)

theorem identifier_eq_ok {stops text name rest : List Char} (taken : identifier stops text = .ok (name, rest)) :
    text = name ++ rest ∧ ∃ stop tail, rest = stop :: tail ∧ stop ∈ stops := by
  simp only [identifier, span_eq_takeWhile_dropWhile] at taken
  split at taken
  case isTrue => simp at taken
  case isFalse present =>
    obtain ⟨rfl, rfl⟩ := Prod.mk.inj (Except.ok.inj taken)
    refine ⟨takeWhile_append_dropWhile.symm, ?_⟩
    have remains : text.dropWhile (!stops.contains ·) ≠ [] := by
      intro nothing
      exact present (by rw [nothing, isEmpty_nil])
    refine ⟨_, _, (cons_head_tail remains).symm, ?_⟩
    simpa using head_dropWhile_not (!stops.contains ·) remains

/-- What two renamers write for a text, and the text. The relation is true of texts that are put together from such
texts, and of the part of a name that an inner class adds to that of its class. -/
structure Composes (Alike : List Char → List Char → List Char → Prop) : Prop where
  same : ∀ text, Alike text text text
  append : ∀ {text one other more next further}, Alike text one other → Alike more next further →
    Alike (text ++ more) (one ++ next) (other ++ further)
  inner : ∀ {name one other part next further}, Alike name one other → Alike (name ++ '$' :: part) next further →
    Alike part (innerPart one next) (innerPart other further)

section walk

variable {Alike : List Char → List Char → List Char → Prop} {lesser : Prop} {Related : γ → δ → Prop}
  {text one other : List Char} {further : List Char × List Char → Outcome δ}
  {next : List Char × List Char → Outcome γ}

theorem Composes.cons (composes : Composes Alike) (c : Char) (alike : Alike text one other) :
    Alike (c :: text) (c :: one) (c :: other) :=
  composes.append (composes.same [c]) alike

/-- The same is taken off the front of the text, and what is written for it is alike. -/
def TakesAlike (Alike : List Char → List Char → List Char → Prop) (text : List Char)
    (one other : List Char × List Char) : Prop :=
  one.2 = other.2 ∧ ∃ taken, text = taken ++ one.2 ∧ Alike taken one.1 other.1

theorem relates_taken {first second : Outcome (List Char × List Char)}
    (start : Relates lesser (TakesAlike Alike text) first second)
    (step : ∀ taken one other rest, text = taken ++ rest → Alike taken one other →
      Relates lesser Related (next (one, rest)) (further (other, rest))) :
    Relates lesser Related (first >>= next) (second >>= further) := by
  refine start.bind ?_
  rintro ⟨one, rest⟩ ⟨other, -⟩ ⟨rfl, taken, split, alike⟩
  exact step taken one other rest split alike

theorem relates_identifier {stops : List Char}
    (step : ∀ name stop rest, text = name ++ stop :: rest → stop ∈ stops →
      Relates lesser Related (next (name, stop :: rest)) (further (name, stop :: rest))) :
    Relates lesser Related (identifier stops text >>= next) (identifier stops text >>= further) := by
  cases taken : identifier stops text with
  | error failure => exact .failed failure
  | ok found =>
    obtain ⟨split, stop, rest, ends, listed⟩ := identifier_eq_ok taken
    obtain ⟨name, _⟩ := found
    obtain rfl : _ = stop :: rest := ends
    exact step name stop rest split listed

variable {first second : Renamer} (composes : Composes Alike)
  (names : ∀ name, Relates lesser (fun one other => Alike name one.toList other.toList)
    (first.mapClass (String.ofList name)) (second.mapClass (String.ofList name)))
include composes names

/-- Types, what follows a class name, and type arguments nest in each other, so they are treated in one induction
on the depth. -/
theorem types_related (fuel : Nat) :
    (∀ text, Relates lesser (TakesAlike Alike text) (type first fuel text) (type second fuel text)) ∧
    (∀ name one other text, Alike name one other → Relates lesser (TakesAlike Alike text)
      (classParts first fuel name one text) (classParts second fuel name other text)) ∧
    ∀ text, Relates lesser (TakesAlike Alike text) (typeArguments first fuel text)
      (typeArguments second fuel text) := by
  induction fuel with
  | zero =>
    simp only [type, classParts, typeArguments]
    exact ⟨fun _ => .failed _, fun _ _ _ _ _ => .failed _, fun _ => .failed _⟩
  | succ fuel ih =>
    obtain ⟨types, parts, arguments⟩ := ih
    refine ⟨fun text => ?_, fun name one other text named => ?_, fun text => ?_⟩
    · cases text with
      | nil => simpa only [type] using .failed _
      | cons c rest =>
        rw [type, type]
        split_ifs with primitive array parameter object
        · exact .ok ⟨rfl, [c], rfl, composes.same [c]⟩
        · exact relates_taken (types rest) fun taken _ _ _ split alike =>
            .ok ⟨rfl, c :: taken, by simp [split], array ▸ composes.cons c alike⟩
        · refine relates_identifier fun name stop rest split listed => ?_
          obtain rfl := mem_singleton.mp listed
          exact .ok ⟨rfl, c :: name ++ [';'], by simp [split], parameter ▸ composes.same _⟩
        · refine relates_identifier fun name _ _ split _ => (names name).bind fun _ _ named => ?_
          exact relates_taken (parts _ _ _ _ named) fun taken _ _ _ further alike =>
            .ok ⟨rfl, c :: (name ++ taken), by simp [split, further],
              object ▸ composes.cons c (composes.append named alike)⟩
        · exact .failed _
    · cases text with
      | nil => simpa only [classParts] using .failed _
      | cons c rest =>
        rw [classParts, classParts]
        split_ifs with opening dot finish
        · exact relates_taken (arguments rest) fun inside _ _ _ split written =>
            relates_taken (parts _ _ _ _ named) fun taken _ _ _ further alike => .ok ⟨rfl, c :: (inside ++ taken),
              by simp [split, further], opening ▸ composes.cons c (composes.append written alike)⟩
        · refine relates_identifier fun part _ _ split _ => (names _).bind fun _ _ renamed => ?_
          exact relates_taken (parts _ _ _ _ renamed) fun taken _ _ _ further alike => .ok ⟨rfl, c :: (part ++ taken),
            by simp [split, further], dot ▸ composes.cons c (composes.append (composes.inner named renamed) alike)⟩
        · exact .ok ⟨rfl, [c], rfl, finish ▸ composes.same _⟩
        · exact .failed _
    · cases text with
      | nil => simpa only [typeArguments] using .failed _
      | cons c rest =>
        rw [typeArguments, typeArguments]
        split_ifs with closing wildcard
        · exact .ok ⟨rfl, [c], rfl, closing ▸ composes.same _⟩
        · exact relates_taken (arguments rest) fun taken _ _ _ split alike =>
            .ok ⟨rfl, c :: taken, by simp [split], wildcard ▸ composes.cons c alike⟩
        · exact relates_taken (types rest) fun bound _ _ rest split written =>
            relates_taken (arguments rest) fun taken _ _ _ further alike => .ok ⟨rfl, c :: (bound ++ taken),
              by simp [split, further], composes.cons c (composes.append written alike)⟩
        · exact relates_taken (types _) fun argument _ _ rest split written =>
            relates_taken (arguments rest) fun taken _ _ _ further alike => .ok ⟨rfl, argument ++ taken,
              by simp [split, further], composes.append written alike⟩

theorem typeBounds_related (fuel : Nat) (text : List Char) :
    Relates lesser (TakesAlike Alike text) (typeBounds first fuel text) (typeBounds second fuel text) := by
  induction fuel generalizing text with
  | zero => simpa only [typeBounds] using .failed _
  | succ fuel ih =>
    unfold typeBounds
    split
    case h_1 => exact .failed _
    case h_2 rest same =>
      obtain rfl := Nat.succ.inj same
      simp only
      split_ifs
      · exact relates_taken ((types_related composes names fuel).1 rest) fun bound _ _ rest split written =>
          relates_taken (ih rest) fun taken _ _ _ further alike => .ok ⟨rfl, ':' :: (bound ++ taken),
            by simp [split, further], composes.cons ':' (composes.append written alike)⟩
      · change Relates lesser _ (typeBounds first fuel rest >>= _) (typeBounds second fuel rest >>= _)
        exact relates_taken (ih rest) fun taken _ _ _ split alike =>
          .ok ⟨rfl, ':' :: taken, by simp [split], composes.cons ':' alike⟩
    case h_3 => exact .ok ⟨rfl, [], rfl, composes.same []⟩

theorem typeParameters_related (fuel : Nat) (text : List Char) :
    Relates lesser (TakesAlike Alike text) (typeParameters first fuel text) (typeParameters second fuel text) := by
  induction fuel generalizing text with
  | zero => simpa only [typeParameters] using .failed _
  | succ fuel ih =>
    cases text with
    | nil => simpa only [typeParameters] using .failed _
    | cons c rest =>
      rw [typeParameters, typeParameters]
      split_ifs with closing
      · exact .ok ⟨rfl, [c], rfl, closing ▸ composes.same _⟩
      · refine relates_identifier fun name _ _ split _ => ?_
        exact relates_taken (typeBounds_related composes names fuel _) fun bounds _ _ rest bounded written =>
          relates_taken (ih rest) fun taken _ _ _ further alike => .ok ⟨rfl, name ++ bounds ++ taken,
            by simp [split, bounded, further], composes.append (composes.append (composes.same name) written) alike⟩

theorem sequence_related (fuel : Nat) (text : List Char) :
    Relates lesser (Alike text) (sequence first fuel text) (sequence second fuel text) := by
  induction fuel generalizing text with
  | zero =>
    cases text with
    | nil => simpa only [sequence] using .ok (composes.same [])
    | cons => simpa only [sequence] using .failed _
  | succ fuel ih =>
    cases text with
    | nil => simpa only [sequence] using .ok (composes.same [])
    | cons c rest =>
      rw [sequence, sequence]
      split_ifs
      · exact (ih rest).bind fun _ _ alike => .ok (composes.cons c alike)
      · exact relates_taken ((types_related composes names fuel).1 _) fun _ _ _ rest split written =>
          (ih rest).bind fun _ _ alike => .ok (split ▸ composes.append written alike)

theorem mapSignature_related (signature : String) :
    Relates lesser (fun one other => Alike signature.toList one.toList other.toList) (first.mapSignature signature)
      (second.mapSignature signature) := by
  have mapped : Relates lesser (Alike signature.toList) (map first signature.toList) (map second signature.toList) := by
    unfold map
    split
    case h_1 opened =>
      exact relates_taken (typeParameters_related composes names _ _) fun _ _ _ rest split written =>
        (sequence_related composes names _ rest).bind fun _ _ alike =>
          .ok (opened ▸ split ▸ composes.cons '<' (composes.append written alike))
    case h_2 => exact sequence_related composes names _ _
  rw [Renamer.mapSignature, Renamer.mapSignature]
  generalize map first signature.toList = one, map second signature.toList = other at mapped
  cases mapped with
  | ok alike => exact .ok (by simpa using alike)
  | failed failure => exact .failed _
  | stopped less failure => exact .stopped less _ _

end walk

end Signature

/-- Every answer of the first renamer is the answer of the second. -/
structure Renamer.Below (less more : Renamer) : Prop where
  className : ∀ name, (less.className? name).Below (more.className? name)
  fieldName : ∀ owner name descriptor,
    (less.fieldName? owner name descriptor).Below (more.fieldName? owner name descriptor)
  methodName : ∀ owner name descriptor,
    (less.methodName? owner name descriptor).Below (more.methodName? owner name descriptor)
  elementName : ∀ owner name, (less.elementName? owner name).Below (more.elementName? owner name)

namespace Renamer.Below

theorem refl (renamer : Renamer) : renamer.Below renamer :=
  ⟨fun _ => .refl _, fun _ _ _ => .refl _, fun _ _ _ => .refl _, fun _ _ => .refl _⟩

variable {less more : Renamer} (below : less.Below more)
include below

theorem mapClass (name : String) : (less.mapClass name).Below (more.mapClass name) :=
  .bind (below.className name) fun _ => .refl _

theorem mapField (owner name descriptor : String) :
    (less.mapField owner name descriptor).Below (more.mapField owner name descriptor) :=
  .bind (below.fieldName owner name descriptor) fun _ => .refl _

theorem mapMethod (owner name descriptor : String) :
    (less.mapMethod owner name descriptor).Below (more.mapMethod owner name descriptor) :=
  .bind (below.methodName owner name descriptor) fun _ => .refl _

theorem mapDescriptor (descriptor : String) :
    (less.mapDescriptor descriptor).Below (more.mapDescriptor descriptor) := by
  refine .within _ (.bind (.mapM (fun piece => ?_) _) fun _ => .refl _)
  cases piece with
  | char c => exact .refl _
  | name chars => exact .bind (below.mapClass _) fun _ => .refl _

theorem mapClassOrArray (name : String) : (less.mapClassOrArray name).Below (more.mapClassOrArray name) := by
  unfold Renamer.mapClassOrArray
  split
  · exact below.mapDescriptor name
  · exact below.mapClass name

theorem mapSignature (signature : String) : (less.mapSignature signature).Below (more.mapSignature signature) := by
  have composes : Signature.Composes fun _ one other => one = other := by
    refine ⟨fun _ => rfl, ?_, ?_⟩
    · rintro _ _ _ _ _ _ rfl rfl
      rfl
    · rintro _ _ _ _ _ _ rfl rfl
      rfl
  intro new mapped
  obtain ⟨_, given, same⟩ := (Signature.mapSignature_related composes
    (fun name => (below.mapClass _).relates fun _ _ => rfl) signature).exists_ok mapped
  rw [given, String.toList_inj.mp same]

end Renamer.Below

end JarRemap
