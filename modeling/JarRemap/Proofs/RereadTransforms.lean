import JarRemap.Proofs.BuiltTransforms
import JarRemap.Proofs.LineWords
import JarRemap.Proofs.PlainText

/-!
# Reading what was written of a set of transforms

A line is read as what it was written for, if no name in it has a blank, a comment, a dot or a parenthesis in the
wrong place. Then a set that was built comes back from its file as an equal set, which is written alike.
-/
namespace JarRemap

open List Text TransformerLine

namespace AccessTransform

variable {transform : AccessTransform}

theorem freeOf_text (transform : AccessTransform) : FreeOf ['#'] transform.text := by
  obtain ⟨_ | _ | _ | _ | _, _ | _ | _⟩ := transform <;> decide

theorem text_ne_empty (active : transform ≠ .idle) : transform.text ≠ "" := by
  obtain ⟨_ | _ | _ | _ | _, _ | _ | _⟩ := transform
  case none.keep => exact absurd rfl active
  all_goals decide

theorem ofText_text (active : transform ≠ .idle) : ofText transform.text = .ok transform := by
  obtain ⟨_ | _ | _ | _ | _, _ | _ | _⟩ := transform
  case none.keep => exact absurd rfl active
  all_goals rfl

end AccessTransform

namespace AccessTarget

variable {target : AccessTarget}

def WritableMember : AccessTarget → Prop
  | .ofClass _ => True
  | .ofMethod _ name descriptor =>
    FreeOf ['#', '('] name ∧ descriptor.toList.head? = some '(' ∧ FreeOf ['#'] descriptor
  | .ofField _ name => name ≠ "" ∧ FreeOf ['#', '('] name

structure Writable (target : AccessTarget) : Prop where
  nonempty : target.owner ≠ ""
  owner : FreeOf ['#', '.'] target.owner
  member : target.WritableMember

theorem Writable.plain (writable : target.Writable) : target.Plain where
  undotted := fun dotted => (writable.owner '.' dotted).2 (by simp)
  unblanked := fun blanked => absurd (writable.owner ' ' blanked).1 (by decide)
  member := by
    cases target with
    | ofClass owner => trivial
    | ofMethod owner name descriptor =>
      exact ⟨fun opened => (writable.member.1 '(' opened).2 (by simp), writable.member.2.1⟩
    | ofField owner name => exact fun opened => (writable.member.2 '(' opened).2 (by simp)

/-- The words that name the symbol: its class in dotted form, and the member if there is one. -/
def words : AccessTarget → List String
  | .ofClass owner => [replaceChar '/' '.' owner]
  | .ofMethod owner name descriptor => [replaceChar '/' '.' owner, name ++ descriptor]
  | .ofField owner name => [replaceChar '/' '.' owner, name]

theorem Writable.freeOf_dotted (writable : target.Writable) : FreeOf ['#'] (replaceChar '/' '.' target.owner) := by
  rw [FreeOf, replaceChar, String.toList_ofList, forall_mem_map]
  intro c listed
  split
  case isTrue => decide
  case isFalse => exact writable.owner.mono (by simp) c listed

theorem Writable.words (writable : target.Writable) : ∀ word ∈ target.words, word ≠ "" ∧ FreeOf ['#'] word := by
  have dotted : replaceChar '/' '.' target.owner ≠ "" ∧ FreeOf ['#'] (replaceChar '/' '.' target.owner) :=
    ⟨by simpa [replaceChar] using writable.nonempty, writable.freeOf_dotted⟩
  cases target with
  | ofClass owner => exact forall_mem_singleton.mpr dotted
  | ofMethod owner name descriptor =>
    obtain ⟨named, opened, described⟩ := writable.member
    have free : FreeOf ['#'] (name ++ descriptor) := (named.mono (by simp)).append described
    have nonempty : name ++ descriptor ≠ "" := by
      rintro empty
      simp [(String.append_eq_empty_iff.mp empty).2] at opened
    exact forall_mem_cons.mpr ⟨dotted, forall_mem_singleton.mpr ⟨nonempty, free⟩⟩
  | ofField owner name =>
    obtain ⟨nonempty, named⟩ := writable.member
    exact forall_mem_cons.mpr ⟨dotted, forall_mem_singleton.mpr ⟨nonempty, named.mono (by simp)⟩⟩

theorem ofMember_method {owner name descriptor : String} (unopened : '(' ∉ name.toList)
    (opened : descriptor.toList.head? = some '(') :
    ofMember owner (name ++ descriptor) = .ofMethod owner name descriptor := by
  obtain ⟨rest, spelled⟩ := List.head?_eq_some_iff.mp opened
  rw [ofMember, String.toList_append, spelled, cutFirst?_append _ _ unopened]
  simp only [← spelled, String.ofList_toList]

theorem ofMember_field {owner name : String} (unopened : '(' ∉ name.toList) :
    ofMember owner name = .ofField owner name := by
  rw [ofMember, cutFirst?_eq_none unopened]

end AccessTarget

namespace TransformerLine

variable {line : TransformerLine}

/-- The words of the line. -/
def words (line : TransformerLine) : List String := line.transform.text :: line.target.words

theorem text_eq (line : TransformerLine) : line.text = " ".intercalate line.words := by
  obtain ⟨target, transform⟩ := line
  cases target <;> simp [text, words, AccessTarget.text, AccessTarget.words, String.append_assoc]

section writable

variable (writable : line.target.Writable) (active : line.transform ≠ .idle)

include writable active

theorem words_free : ∀ word ∈ line.words, word ≠ "" ∧ FreeOf ['#'] word :=
  forall_mem_cons.mpr
    ⟨⟨AccessTransform.text_ne_empty active, line.transform.freeOf_text⟩, writable.words⟩

theorem spelled {c : Char} (listed : c ∈ line.text.toList) : c ≠ '#' ∧ (c = ' ' ∨ isBlank c = false) := by
  rw [text_eq] at listed
  rcases mem_intercalate listed with rfl | ⟨word, held, inside⟩
  · decide
  · obtain ⟨unblanked, unmarked⟩ := (words_free writable active word held).2 c inside
    exact ⟨by simpa using unmarked, .inr unblanked⟩

theorem oneLine : OneLine line.text where
  single := fun listed => absurd (spelled writable active listed).2 (by decide)
  plain := fun last => absurd (spelled writable active (mem_of_getLast? last)).2 (by decide)

theorem ofText_text : ofText line.text = .ok (some line) := by
  have uncut : beforeFirst '#' line.text = line.text :=
    beforeFirst_of_absent fun listed => (spelled writable active listed).1 rfl
  have found : Text.words (Text.beforeFirst '#' line.text) = line.words := by
    rw [uncut, text_eq]
    refine words_intercalate fun word listed => ?_
    obtain ⟨nonempty, free⟩ := words_free writable active word listed
    exact free.isWord nonempty
  have transformed := AccessTransform.ofText_text active
  have undotted (owner : String) (absent : '.' ∉ owner.toList) :
      replaceChar '.' '/' (replaceChar '/' '.' owner) = owner := replaceChar_replaceChar absent
  obtain ⟨absent, -, member⟩ := writable.plain
  rw [ofText, found, words]
  obtain ⟨target, transform⟩ := line
  cases target with
  | ofClass owner =>
    simp only [AccessTarget.words, transformed, undotted owner absent]
    rfl
  | ofMethod owner name descriptor =>
    simp only [AccessTarget.words, transformed, undotted owner absent, AccessTarget.ofMember_method member.1 member.2]
    rfl
  | ofField owner name =>
    simp only [AccessTarget.words, transformed, undotted owner absent, AccessTarget.ofMember_field member]
    rfl

end writable

end TransformerLine

namespace TransformSet

variable {set after : TransformSet} {lines : List TransformerLine}

theorem readLine_of_merge (parsed : ofText line.text = .ok (some line))
    (merged : (mergeTarget line.target line.transform).result set = (.ok (), after)) (number : Nat) :
    (readLine number (encodeUtf8 line.text)).result set = (.ok (), after) := by
  have parsedThere : Outcome.within (.inLine number) (ofText line.text) = .ok (some line) := by
    rw [parsed]
    rfl
  rw [readLine, EditM.result_lift_bind (ofStream_encodeUtf8 line.text), EditM.result_lift_bind parsedThere]
  exact EditM.result_tryCatch_of_ok merged

theorem readLines_of_merge (parsed : ∀ line ∈ lines, ofText line.text = .ok (some line))
    (merged : (mergeLines lines).result set = (.ok (), after)) (start : Nat) :
    EditM.result (forM (((lines.map TransformerLine.text).map encodeUtf8).zipIdx start) fun item =>
      readLine (item.2 + 1) item.1) set = (.ok (), after) := by
  induction lines generalizing set start with
  | nil => exact merged
  | cons line lines ih =>
    obtain ⟨here, later⟩ := forall_mem_cons.mp parsed
    rw [map_cons, map_cons, zipIdx_cons, forM_cons]
    rcases run : (mergeTarget line.target line.transform).result set with ⟨failure | _, between⟩
    · rw [mergeLines_cons, EditM.result_bind_of_error run] at merged
      cases merged
    · rw [mergeLines_cons, EditM.result_bind_of_ok run] at merged
      rw [EditM.result_bind_of_ok (readLine_of_merge here run (start + 1))]
      exact ih later merged (start + 1)

theorem text_eq_unlines (set : TransformSet) : set.text = unlines (set.lines.map TransformerLine.text) := by
  rw [text_eq, join_newlines]

theorem read_text_of_merge (parsed : ∀ line ∈ set.lines, ofText line.text = .ok (some line))
    (oneLine : ∀ line ∈ set.lines, OneLine line.text) (merged : build (mergeLines set.lines) = .ok after) :
    read (encodeUtf8 set.text) = .ok after := by
  have byteLines : byteLines (encodeUtf8 set.text) = (set.lines.map TransformerLine.text).map encodeUtf8 := by
    rw [text_eq_unlines]
    exact byteLines_unlines (by simpa using oneLine)
  rw [read, byteLines, EditM.build_eq_ok]
  exact readLines_of_merge parsed (EditM.build_eq_ok.mp merged) 0

/-- A set that was built comes back from its file as an equal set, which is written as the same file. -/
theorem read_text_of_built (built : set.Built)
    (writable : ∀ target, (set.find? target).isSome → target.Writable) :
    ∃ again, read (Text.encodeUtf8 set.text) = .ok again ∧ again.same set ∧ again.text = set.text := by
  have recorded : set.Records set.activeLines := built.grounded.records
  have fits {line : TransformerLine} (listed : line ∈ set.activeLines) :
      line.target.Writable ∧ line.transform ≠ .idle := by
    obtain ⟨found, active⟩ := mem_activeLines.mp listed
    exact ⟨writable line.target (by rw [found, Option.isSome_some]), active⟩
  have permuted : ∀ line, line ∈ set.activeLines ↔ line ∈ set.lines := fun line => (lines_perm set).mem_iff.symm
  have recordedLines : set.Records set.lines := recorded.congr permuted
  obtain ⟨again, merged, recordedAgain⟩ := build_of_not_conflicting recordedLines.not_conflicting
  have unmistakable : set.Unmistakable := by
    refine recorded.unmistakable fun first firstListed second secondListed called => ?_
    exact (fits firstListed).1.plain.eq_of_text (fits secondListed).1.plain called
  refine ⟨again, read_text_of_merge ?_ ?_ merged, recordedAgain.same recordedLines,
    (unmistakable.text_eq (recordedLines.same recordedAgain)).symm⟩
  · intro line listed
    obtain ⟨named, active⟩ := fits ((permuted line).mpr listed)
    exact TransformerLine.ofText_text named active
  · intro line listed
    obtain ⟨named, active⟩ := fits ((permuted line).mpr listed)
    exact TransformerLine.oneLine named active

/-- A class with a method and a field, opened step by step. The last step is refused. -/
def openedStepwise : TransformSet :=
  let method := ((mergeTarget (.ofMethod "a/B" "run" "(La/C;)V") ⟨some .isProtected, .remove⟩).result .empty).2
  let field := ((widen (.ofField .mutable "a/B" "count" "I")).result method).2
  let joined := ((merge ((widen (.ofClass .accessible "d")).result .empty).2).result field).2
  ((mergeTarget (.ofField "a/B" "count") ⟨none, .add⟩).result joined).2

theorem read_text_of_built_openedStepwise :
    openedStepwise.activeLines = [⟨.ofMethod "a/B" "run" "(La/C;)V", ⟨some .isProtected, .remove⟩⟩,
        ⟨.ofField "a/B" "count", .unlock⟩, ⟨.ofClass "d", .publish⟩] ∧
      ∃ again, read (Text.encodeUtf8 openedStepwise.text) = .ok again ∧ again.same openedStepwise ∧
        again.text = openedStepwise.text := by
  have built : openedStepwise.Built :=
    (((Built.empty.mergeTarget _ (by decide)).widen _).merge (Built.empty.widen _)).mergeTarget _ (by decide)
  have lines : openedStepwise.allLines = [⟨.ofClass "a/B", .idle⟩,
      ⟨.ofMethod "a/B" "run" "(La/C;)V", ⟨some .isProtected, .remove⟩⟩, ⟨.ofField "a/B" "count", .unlock⟩,
      ⟨.ofClass "d", .publish⟩] := by decide +kernel
  refine ⟨by rw [activeLines, lines]; decide, read_text_of_built built fun target present => ?_⟩
  obtain ⟨transform, found⟩ := Option.isSome_iff_exists.mp present
  have listed := mem_allLines.mpr found
  rw [lines] at listed
  simp only [List.mem_cons, TransformerLine.mk.injEq, List.not_mem_nil, or_false] at listed
  rcases listed with ⟨rfl, -⟩ | ⟨rfl, -⟩ | ⟨rfl, -⟩ | ⟨rfl, -⟩
  · exact ⟨by decide, by decide, trivial⟩
  · exact ⟨by decide, by decide, by decide, rfl, by decide⟩
  · exact ⟨by decide, by decide, by decide, by decide⟩
  · exact ⟨by decide, by decide, trivial⟩

end TransformSet

end JarRemap
