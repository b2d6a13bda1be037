import JarRemap.Proofs.TextCuts
import JarRemap.Proofs.TransformMerging

/-!
# What is written of a set of transforms

A set is written line by line, sorted by what its symbols are called. Equal sets have the same lines, but two
different symbols can be called the same: in dotted form `a/b` and `a.b` are one class. So equal sets are written
alike if and only if, for each thing that a symbol can be called, the lines for it came in the same order.
-/
namespace JarRemap

open List Text

variable {line : TransformerLine}

section sorting

variable {α : Type} {left right : List α} {key : α → String}

theorem le_text_trans (key : α → String) (first second third : α)
    (below : decide (key first ≤ key second) = true) (above : decide (key second ≤ key third) = true) :
    decide (key first ≤ key third) = true := by
  rw [decide_eq_true_iff] at below above ⊢
  exact le_trans below above

theorem le_text_total (key : α → String) (first second : α) :
    (decide (key first ≤ key second) || decide (key second ≤ key first)) = true := by
  simpa using le_total (key first) (key second)

theorem sorted_mergeSort (key : α → String) (items : List α) :
    (items.mergeSort fun first second => key first ≤ key second).Pairwise fun first second => key first ≤ key second :=
  (pairwise_mergeSort (le_text_trans key) (le_text_total key) items).imp of_decide_eq_true

theorem filter_mergeSort (key : α → String) (items : List α) (text : String) :
    (items.mergeSort fun first second => key first ≤ key second).filter (fun item => key item = text) =
      items.filter fun item => key item = text := by
  have level : (items.filter fun item => key item = text).Pairwise fun first second =>
      decide (key first ≤ key second) = true := by
    refine pairwise_of_forall_mem_list fun first firstListed second secondListed => ?_
    have sameFirst : key first = text := by simpa using of_mem_filter firstListed
    have sameSecond : key second = text := by simpa using of_mem_filter secondListed
    simp [sameFirst, sameSecond]
  have sorted : (items.filter fun item => key item = text).Sublist
      (items.mergeSort fun first second => key first ≤ key second) :=
    sublist_mergeSort (le_text_trans key) (le_text_total key) level filter_sublist
  have kept := sorted.filter fun item => decide (key item = text)
  simp only [filter_filter, Bool.and_self] at kept
  exact (kept.eq_of_length ((mergeSort_perm items _).filter _).length_eq.symm).symm

/-- A list is known by the order of its keys and by the items for each key. -/
theorem eq_of_keys (keys : left.map key = right.map key)
    (same : ∀ text, (left.filter fun item => key item = text) = right.filter fun item => key item = text) :
    left = right := by
  induction left generalizing right with
  | nil => exact (map_eq_nil_iff.mp keys.symm).symm
  | cons first left ih =>
    obtain ⟨second, right, rfl, sameKey, later⟩ := map_eq_cons_iff.mp keys.symm
    obtain rfl : first = second := by
      have here := same (key first)
      rw [filter_cons_of_pos (by simp), filter_cons_of_pos (by simp [sameKey])] at here
      exact (cons.inj here).1
    refine congrArg (first :: ·) (ih later.symm fun text => ?_)
    have here := same text
    by_cases listed : key first = text
    · rw [filter_cons_of_pos (by simpa using listed), filter_cons_of_pos (by simpa using listed)] at here
      exact (cons.inj here).2
    · rwa [filter_cons_of_neg (by simpa using listed), filter_cons_of_neg (by simpa using listed)] at here

end sorting

def ClassTransforms.linesOf (owner : String) (transforms : ClassTransforms) : List TransformerLine :=
  ⟨.ofClass owner, transforms.access⟩ ::
    (transforms.methods.entries.map fun entry => ⟨.ofMethod owner entry.1.name entry.1.descriptor, entry.2⟩) ++
    transforms.fields.entries.map fun entry => ⟨.ofField owner entry.1, entry.2⟩

namespace ClassTransforms

theorem owner_of_mem_linesOf {owner : String} {transforms : ClassTransforms}
    (listed : line ∈ transforms.linesOf owner) : line.target.owner = owner := by
  simp only [linesOf, cons_append, mem_cons, mem_append, mem_map] at listed
  rcases listed with rfl | ⟨_, -, rfl⟩ | ⟨_, -, rfl⟩ <;> rfl

theorem nodup_linesOf (owner : String) (transforms : ClassTransforms) : (transforms.linesOf owner).Nodup := by
  have methods : (transforms.methods.entries.map fun entry =>
      (⟨.ofMethod owner entry.1.name entry.1.descriptor, entry.2⟩ : TransformerLine)).Nodup := by
    refine transforms.methods.distinct.of_map.map ?_
    rintro ⟨⟨name, descriptor⟩, transform⟩ ⟨⟨otherName, otherDescriptor⟩, otherTransform⟩ same
    simpa using same
  have fields : (transforms.fields.entries.map fun entry =>
      (⟨.ofField owner entry.1, entry.2⟩ : TransformerLine)).Nodup := by
    refine transforms.fields.distinct.of_map.map ?_
    rintro ⟨name, transform⟩ ⟨otherName, otherTransform⟩ same
    simpa using same
  refine nodup_append.mpr ⟨nodup_cons.mpr ⟨by simp, methods⟩, fields, ?_⟩
  rintro line here _ there rfl
  obtain ⟨_, -, isField⟩ := mem_map.mp there
  rcases mem_cons.mp here with isClass | method
  · cases isField.trans isClass
  · obtain ⟨_, -, isMethod⟩ := mem_map.mp method
    cases isField.trans isMethod.symm

end ClassTransforms

namespace AccessTarget

variable {second first : AccessTarget}

def memberText : AccessTarget → List Char
  | .ofClass _ => []
  | .ofMethod _ name descriptor => ' ' :: (name.toList ++ descriptor.toList)
  | .ofField _ name => ' ' :: name.toList

theorem toList_text (target : AccessTarget) :
    target.text.toList = (replaceChar '/' '.' target.owner).toList ++ target.memberText := by
  cases target <;> simp [text, memberText, owner]

/-- A parenthesis opens the descriptor of a method and stands in no name. -/
def PlainMember : AccessTarget → Prop
  | .ofClass _ => True
  | .ofMethod _ name descriptor => '(' ∉ name.toList ∧ descriptor.toList.head? = some '('
  | .ofField _ name => '(' ∉ name.toList

/-- Names and descriptors are as class files have them. -/
structure Plain (target : AccessTarget) : Prop where
  undotted : '.' ∉ target.owner.toList
  unblanked : ' ' ∉ target.owner.toList
  member : target.PlainMember

theorem eq_of_memberText (plain : first.PlainMember) (plainToo : second.PlainMember)
    (owners : first.owner = second.owner) (same : first.memberText = second.memberText) : first = second := by
  -- the name of a field has no parenthesis, and a descriptor has one
  have fieldMethod {field name descriptor : String} (plainField : '(' ∉ field.toList)
      (opened : descriptor.toList.head? = some '(') : field.toList ≠ name.toList ++ descriptor.toList := by
    intro equal
    rw [equal] at plainField
    exact plainField (mem_append_right _ (mem_of_mem_head? opened))
  cases first with
  | ofClass owner =>
    cases second with
    | ofClass _ => exact congrArg ofClass owners
    | ofMethod _ _ _ | ofField _ _ => cases same
  | ofMethod owner name descriptor =>
    cases second with
    | ofClass _ => cases same
    | ofMethod other otherName otherDescriptor =>
      obtain ⟨names, descriptors⟩ := append_inj_of_absent plain.1 plainToo.1
        (by simp [plain.2]) (by simp [plainToo.2]) (cons.inj same).2
      rw [show owner = other from owners, String.toList_injective names, String.toList_injective descriptors]
    | ofField _ _ => exact absurd (cons.inj same).2.symm (fieldMethod plainToo plain.2)
  | ofField owner name =>
    cases second with
    | ofClass _ => cases same
    | ofMethod _ _ _ => exact absurd (cons.inj same).2 (fieldMethod plain plainToo.2)
    | ofField other otherName =>
      rw [show owner = other from owners, String.toList_injective (cons.inj same).2]

theorem Plain.eq_of_text (plain : first.Plain) (plainToo : second.Plain) (same : first.text = second.text) :
    first = second := by
  have unblanked {target : AccessTarget} (plain : target.Plain) :
      ' ' ∉ (replaceChar '/' '.' target.owner).toList := by
    rw [replaceChar, String.toList_ofList]
    intro listed
    obtain ⟨c, member, replaced⟩ := mem_map.mp listed
    split at replaced
    · cases replaced
    · exact plain.unblanked (replaced ▸ member)
  have spaced (target : AccessTarget) : ∀ c ∈ target.memberText.head?, c = ' ' := by
    cases target <;> simp [memberText]
  obtain ⟨dotted, members⟩ : (replaceChar '/' '.' first.owner).toList =
      (replaceChar '/' '.' second.owner).toList ∧ first.memberText = second.memberText := by
    refine append_inj_of_absent (unblanked plain) (unblanked plainToo) (spaced first) (spaced second) ?_
    rw [← toList_text, ← toList_text, same]
  have owners : first.owner = second.owner := by
    rw [← replaceChar_replaceChar plain.undotted, ← replaceChar_replaceChar plainToo.undotted,
      String.toList_injective dotted]
  exact eq_of_memberText plain.member plainToo.member owners members

end AccessTarget

namespace TransformSet

variable {set other : TransformSet}

def activeLines (set : TransformSet) : List TransformerLine :=
  set.allLines.filter fun line => !line.transform.isIdle

/-- The lines for symbols that are called alike, in order of insertion. -/
def linesFor (set : TransformSet) (symbol : String) : List TransformerLine :=
  set.activeLines.filter fun line => line.target.text = symbol

section

variable (set : TransformSet)

theorem lines_perm : set.lines.Perm set.activeLines := mergeSort_perm ..

theorem lines_sorted : set.lines.Pairwise fun left right => left.target.text ≤ right.target.text :=
  sorted_mergeSort (fun line : TransformerLine => line.target.text) set.activeLines

theorem filter_lines (symbol : String) :
    (set.lines.filter fun line => line.target.text = symbol) = set.linesFor symbol :=
  filter_mergeSort (fun line : TransformerLine => line.target.text) set.activeLines symbol

theorem allLines_eq : set.allLines = set.classes.entries.flatMap fun entry => entry.2.linesOf entry.1 :=
  rfl

theorem nodup_allLines : set.allLines.Nodup := by
  rw [allLines_eq, nodup_flatMap]
  refine ⟨fun entry _ => entry.2.nodup_linesOf entry.1, ?_⟩
  refine (pairwise_map.mp set.classes.distinct).imp fun different => ?_
  intro line here there
  exact different ((ClassTransforms.owner_of_mem_linesOf here).symm.trans (ClassTransforms.owner_of_mem_linesOf there))

end

section

variable (equal : set.same other)
include equal

theorem activeLines_perm : set.activeLines.Perm other.activeLines := by
  refine Perm.filter _ ((perm_ext_iff_of_nodup (nodup_allLines set) (nodup_allLines other)).mpr ?_)
  rintro ⟨target, transform⟩
  rw [mem_allLines, mem_allLines, same_iff.mp equal]

theorem linesFor_perm (symbol : String) : (set.linesFor symbol).Perm (other.linesFor symbol) :=
  (activeLines_perm equal).filter _

theorem lines_perm_of_same : set.lines.Perm other.lines :=
  (lines_perm set).trans ((activeLines_perm equal).trans (lines_perm other).symm)

theorem symbols_eq :
    (set.lines.map fun line => line.target.text) = other.lines.map fun line => line.target.text := by
  refine Perm.eq_of_pairwise (fun _ _ _ _ => le_antisymm) ?_ ?_ ((lines_perm_of_same equal).map _)
  · exact pairwise_map.mpr (lines_sorted set)
  · exact pairwise_map.mpr (lines_sorted other)

end

/-- What is written, with the symbols that it is sorted by. -/
def written (set : TransformSet) : List (String × String) :=
  set.lines.map fun line => (line.target.text, line.text)

theorem written_eq_zip (set : TransformSet) :
    set.written = (set.lines.map fun line => line.target.text).zip (set.lines.map TransformerLine.text) := by
  rw [written, zip_map']

theorem map_snd_written (set : TransformSet) : set.written.map Prod.snd = set.lines.map TransformerLine.text := by
  rw [written, map_map]
  rfl

theorem filter_written (set : TransformSet) (symbol : String) : (set.written.filter fun item => item.1 = symbol) =
      ((set.linesFor symbol).map TransformerLine.text).map (Prod.mk symbol) := by
  rw [written, filter_map, ← filter_lines, map_map]
  refine map_congr_left fun line listed => ?_
  have called : line.target.text = symbol := by simpa using of_mem_filter listed
  rw [called]
  rfl

/-- Equal sets are written alike if and only if for each symbol the lines came in the same order. -/
theorem texts_eq_iff (equal : set.same other) :
    set.lines.map TransformerLine.text = other.lines.map TransformerLine.text ↔
      ∀ symbol, (set.linesFor symbol).map TransformerLine.text = (other.linesFor symbol).map TransformerLine.text := by
  constructor
  · intro same symbol
    have written : set.written = other.written := by
      rw [written_eq_zip, written_eq_zip, symbols_eq equal, same]
    have here := congrArg (filter fun item => item.1 = symbol) written
    rw [filter_written, filter_written] at here
    exact map_injective_iff.mpr (Prod.mk_right_injective symbol) here
  · intro same
    have keys (set : TransformSet) : set.written.map Prod.fst = set.lines.map fun line => line.target.text := by
      rw [written, map_map]
      rfl
    have written : set.written = other.written := by
      refine eq_of_keys (by rw [keys, keys, symbols_eq equal]) fun symbol => ?_
      rw [filter_written, filter_written, same]
    rw [← map_snd_written, ← map_snd_written, written]

theorem text_eq (set : TransformSet) :
    set.text = String.join ((set.lines.map TransformerLine.text).map (· ++ "\n")) := by
  rw [text, map_map]
  rfl

/-- Lines of the set that are for symbols which are called alike make the same change. -/
def Unmistakable (set : TransformSet) : Prop :=
  ∀ first ∈ set.activeLines, ∀ second ∈ set.activeLines, first.target.text = second.target.text →
    first.transform = second.transform

theorem Unmistakable.text_eq_of_mem (unmistakable : set.Unmistakable) {symbol : String}
    {first second : TransformerLine} (firstListed : first ∈ set.linesFor symbol)
    (secondListed : second ∈ set.linesFor symbol) : first.text = second.text := by
  obtain ⟨firstActive, firstCalled⟩ := mem_filter.mp firstListed
  obtain ⟨secondActive, secondCalled⟩ := mem_filter.mp secondListed
  have called : first.target.text = second.target.text :=
    (of_decide_eq_true firstCalled).trans (of_decide_eq_true secondCalled).symm
  rw [TransformerLine.text, TransformerLine.text, called, unmistakable first firstActive second secondActive called]

theorem Unmistakable.text_eq (unmistakable : set.Unmistakable) (equal : set.same other) : set.text = other.text := by
  have unordered (texts : List String) : texts.Pairwise fun _ _ => True := pairwise_of_forall fun _ _ => trivial
  have texts : set.lines.map TransformerLine.text = other.lines.map TransformerLine.text := by
    refine (texts_eq_iff equal).mpr fun symbol => ?_
    have permuted := linesFor_perm equal symbol
    refine Perm.eq_of_pairwise ?_ (unordered _) (unordered _) (permuted.map _)
    intro _ _ firstText secondText _ _
    obtain ⟨first, firstListed, rfl⟩ := mem_map.mp firstText
    obtain ⟨second, secondListed, rfl⟩ := mem_map.mp secondText
    exact unmistakable.text_eq_of_mem firstListed (permuted.mem_iff.mpr secondListed)
  rw [TransformSet.text_eq, TransformSet.text_eq, texts]

section compiled

variable {lines : List TransformerLine}

theorem Records.exists_part (recorded : set.Records lines) (listed : line ∈ set.activeLines) :
    ∃ part, ⟨line.target, part⟩ ∈ lines := by
  obtain ⟨here, active⟩ := mem_filter.mp listed
  have combined := recorded.combined line.target line.transform (mem_allLines.mp here)
  by_contra absent
  have nothing : line.transform.Combines fun _ => False :=
    combined.congr fun part => iff_of_false (fun asked => absent ⟨part, asked⟩) id
  have idle : line.transform = .idle := nothing.unique AccessTransform.idle_combines_none
  simp [AccessTransform.isIdle, idle] at active

theorem Records.unmistakable (recorded : set.Records lines)
    (apart : ∀ first ∈ lines, ∀ second ∈ lines, first.target.text = second.target.text →
      first.target = second.target) : set.Unmistakable := by
  intro first firstListed second secondListed called
  obtain ⟨firstPart, firstAsked⟩ := recorded.exists_part firstListed
  obtain ⟨secondPart, secondAsked⟩ := recorded.exists_part secondListed
  have sameTarget : first.target = second.target :=
    apart ⟨first.target, firstPart⟩ firstAsked ⟨second.target, secondPart⟩ secondAsked called
  have firstFound : set.find? first.target = some first.transform := mem_allLines.mp (mem_of_mem_filter firstListed)
  have secondFound : set.find? second.target = some second.transform := mem_allLines.mp (mem_of_mem_filter secondListed)
  rw [sameTarget, secondFound] at firstFound
  exact (Option.some.inj firstFound).symm

/-- What is written of equal sets, and of sets that are compiled from the same widenings in another order, which
are equal. The lines are the same up to their order, and their symbols are called the same from line to line.
The lines are the same in their order too if and only if, for everything that symbols are called, the lines for
it came in the same order. So it is if no two symbols that are called alike are changed differently; and the
widenings are written as the same text if their symbols can be told apart by what they are called, as they can
if they have plain names. -/
theorem text_of_same (equal : set.same other) {widenings others : List Widening}
    (permuted : widenings.Perm others) :
    set.lines.Perm other.lines ∧
    (set.lines.map fun line => line.target.text) = (other.lines.map fun line => line.target.text) ∧
    (set.lines.map TransformerLine.text = other.lines.map TransformerLine.text ↔
      ∀ symbol, (set.linesFor symbol).map TransformerLine.text =
        (other.linesFor symbol).map TransformerLine.text) ∧
    (set.Unmistakable → set.text = other.text) ∧
    ∃ compiled again, compile widenings = .ok compiled ∧ compile others = .ok again ∧ compiled.same again ∧
      ((∀ first ∈ widenings, ∀ second ∈ widenings, first.target.text = second.target.text →
        first.target = second.target) → compiled.text = again.text) ∧
      ((∀ widening ∈ widenings, widening.target.Plain) → compiled.text = again.text) := by
  refine ⟨lines_perm_of_same equal, symbols_eq equal, texts_eq_iff equal,
    fun unmistakable => unmistakable.text_eq equal, ?_⟩
  obtain ⟨compiled, built, recorded⟩ := build_of_not_conflicting (not_conflicting_widenings widenings)
  obtain ⟨again, builtAgain, same⟩ := build_congr built (others.map lineOf)
    fun line => (permuted.map lineOf).mem_iff
  have apart (targets : ∀ first ∈ widenings, ∀ second ∈ widenings,
      first.target.text = second.target.text → first.target = second.target) :
      compiled.text = again.text := by
    refine (recorded.unmistakable ?_).text_eq same
    simpa [lineOf] using targets
  refine ⟨compiled, again, (compile_eq widenings).trans built, (compile_eq others).trans builtAgain, same,
    apart, fun plain => apart ?_⟩
  intro first firstListed second secondListed
  exact (plain first firstListed).eq_of_text (plain second secondListed)

end compiled

def openedApart : List Widening :=
  [.ofMethod .extendable "a/c" "run" "()V", .ofClass .accessible "a/b"]

/-- The set that holds the lines, which came in their order. -/
def ofLines (lines : List TransformerLine) : TransformSet :=
  lines.foldl (fun set line => set.put line.target line.transform) empty

theorem text_of_same_openedApart :
    (ofLines (openedApart.map lineOf)).same (ofLines (openedApart.reverse.map lineOf)) ∧
      (ofLines (openedApart.map lineOf)).text = (ofLines (openedApart.reverse.map lineOf)).text ∧
      ∃ compiled again, compile openedApart = .ok compiled ∧ compile openedApart.reverse = .ok again ∧
        compiled.text = again.text := by
  have equal : (ofLines (openedApart.map lineOf)).same (ofLines (openedApart.reverse.map lineOf)) := by
    decide +kernel
  have plain : ∀ widening ∈ openedApart, widening.target.Plain := by
    simp only [openedApart, List.forall_mem_cons, List.not_mem_nil, false_implies, implies_true, and_true]
    exact ⟨⟨by decide, by decide, by decide, rfl⟩, ⟨by decide, by decide, trivial⟩⟩
  have unmistakable : (ofLines (openedApart.map lineOf)).Unmistakable := by
    unfold Unmistakable
    decide +kernel
  obtain ⟨-, -, -, written, compiled, again, run, runAgain, -, -, same⟩ :=
    text_of_same equal (List.reverse_perm openedApart).symm
  exact ⟨equal, written unmistakable, compiled, again, run, runAgain, same plain⟩

/-- The same class in dotted form, spelled in two ways. -/
def spelledTwice : List Widening := [.ofClass .accessible "a/b", .ofClass .extendable "a.b"]

theorem lines_of_sorted (sorted : set.activeLines.Pairwise fun left right => left.target.text ≤ right.target.text) :
    set.lines = set.activeLines :=
  mergeSort_of_pairwise (sorted.imp decide_eq_true)

/-- Equal sets that are written differently, compiled from the same two lines. -/
theorem spelledTwice_unordered :
    Widening.ofText "accessible class a/b" = .ok spelledTwice[0]? ∧
      Widening.ofText "extendable class a.b" = .ok spelledTwice[1]? ∧
      ∃ set other, compile spelledTwice = .ok set ∧ compile spelledTwice.reverse = .ok other ∧
        set.same other ∧ set.text = "public a.b\npublic-f a.b\n" ∧
        other.text = "public-f a.b\npublic a.b\n" := by
  have forwards : (compile spelledTwice).toOption.map activeLines =
      some [⟨.ofClass "a/b", .publish⟩, ⟨.ofClass "a.b", .publishOpen⟩] := by decide +kernel
  have backwards : (compile spelledTwice.reverse).toOption.map activeLines =
      some [⟨.ofClass "a.b", .publishOpen⟩, ⟨.ofClass "a/b", .publish⟩] := by decide +kernel
  obtain ⟨set, built, recorded⟩ := build_of_not_conflicting (not_conflicting_widenings spelledTwice)
  obtain ⟨other, builtAgain, same⟩ := build_congr built (spelledTwice.reverse.map lineOf) (by simp)
  have run := (compile_eq spelledTwice).trans built
  have runAgain := (compile_eq spelledTwice.reverse).trans builtAgain
  rw [run] at forwards
  rw [runAgain] at backwards
  have lines : set.activeLines = _ := Option.some.inj forwards
  have otherLines : other.activeLines = _ := Option.some.inj backwards
  refine ⟨by decide +kernel, by decide +kernel, set, other, run, runAgain, same, ?_, ?_⟩
  · rw [text_eq, lines_of_sorted (by rw [lines]; decide), lines]
    decide
  · rw [text_eq, lines_of_sorted (by rw [otherLines]; decide), otherLines]
    decide

end TransformSet

end JarRemap
