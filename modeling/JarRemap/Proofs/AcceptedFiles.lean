import JarRemap.Proofs.TinyRoundTrip
import JarRemap.Proofs.TableFailures

/-!
# What an accepted file gives

Every class of a tree that was read comes from the row that opens its block, and every member from its own row
below it, in the order of the rows. The name in a namespace is the last field of the row, up to the place of
that namespace, that is not empty (`Completes`).
-/
namespace JarRemap

open ClassNames List Outcome

section names

variable {names completed : List String} {i : Nat}

/-- The last field at or before the position that is not empty. -/
def lastFilled? (fields : List String) (i : Nat) : Option String :=
  ((fields.take (i + 1)).filter (· ≠ "")).getLast?

theorem lastFilled?_zero (field : String) (fields : List String) :
    lastFilled? (field :: fields) 0 = if field = "" then none else some field := by
  by_cases empty : field = "" <;> simp [lastFilled?, empty]

theorem lastFilled?_succ (field : String) (fields : List String) (i : Nat) : lastFilled? (field :: fields) (i + 1) =
      (lastFilled? fields i).or (if field = "" then none else some field) := by
  by_cases empty : field = "" <;> simp [lastFilled?, empty, List.getLast?_cons, Option.or_some]

theorem getElem?_completeAfter (last : String) (inside : i < names.length) :
    (completeAfter last names)[i]? = some ((lastFilled? names i).getD last) := by
  induction names generalizing last i with
  | nil => simp at inside
  | cons name names ih =>
    cases i with
    | zero => by_cases empty : name = "" <;> simp [completeAfter, lastFilled?_zero, empty]
    | succ i =>
      have later := ih (if name = "" then last else name) (Nat.lt_of_succ_lt_succ inside)
      by_cases empty : name = ""
      · simpa [completeAfter, lastFilled?_succ, empty] using later
      · simpa [completeAfter, lastFilled?_succ, empty, Option.or_some] using later

theorem getElem?_completeNames (run : completeNames names = .ok completed) (inside : i < names.length) :
    completed[i]? = lastFilled? names i := by
  cases names with
  | nil => simp at inside
  | cons name names =>
    by_cases empty : name = ""
    · simp [completeNames, empty] at run
    · obtain rfl : name :: completeAfter name names = completed := by
        simpa [completeNames, empty] using run
      cases i with
      | zero => simp [lastFilled?_zero, empty]
      | succ i =>
        have later := getElem?_completeAfter name (Nat.lt_of_succ_lt_succ inside)
        simpa [lastFilled?_succ, empty, Option.or_some] using later

end names

namespace TinyFile

variable {escapes : Bool} {fields names completed : List String}

theorem plainName_eq_empty {field name : String} (run : plainName escapes field = .ok name) :
    name = "" ↔ field = "" := by
  cases escapes with
  | false =>
    obtain rfl : field = name := by simpa [plainName] using run
    rfl
  | true =>
    obtain ⟨chars, read, rfl⟩ := map_eq_ok.mp run
    rw [← String.toList_eq_nil_iff, ← String.toList_eq_nil_iff, String.toList_ofList]
    generalize field.toList = written at read
    unfold unescapeChars at read
    split at read
    · simpa [eq_comm] using read
    · exact absurd read fail_ne_ok
    · split at read
      · obtain ⟨rest, -, rfl⟩ := map_eq_ok.mp read
        simp
      · exact absurd read fail_ne_ok
    · obtain ⟨rest, -, rfl⟩ := map_eq_ok.mp read
      simp

theorem rel_lastFilled? (read : Forall₂ (fun field name => plainName escapes field = .ok name) fields names)
    (i : Nat) : Option.Rel (fun field name => plainName escapes field = .ok name) (lastFilled? fields i)
      (lastFilled? names i) := by
  induction read generalizing i with
  | nil => exact .none
  | @cons field name fields names here _ ih =>
    have first : Option.Rel (fun field name => plainName escapes field = .ok name)
        (if field = "" then none else some field) (if name = "" then none else some name) := by
      by_cases empty : field = ""
      · simp [empty, (plainName_eq_empty here).mpr empty]
      · simpa [empty, (plainName_eq_empty here).not.mpr empty] using here
    cases i with
    | zero => rwa [lastFilled?_zero, lastFilled?_zero]
    | succ i =>
      rw [lastFilled?_succ, lastFilled?_succ]
      have later := ih i
      generalize lastFilled? fields i = field at later
      generalize lastFilled? names i = name at later
      cases later with
      | none => exact first
      | some same => exact .some same

/-- There is a name for each field. The name at a position is the last field up to there that is not empty,
without its escapes. -/
def Completes (escapes : Bool) (fields names : List String) : Prop :=
  names.length = fields.length ∧ ∀ i < fields.length, ∃ field name,
    lastFilled? fields i = some field ∧ plainName escapes field = .ok name ∧ names[i]? = some name

theorem completes_of_run (read : fields.mapM (plainName escapes) = .ok names)
    (run : completeNames names = .ok completed) : Completes escapes fields completed := by
  have length : completed.length = fields.length := (completeNames_fits run).length.trans (mapM_length read)
  refine ⟨length, fun i inside => ?_⟩
  have name : completed[i]? = some completed[i] := List.getElem?_eq_getElem (length ▸ inside)
  have last := getElem?_completeNames run ((mapM_length read).symm ▸ inside)
  have related := rel_lastFilled? (mapM_eq_ok.mp read) i
  rw [← last, name] at related
  generalize found : lastFilled? fields i = field at related
  cases related with
  | some plain => exact ⟨_, _, rfl, plain, name⟩

section rows

variable {count : Nat} {row : Row} {rows : List Row} {kind : MemberKind} {after owner : ClassNames}

def GivesMember (escapes : Bool) (row : Row) (member : MemberNames) : Prop :=
  ∃ written fields, row.fields = written :: fields ∧ plainName escapes written = .ok member.descriptor ∧
    Completes escapes fields member.names

def memberRows (kind : MemberKind) (rows : List Row) : List Row :=
  rows.filter fun row => row.depth = 1 ∧ row.first = letter kind

theorem Row.isMember_iff : row.isMember ↔ row.depth = 1 ∧ ∃ kind, row.first = letter kind := by
  constructor
  · intro member
    obtain ⟨depth, field | method⟩ : row.depth = 1 ∧ (row.first = "f" ∨ row.first = "m") := by
      simpa [Row.isMember] using member
    · exact ⟨depth, .field, field⟩
    · exact ⟨depth, .method, method⟩
  · rintro ⟨depth, kind, named⟩
    cases kind <;> simp [Row.isMember, depth, named, letter]

/-- The block gives the class its names, and its rows give the members of the class, in order. -/
def GivesClass (escapes : Bool) (block : Row × List Row) (owner : ClassNames) : Prop :=
  block.1.first = "c" ∧ Completes escapes block.1.fields owner.names ∧
    ∀ kind, Forall₂ (GivesMember escapes) (memberRows kind block.2) (owner.members kind).values

theorem memberLine_gives (run : memberLine escapes count kind owner row.line = .ok after) :
    after.names = owner.names ∧ (∀ other, other ≠ kind → after.members other = owner.members other) ∧
      ∃ member, GivesMember escapes row member ∧
        (after.members kind).values = (owner.members kind).values ++ [member] := by
  obtain ⟨written, fields, descriptor, names, completed, cut, plain, -, read, added⟩ := memberLine_eq_ok.mp run
  obtain ⟨complete, first, -, fresh, rfl⟩ := addMember_eq_ok.mp added
  refine ⟨names_setMembers .., fun other different => ?_, ⟨descriptor, completed⟩,
    ⟨written, fields, cut, plain, completes_of_run read complete⟩, ?_⟩
  · rw [members_setMembers, if_neg (Ne.symm different)]
  · rw [members_setMembers, if_pos rfl, OrderedMap.values_insert_of_new fresh]

theorem classLine_gives (run : classLine escapes count owner row.line = .ok after) : after.names = owner.names ∧ ∀ kind,
      (row.first = letter kind ∧ ∃ member, GivesMember escapes row member ∧
        (after.members kind).values = (owner.members kind).values ++ [member]) ∨
      (row.first ≠ letter kind ∧ after.members kind = owner.members kind) := by
  by_cases isMember : ∃ kind, row.first = letter kind
  · obtain ⟨kind, named⟩ := isMember
    rw [classLine_of_letter named] at run
    obtain ⟨names, others, member, gives, values⟩ := memberLine_gives run
    refine ⟨names, fun other => ?_⟩
    by_cases here : other = kind
    · subst here
      exact .inl ⟨named, member, gives, values⟩
    · refine .inr ⟨?_, others other here⟩
      rw [named]
      cases kind <;> cases other <;> simp_all [letter]
  · have idle : ∀ kind, row.first ≠ letter kind := fun kind named => isMember ⟨kind, named⟩
    have unchanged : classLine escapes count owner row.line = .ok owner := by
      simp [classLine, Row.line, show row.first ≠ "f" from idle .field, show row.first ≠ "m" from idle .method]
    obtain rfl := Outcome.unique unchanged run
    exact ⟨rfl, fun kind => .inr ⟨idle kind, rfl⟩⟩

theorem addMembers_gives (run : addMembers escapes count ⟨completed, ∅, ∅⟩ (rows.filter Row.isMember) = .ok after) :
    after.names = completed ∧
      ∀ kind, Forall₂ (GivesMember escapes) (memberRows kind rows) (after.members kind).values := by
  have given : after.names = completed ∧ ∀ kind, Forall₂ (GivesMember escapes)
      ((rows.filter Row.isMember).filter fun row => row.first = letter kind) (after.members kind).values := by
    refine foldlM_induction (fun done state => state.names = completed ∧
      ∀ kind, Forall₂ (GivesMember escapes) (done.filter fun row => row.first = letter kind)
        (state.members kind).values) ?_ ⟨rfl, fun kind => ?_⟩ run
    · rintro done state row next ⟨names, before⟩ stepped
      obtain ⟨sameNames, members⟩ := classLine_gives stepped
      refine ⟨sameNames.trans names, fun kind => ?_⟩
      rcases members kind with ⟨named, member, gives, values⟩ | ⟨other, same⟩
      · rw [filter_append, filter_cons_of_pos (by simpa using named), filter_nil, values]
        exact rel_append (before kind) (.cons gives .nil)
      · rw [filter_append, filter_cons_of_neg (by simpa using other), filter_nil, same, append_nil]
        exact before kind
    · rw [members_new]
      exact .nil
  have sameRows (kind : MemberKind) :
      ((rows.filter Row.isMember).filter fun row => row.first = letter kind) = memberRows kind rows := by
    rw [filter_filter, memberRows]
    refine filter_congr fun row _ => ?_
    rw [Bool.eq_iff_iff, Bool.and_eq_true, decide_eq_true_iff, decide_eq_true_iff, Row.isMember_iff]
    constructor
    · rintro ⟨named, depth, -⟩
      exact ⟨depth, named⟩
    · rintro ⟨depth, named⟩
      exact ⟨named, depth, kind, named⟩
  exact ⟨given.1, fun kind => sameRows kind ▸ given.2 kind⟩

theorem foldlM_sectionOf_gives {start tree : MappingTree} {blocks : List (Row × List Row)}
    (new : start.classes = ∅) (run : blocks.foldlM (sectionOf escapes) start = .ok tree) :
    tree.namespaces = start.namespaces ∧ Forall₂ (GivesClass escapes) blocks tree.classes.values := by
  refine foldlM_induction (fun done state => state.namespaces = start.namespaces ∧
    Forall₂ (GivesClass escapes) done state.classes.values) ?_ ⟨rfl, new ▸ .nil⟩ run
  rintro done state block next ⟨namespaces, before⟩ stepped
  obtain ⟨names, completed, first, owner, isClass, -, read, complete, -, fresh, below, rfl⟩ :=
    sectionOf_eq_ok.mp stepped
  obtain ⟨rfl, members⟩ := addMembers_gives below
  refine ⟨namespaces, ?_⟩
  rw [OrderedMap.values_insert_of_new fresh]
  exact rel_append before (.cons ⟨isClass, completes_of_run read complete, members⟩ .nil)

/-- A file that is accepted gives a well-formed tree. There are at least two different namespaces, all symbols
have one name that is not empty for each of them, and they are found under their first names.

The header lists the namespaces. The classes come from the rows that open the blocks of the file, and their
members from the rows below. Each name is the last field of its row, up to the place of the namespace, that is
not empty.

A table between any two of the namespaces can be taken from the tree: no name is missing, and it fails if and
only if the descriptor of a member has an `L` without a semicolon after it. -/
theorem read_gives_rows {bytes : Bytes} {tree : MappingTree} (run : read bytes = .ok tree) :
    tree.WellFormed ∧
    (∃ head rows, List.Forall₂ Row.Shows (head :: rows) (linesOf bytes) ∧
      head.fields = "2" :: "0" :: tree.namespaces ∧
      List.Forall₂ (GivesClass (escaping rows)) (classBlocks rows) tree.classes.values) ∧
    ∀ source ∈ tree.namespaces, ∀ target ∈ tree.namespaces,
      (∀ failure, MappingTable.ofTree tree source target = .error failure → ¬ failure.OutOfBounds) ∧
      ((∃ failure, MappingTable.ofTree tree source target = .error failure) ↔
        ∃ owner ∈ tree.classes.values, ∃ kind, ∃ member ∈ (owner.members kind).values,
          Descriptor.Unterminated member.descriptor) := by
  have wellFormed := read_wellFormed run
  refine ⟨wellFormed, ?_, fun source sourceListed target targetListed => ⟨fun failure failed => ?_, ?_, ?_⟩⟩
  · obtain ⟨head, rows, shown, -, namespaces, start, -, header, created, classes⟩ := read_eq_ok.mp run
    obtain ⟨-, -, rfl⟩ := MappingTree.create_eq_ok.mp created
    obtain ⟨sameNamespaces, given⟩ := foldlM_sectionOf_gives rfl classes
    exact ⟨head, rows, shown, sameNamespaces ▸ header, given⟩
  · obtain ⟨_, -, _, _, -, -, cause⟩ :=
      MappingTable.unterminated_of_ofTree wellFormed sourceListed targetListed failed
    rintro ⟨index, total, missing⟩
    rw [cause] at missing
    cases missing
  · rintro ⟨failure, failed⟩
    obtain ⟨owner, listed, kind, member, held, unterminated, -⟩ :=
      MappingTable.unterminated_of_ofTree wellFormed sourceListed targetListed failed
    exact ⟨owner, listed, kind, member, held, unterminated⟩
  · rintro ⟨owner, listed, kind, member, held, unterminated⟩
    cases taken : MappingTable.ofTree tree source target with
    | error failure => exact ⟨failure, rfl⟩
    | ok table =>
      have complete := (MappingTable.members_of_ofTree taken owner listed kind member held).1
      exact absurd unterminated (Descriptor.complete_iff.mp complete)

/-- Names are escaped, a class and its members leave names out, there is a comment, and the descriptor of the
method has no end. -/
def openText : String :=
  "tiny\t2\t0\tone\ttwo\tthree\n\tescaped-names\nc\tA\\tb\t\tB\n\tf\tI\tf\tg\t\n\t\tc\tnote\n\tm\t(LA)V\tm\t\t\n"

theorem read_gives_rows_openText :
    ∃ tree, read (Text.encodeUtf8 openText) = .ok tree ∧ tree.WellFormed ∧
      tree.namespaces = ["one", "two", "three"] ∧
      (tree.classes.values.map ClassNames.names) = [["A\tb", "A\tb", "B"]] ∧
      ∃ failure, MappingTable.ofTree tree "one" "three" = .error failure ∧ ¬ failure.OutOfBounds := by
  have accepted : (read (Text.encodeUtf8 openText)).isOk := by decide +kernel
  obtain ⟨tree, run⟩ := Outcome.exists_of_isOk accepted
  have outline : ((read (Text.encodeUtf8 openText)).toOption.map fun tree =>
      (tree.namespaces, tree.classes.values.map fun owner =>
        (owner.names, owner.methods.values.map MemberNames.descriptor))) =
      some (["one", "two", "three"], [(["A\tb", "A\tb", "B"], ["(LA)V"])]) := by decide +kernel
  rw [run] at outline
  obtain ⟨namespaces, classes⟩ := Prod.mk.inj (Option.some.inj outline)
  obtain ⟨wellFormed, -, tables⟩ := read_gives_rows run
  obtain ⟨inside, fails⟩ := tables "one" (by simp [namespaces]) "three" (by simp [namespaces])
  obtain ⟨owner, listed, named⟩ : ∃ owner ∈ tree.classes.values,
      (owner.names, owner.methods.values.map MemberNames.descriptor) = (["A\tb", "A\tb", "B"], ["(LA)V"]) := by
    rw [← List.mem_map, classes]
    exact List.mem_singleton_self _
  obtain ⟨member, held, described⟩ : ∃ member ∈ owner.methods.values, member.descriptor = "(LA)V" := by
    rw [← List.mem_map, (Prod.mk.inj named).2]
    exact List.mem_singleton_self _
  obtain ⟨failure, failed⟩ := fails.mpr ⟨owner, listed, .method, member, held,
    ['A', ')', 'V'], by rw [described]; decide, by decide⟩
  refine ⟨tree, run, wellFormed, namespaces, ?_, failure, failed, inside failure failed⟩
  simpa using congrArg (List.map Prod.fst) classes

end rows

end TinyFile

end JarRemap
