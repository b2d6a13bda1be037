import JarRemap.Proofs.RereadTransforms
import JarRemap.Proofs.CopiedEntries

/-!
# Access transformers under new names

An access transformer is renamed line by line. A line is read, its symbol gets its new names, and it is written with
its comment. What is written is read as the renamed symbol, since new names have no characters that would end a word
or begin a comment.
-/
namespace JarRemap

open List TransformerLine Text Outcome Descriptor AccessTarget AuxiliaryFiles MappingTable

namespace Text

variable {text : String} {found : List String} {marks : List Char}

theorem wordsFrom_space (word text : List Char) : wordsFrom word (text ++ [' ']) = wordsFrom word text := by
  induction text generalizing word with
  | nil => by_cases empty : word = [] <;> simp [wordsFrom, empty, show isBlank ' ' by decide]
  | cons c text ih =>
    rw [cons_append, wordsFrom, wordsFrom]
    split_ifs <;> simp [ih]

theorem newline_notMem_lines {line : String} (listed : line ∈ lines text) : '\n' ∉ line.toList := by
  obtain ⟨chars, found, rfl⟩ := mem_map.mp listed
  simpa using newline_not_mem_linesFrom not_mem_nil chars found

/-- The words of a text are words, and have no other characters than the text. -/
theorem FallsInto.mem {chars : List Char} (falls : FallsInto chars found) :
    ∀ word ∈ found, IsWord word ∧ ∀ c ∈ word.toList, c ∈ chars := by
  induction falls with
  | blank => simp
  | word blank isWord ends later ih =>
    refine forall_mem_cons.mpr ⟨⟨isWord, fun c listed => by simp [listed]⟩, fun other held => ?_⟩
    exact ⟨(ih other held).1, fun c listed => mem_append_right _ ((ih other held).2 c listed)⟩

theorem beforeFirst_unmarked (mark : Char) (text : String) : mark ∉ (beforeFirst mark text).toList :=
  (cutAt_iff.mpr rfl).1

/-- The words that a line states can be written in a line. -/
theorem freeOf_words {line word : String} (listed : word ∈ words (beforeFirst '#' line)) :
    word ≠ "" ∧ FreeOf ['#'] word := by
  obtain ⟨isWord, inside⟩ := (fallsInto_iff.mpr rfl).mem word listed
  refine ⟨isWord.nonempty, fun c spelled => ⟨isWord.unblanked c spelled, ?_⟩⟩
  rw [mem_singleton]
  rintro rfl
  exact beforeFirst_unmarked '#' line (inside _ spelled)

theorem FreeOf.insert {mark : Char} (free : FreeOf marks text) (absent : mark ∉ text.toList) :
    FreeOf (marks ++ [mark]) text := by
  intro c listed
  refine ⟨(free c listed).1, ?_⟩
  rw [mem_append, mem_singleton, not_or]
  exact ⟨(free c listed).2, fun same => absent (same ▸ listed)⟩

theorem freeOf_replaceChar {old new : Char}
    (free : ∀ c ∈ text.toList, c ≠ old → isBlank c = false ∧ c ∉ marks) (fits : isBlank new = false ∧ new ∉ marks) :
    FreeOf marks (replaceChar old new text) := by
  rw [FreeOf, replaceChar, String.toList_ofList, forall_mem_map]
  intro c listed
  split
  case isTrue => exact fits
  case isFalse other => exact free c listed other

end Text

theorem AccessTransform.ne_idle_of_ofText {modifier : String} {transform : AccessTransform}
    (read : ofText modifier = .ok transform) : transform ≠ .idle := by
  rintro rfl
  simp only [ofText] at read
  split_ifs at read with empty kept
  · exact absurd read fail_ne_ok
  · exact kept (congrArg finalChange (Except.ok.inj read))
  · split at read
    · cases read
    · exact absurd read fail_ne_ok

namespace AccessTarget

theorem owner_ofMember (owner member : String) : (ofMember owner member).owner = owner := by
  rw [ofMember]
  split <;> rfl

theorem writableMember_ofMember {owner member : String} (nonempty : member ≠ "") (free : FreeOf ['#'] member) :
    (ofMember owner member).WritableMember := by
  rw [ofMember]
  by_cases opened : '(' ∈ member.toList
  · obtain ⟨name, descriptor, split, unopened⟩ := eq_append_cons_of_mem opened
    rw [split, cutFirst?_append _ _ unopened]
    have inside {part : List Char} (within : part ⊆ name ++ '(' :: descriptor) : FreeOf ['#'] (String.ofList part) :=
      fun c listed => free c (split ▸ within (by simpa using listed))
    exact ⟨(inside (subset_append_left _ _)).insert (by simpa using unopened), by simp,
      inside (subset_append_right _ _)⟩
  · rw [cutFirst?_eq_none opened]
    exact ⟨nonempty, free.insert opened⟩

end AccessTarget

namespace TransformerLine

variable {line : String} {entry : TransformerLine}

theorem ofText_beforeFirst (line : String) : ofText (beforeFirst '#' line) = ofText line := by
  rw [ofText, beforeFirst_of_absent (beforeFirst_unmarked '#' line), ← ofText]

theorem ofText_eq_none : ofText line = .ok none ↔ States line [] := by
  rw [states_iff, ofText]
  split <;> simp_all

/-- What is read from a line can be written in one. -/
theorem writable_of_ofText (read : ofText line = .ok (some entry)) :
    entry.target.Writable ∧ entry.transform ≠ .idle := by
  have free := @freeOf_words line
  have owned (owner : String) (listed : owner ∈ Text.words (Text.beforeFirst '#' line)) :
      replaceChar '.' '/' owner ≠ "" ∧ FreeOf ['#', '.'] (replaceChar '.' '/' owner) := by
    obtain ⟨nonempty, unmarked⟩ := free listed
    refine ⟨by simpa [replaceChar] using nonempty, freeOf_replaceChar (fun c spelled other => ?_) (by decide)⟩
    simpa [other] using unmarked c spelled
  rw [ofText] at read
  split at read
  case h_1 => cases read
  case h_2 modifier owner words =>
    simp only [bind_eq_ok, pure_eq_ok, Option.some.injEq] at read
    obtain ⟨transform, parsed, rfl⟩ := read
    obtain ⟨nonempty, unmarked⟩ := owned owner (by simp [words])
    exact ⟨⟨nonempty, unmarked, trivial⟩, AccessTransform.ne_idle_of_ofText parsed⟩
  case h_3 modifier owner member words =>
    simp only [bind_eq_ok, pure_eq_ok, Option.some.injEq] at read
    obtain ⟨transform, parsed, rfl⟩ := read
    obtain ⟨nonempty, unmarked⟩ := owned owner (by simp [words])
    obtain ⟨filled, plain⟩ := free (show member ∈ _ by simp [words])
    refine ⟨⟨?_, ?_, writableMember_ofMember filled plain⟩, AccessTransform.ne_idle_of_ofText parsed⟩
    · rwa [owner_ofMember]
    · rwa [owner_ofMember]
  case h_4 => exact absurd read fail_ne_ok

end TransformerLine

namespace Descriptor

variable {change : String → String} {descriptor : String}

/-- A character of a renamed descriptor was there before or belongs to a new name. -/
theorem mem_rename (complete : Complete descriptor) {c : Char} (listed : c ∈ (rename change descriptor).toList) :
    c ∈ descriptor.toList ∨ ∃ name, change name ≠ name ∧ c ∈ (change name).toList := by
  obtain ⟨row, cut, written, -⟩ := exists_row complete
  rw [rename, String.toList_ofList, cut, spell, mem_flatten] at listed
  obtain ⟨_, member, inside⟩ := listed
  simp only [map_map, mem_map] at member
  obtain ⟨piece, held, rfl⟩ := member
  have kept (spelled : c ∈ piece.toChars) : c ∈ descriptor.toList := by
    rw [written, spell]
    exact mem_flatten_of_mem (mem_map_of_mem held) spelled
  cases piece with
  | char _ => exact .inl (kept inside)
  | name chars =>
    by_cases same : change (String.ofList chars) = String.ofList chars
    · exact .inl (kept (by simpa [Piece.rename, same] using inside))
    · simp only [Function.comp_apply, Piece.rename, Piece.toChars, mem_cons, mem_append, not_mem_nil,
        or_false] at inside
      rcases inside with (rfl | inside) | rfl
      · exact .inl (kept (by simp [Piece.toChars]))
      · exact .inr ⟨_, same, inside⟩
      · exact .inl (kept (by simp [Piece.toChars]))

end Descriptor

namespace MappingTable

/-- New names can stand in a line. -/
structure Writable (table : MappingTable) : Prop where
  classes : ∀ new ∈ table.classes.values, new ≠ "" ∧ FreeOf ['#', '.', '('] new
  members : ∀ entry ∈ table.memberEntries, entry.newName ≠ "" ∧ FreeOf ['#', '('] entry.newName

variable {table : MappingTable} {kind : MemberKind} {owner name descriptor new : String}

theorem exists_entry_of_memberByName? (found : table.memberByName? kind owner name = some new) :
    ∃ entry ∈ table.memberEntries, entry.newName = new := by
  simp only [memberByName?, Option.bind_eq_bind, Option.bind_eq_some_iff, Option.pure_def, Option.some.injEq] at found
  obtain ⟨members, held, ⟨key, _⟩, first, rfl⟩ := found
  refine ⟨⟨owner, kind, key, _⟩, mem_memberEntries.mpr ?_, rfl⟩
  rw [member?, held]
  exact OrderedMap.mem_entries.mp (mem_of_find?_eq_some first)

theorem Writable.className (writable : table.Writable) (renamed : table.className name ≠ name) :
    table.className name ≠ "" ∧ FreeOf ['#', '.', '('] (table.className name) := by
  cases found : table.class? name with
  | none => exact absurd (className_of_none found) renamed
  | some new =>
    rw [className_of_some found]
    exact writable.classes new (OrderedMap.mem_values.mpr ⟨name, found⟩)

theorem Writable.member (writable : table.Writable)
    (found : (∃ descriptor, table.member? kind owner name descriptor = some new) ∨
      table.memberByName? kind owner name = some new) : new ≠ "" ∧ FreeOf ['#', '('] new := by
  obtain ⟨entry, listed, rfl⟩ : ∃ entry ∈ table.memberEntries, entry.newName = new := by
    rcases found with ⟨descriptor, found⟩ | found
    · obtain ⟨entry, listed, -, named⟩ := member?_eq_some.mp found
      exact ⟨entry, listed, named⟩
    · exact exists_entry_of_memberByName? found
  exact writable.members entry listed

end MappingTable

namespace AccessTarget

/-- The name of a method under a table: that of the entry with its descriptor, or else that of the first entry with
its name, or else its own. -/
def methodName (table : MappingTable) (owner name descriptor : String) : String :=
  ((table.member? .method owner name descriptor).or (table.memberByName? .method owner name)).getD name

/-- The second symbol is the first one under the new names of its class, its member and its descriptor. -/
inductive Renamed (table : MappingTable) : AccessTarget → AccessTarget → Prop
  | ofClass (owner : String) : Renamed table (.ofClass owner) (.ofClass (table.className owner))
  | ofMethod {owner name descriptor newDescriptor : String}
    (described : table.mapDescriptor descriptor = .ok newDescriptor) :
    Renamed table (.ofMethod owner name descriptor)
      (.ofMethod (table.className owner) (methodName table owner name descriptor) newDescriptor)
  | ofField (owner name : String) : Renamed table (.ofField owner name)
      (.ofField (table.className owner) ((table.memberByName? .field owner name).getD name))

variable {table : MappingTable} {target renamed : AccessTarget}

theorem renamed_iff : target.Renamed table renamed ↔ mapTarget table target = .ok renamed := by
  constructor
  · rintro (_ | described | _)
    · rfl
    · simp [mapTarget, described, methodName]
    · rfl
  · intro mapped
    cases target with
    | ofClass owner =>
      cases mapped
      exact .ofClass owner
    | ofMethod owner name descriptor =>
      simp only [mapTarget, bind_eq_ok, pure_eq_ok] at mapped
      obtain ⟨_, described, rfl⟩ := mapped
      exact .ofMethod described
    | ofField owner name =>
      cases mapped
      exact .ofField owner name

theorem exists_renamed : (∃ renamed, target.Renamed table renamed) ↔ ∀ owner name descriptor,
      target = .ofMethod owner name descriptor → ¬ Unterminated descriptor := by
  simp only [← complete_iff]
  constructor
  · rintro ⟨_, renames⟩ owner name descriptor rfl
    obtain _ | described | _ := renames
    exact (mapDescriptor_eq_ok.mp described).1
  · intro complete
    cases target with
    | ofClass owner => exact ⟨_, .ofClass owner⟩
    | ofMethod owner name descriptor =>
      exact ⟨_, .ofMethod (mapDescriptor_eq_ok.mpr ⟨complete owner name descriptor rfl, rfl⟩)⟩
    | ofField owner name => exact ⟨_, .ofField owner name⟩

theorem Renamed.writable (renames : target.Renamed table renamed) (fits : table.Writable) (writable : target.Writable) :
    renamed.Writable := by
  obtain ⟨nonempty, owned⟩ : table.className target.owner ≠ "" ∧ FreeOf ['#', '.'] (table.className target.owner) := by
    by_cases same : table.className target.owner = target.owner
    · rw [same]
      exact ⟨writable.nonempty, writable.owner⟩
    · obtain ⟨nonempty, free⟩ := fits.className same
      exact ⟨nonempty, free.mono (by simp)⟩
  cases renames with
  | ofClass owner => exact ⟨nonempty, owned, trivial⟩
  | @ofMethod owner name descriptor _ described =>
    obtain ⟨named, opened, free⟩ := writable.member
    obtain ⟨complete, rfl⟩ := mapDescriptor_eq_ok.mp described
    have start : startsWith '(' (rename table.className descriptor) = _ := startsWith_rename complete
    refine ⟨nonempty, owned, ?_, by simpa [startsWith, opened] using start, fun c listed => ?_⟩
    · rw [methodName]
      cases found : (table.member? .method owner name descriptor).or (table.memberByName? .method owner name) with
      | none => exact named
      | some new => exact (fits.member ((Option.or_eq_some_iff.mp found).imp (⟨_, ·⟩) And.right)).2
    · rcases mem_rename complete listed with inside | ⟨name, changed, inside⟩
      · exact free c inside
      · exact (fits.className changed).2.mono (by simp) c inside
  | ofField owner name =>
    refine ⟨nonempty, owned, ?_⟩
    cases found : table.memberByName? .field owner name with
    | none => exact writable.member
    | some new => exact fits.member (.inr found)

end AccessTarget

namespace AuxiliaryFiles

variable {table : MappingTable} {line new text : String} {number : Nat}

theorem mapTransformerLine_eq_ok : mapTransformerLine table number line = .ok new ↔
      (States line [] ∧ new = line) ∨ ∃ entry target, ofText line = .ok (some entry) ∧
        entry.target.Renamed table target ∧ new = TransformerLine.text { entry with target } ++ comment line := by
  simp only [mapTransformerLine, bind_eq_ok, within_eq_ok, ofText_beforeFirst, renamed_iff, ← ofText_eq_none]
  constructor
  · rintro ⟨_ | entry, read, written⟩
    · exact .inl ⟨read, (pure_eq_ok.mp written).symm⟩
    · simp only [bind_eq_ok, pure_eq_ok] at written
      obtain ⟨target, renamed, rfl⟩ := written
      exact .inr ⟨entry, target, read, renamed, rfl⟩
  · rintro (⟨read, rfl⟩ | ⟨entry, target, read, renamed, rfl⟩)
    · exact ⟨none, read, rfl⟩
    · exact ⟨some entry, read, by simp [renamed]⟩

/-- The line cannot be read, or it has a descriptor that cannot be renamed. -/
def Broken (line : String) : Prop :=
  (∃ failure, ofText line = .error failure) ∨ ∃ owner name descriptor transform,
    ofText line = .ok (some ⟨.ofMethod owner name descriptor, transform⟩) ∧
      Unterminated descriptor

theorem exists_mapTransformerLine : (∃ new, mapTransformerLine table number line = .ok new) ↔ ¬ Broken line := by
  simp only [mapTransformerLine_eq_ok, ← ofText_eq_none, Broken]
  cases read : ofText line with
  | error failure => simp
  | ok answer =>
    cases answer with
    | none => simp
    | some entry =>
      obtain ⟨target, transform⟩ := entry
      have renames : (∃ renamed, target.Renamed table renamed) ↔ _ := exists_renamed
      simpa [eq_comm] using renames

theorem comment_appended (line : String) {entry : String} (unmarked : '#' ∉ entry.toList) :
    ofText (entry ++ comment line) = ofText entry ∧ (cutFirst? '#' (entry ++ comment line).toList).map Prod.snd =
        (cutFirst? '#' line.toList).map Prod.snd := by
  cases cut : cutFirst? '#' line.toList with
  | none => simp [comment, cut, cutFirst?_eq_none unmarked]
  | some parts =>
    have spaced : '#' ∉ entry.toList ++ [' '] := by simpa using unmarked
    have again : cutFirst? '#' (entry ++ comment line).toList = some (entry.toList ++ [' '], parts.2) := by
      simpa [comment, cut] using cutFirst?_append _ parts.2 spaced
    refine ⟨?_, by rw [again]; rfl⟩
    have words : Text.words (Text.beforeFirst '#' (entry ++ comment line)) =
        Text.words (Text.beforeFirst '#' entry) := by
      rw [beforeFirst_of_absent unmarked, beforeFirst, again]
      simp [Text.words, Text.wordsFrom_space]
    rw [ofText, ofText, words]

/-- A line without an entry stays. Any other line becomes one that is read as the renamed entry, with the same
comment. -/
inductive LineRenamed (table : MappingTable) (line : String) : String → Prop
  | kept (idle : States line []) : LineRenamed table line line
  | entry {entry : TransformerLine} {target : AccessTarget} {new : String}
    (read : ofText line = .ok (some entry)) (renamed : entry.target.Renamed table target)
    (reread : ofText new = .ok (some { entry with target }))
    (comment : (cutFirst? '#' new.toList).map Prod.snd = (cutFirst? '#' line.toList).map Prod.snd) :
    LineRenamed table line new

theorem mem_comment {c : Char} (listed : c ∈ (comment line).toList) : c = ' ' ∨ c ∈ line.toList := by
  by_cases marked : '#' ∈ line.toList
  · obtain ⟨before, after, split, unmarked⟩ := eq_append_cons_of_mem marked
    rw [comment, split, cutFirst?_append _ _ unmarked] at listed
    rw [split]
    simp only [String.toList_append, String.toList_ofList, mem_append] at listed
    rcases listed with mark | inside
    · rcases (by simpa using mark : c = ' ' ∨ c = '#') with rfl | rfl <;> simp
    · exact .inr (by simp [inside])
  · simp [comment, cutFirst?_eq_none marked] at listed

theorem lineRenamed_of_map (fits : table.Writable) (single : '\n' ∉ line.toList) (plain : '\r' ∉ line.toList)
    (mapped : mapTransformerLine table number line = .ok new) : LineRenamed table line new ∧ OneLine new := by
  rcases mapTransformerLine_eq_ok.mp mapped with ⟨idle, rfl⟩ | ⟨entry, target, read, renamed, rfl⟩
  · exact ⟨.kept idle, single, fun last => plain (mem_of_getLast? last)⟩
  · obtain ⟨writable, active⟩ := writable_of_ofText read
    have written := renamed.writable fits writable
    have spelled {c : Char} := @spelled { entry with target } written active c
    obtain ⟨same, comment⟩ := comment_appended line fun marked => (spelled marked).1 rfl
    have absent {c : Char} (blank : isBlank c) (other : c ≠ ' ') (outside : c ∉ line.toList) :
        c ∉ (text { entry with target } ++ AuxiliaryFiles.comment line).toList := by
      rw [String.toList_append, mem_append, not_or]
      exact ⟨fun listed => by simpa [other, blank] using (spelled listed).2, fun listed => by
        simpa [other, outside] using mem_comment listed⟩
    exact ⟨.entry read renamed (same.trans (TransformerLine.ofText_text written active)) comment,
      absent (by decide) (by decide) single, fun last => absent (by decide) (by decide) plain (mem_of_getLast? last)⟩

/-- The number of a line matters only for what is told of its failure. -/
theorem mapTransformer_eq_ok {out : String} : mapTransformer table text = .ok out ↔ ∃ news,
      Forall₂ (fun line new => mapTransformerLine table 0 line = .ok new) (lines text) news ∧ unlines news = out := by
  have unnumbered (news : List String) :
      Forall₂ (fun item new => mapTransformerLine table (item.2 + 1) item.1 = .ok new) (lines text).zipIdx news ↔
        Forall₂ (fun line new => mapTransformerLine table 0 line = .ok new) (lines text) news := by
    conv_rhs => rw [← zipIdx_map_fst 0 (lines text)]
    rw [forall₂_map_left_iff]
    simp only [mapTransformerLine_eq_ok]
  simp only [mapTransformer, bind_eq_ok, mapM_eq_ok, pure_eq_ok, join_newlines, unnumbered]

/-- Every line of an access transformer is renamed by itself, and the lines that come out are found again. Renaming
fails if and only if a line cannot be read or has a descriptor that cannot be renamed. -/
theorem mapTransformer_renames (fits : table.Writable) (plain : ∀ line ∈ lines text, '\r' ∉ line.toList) :
    (∀ out, mapTransformer table text = .ok out → Forall₂ (LineRenamed table) (lines text) (lines out)) ∧
      ((∃ failure, mapTransformer table text = .error failure) ↔ ∃ line ∈ lines text, Broken line) := by
  refine ⟨fun out mapped => ?_, ?_⟩
  · obtain ⟨news, run, rfl⟩ := mapTransformer_eq_ok.mp mapped
    have renamed : Forall₂ (fun line new => LineRenamed table line new ∧ OneLine new) (lines text) news := by
      refine ((forall₂_and_left _ _).mpr ⟨fun _ => id, run⟩).imp ?_
      rintro line new ⟨listed, mapped⟩
      exact lineRenamed_of_map fits (newline_notMem_lines listed) (plain line listed) mapped
    have oneLine : ∀ new ∈ news, OneLine new := by
      intro new listed
      obtain ⟨_, -, -, oneLine⟩ := exists_mem_of_forall₂ renamed.flip listed
      exact oneLine
    rw [lines_unlines oneLine]
    exact renamed.imp fun _ _ => And.left
  · rw [← not_iff_not]
    have succeeds : (¬ ∃ failure, mapTransformer table text = .error failure) ↔
        ∃ out, mapTransformer table text = .ok out := by
      cases mapTransformer table text <;> simp
    rw [succeeds]
    simp only [mapTransformer_eq_ok, @exists_comm String, exists_and_left, exists_eq', and_true, exists_forall₂,
      exists_mapTransformerLine, not_exists, not_and]

/-- A class with a method and a field under readable names. -/
def readable : MappingTable :=
  (empty "srg" "named").insertClass "src/C_1_" "Foo"
    |>.insertMember ⟨"src/C_1_", .method, ⟨"m_2_", "(Lsrc/C_1_;)V"⟩, "tick"⟩
    |>.insertMember ⟨"src/C_1_", .field, ⟨"f_3_", "I"⟩, "count"⟩

def obscureText : String := "# opened\npublic-f src.C_1_ m_2_(Lsrc/C_1_;)V #tick\nprotected src.C_1_ f_3_\n"

def readableText : String := "# opened\npublic-f Foo tick(LFoo;)V #tick\nprotected Foo count\n"

/-- The field is found by its name alone. In the second text the descriptor of the method is not ended. -/
theorem mapTransformer_renames_readable :
    (mapTransformer readable obscureText = .ok readableText ∧
      Forall₂ (LineRenamed readable) (lines obscureText) (lines readableText)) ∧
    ((∃ failure, mapTransformer readable "public src.C_1_ m_2_(Lsrc/C_1_" = .error failure) ↔
      ∃ line ∈ lines "public src.C_1_ m_2_(Lsrc/C_1_", Broken line) := by
  have fits : readable.Writable := ⟨by decide +kernel, by decide +kernel⟩
  have mapped : mapTransformer readable obscureText = .ok readableText := by decide +kernel
  exact ⟨⟨mapped, (mapTransformer_renames fits (by decide +kernel)).1 _ mapped⟩,
    (mapTransformer_renames fits (by decide +kernel)).2⟩

end AuxiliaryFiles

end JarRemap
