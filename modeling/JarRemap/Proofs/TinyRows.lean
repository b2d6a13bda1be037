import JarRemap.Mapping.TinyFile
import JarRemap.Proofs.PlainText

/-!
# Rows of a mapping file

A name is written as it is or with escapes; escapes are taken back when it is read. A row is its first field after
as many tabs as it is deep, with a tab before each other field. Fields without tabs and newlines come back from the
lines of a file row by row.
-/
namespace JarRemap

open List Text List

structure Text.OneField (text : String) : Prop extends Text.OneLine text where
  unbroken : '\t' ∉ text.toList

instance (text : String) : Decidable (OneField text) :=
  decidable_of_iff (_ ∧ _ ∧ _) ⟨fun ⟨single, plain, unbroken⟩ => ⟨⟨single, plain⟩, unbroken⟩,
    fun oneField => ⟨oneField.single, oneField.plain, oneField.unbroken⟩⟩

namespace TinyFile

variable {field : List Char}

/-- How a character is written in a name with escapes. -/
def escapeChar : Char → List Char
  | '\\' => ['\\', '\\']
  | '\n' => ['\\', 'n']
  | '\r' => ['\\', 'r']
  | '\t' => ['\\', 't']
  | '\x00' => ['\\', '0']
  | c => [c]

/-- How a name is written, in a file with or without escapes. -/
def spelled (escapes : Bool) (name : String) : String :=
  if escapes then String.ofList (name.toList.flatMap escapeChar) else name

/-- A character is written as an escape or as itself. None that stands for itself has a meaning in a line. -/
theorem escapeChar_cases (c : Char) :
    (∃ mark, escaped? mark = some c ∧ mark ∉ ['\n', '\r', '\t'] ∧ escapeChar c = ['\\', mark]) ∨
      (c ∉ ['\\', '\n', '\r', '\t'] ∧ escapeChar c = [c]) := by
  unfold escapeChar
  split
  · exact .inl ⟨'\\', rfl, by decide, rfl⟩
  · exact .inl ⟨'n', rfl, by decide, rfl⟩
  · exact .inl ⟨'r', rfl, by decide, rfl⟩
  · exact .inl ⟨'t', rfl, by decide, rfl⟩
  · exact .inl ⟨'0', rfl, by decide, rfl⟩
  · exact .inr ⟨by simp_all, rfl⟩

theorem unescapeChars_escape (name : String) (chars : List Char) :
    unescapeChars name (chars.flatMap escapeChar) = .ok chars := by
  induction chars with
  | nil => rfl
  | cons c chars ih =>
    rcases escapeChar_cases c with ⟨mark, stands, -, written⟩ | ⟨plain, written⟩
    · simp [written, unescapeChars, stands, ih]
    · have other : c ≠ '\\' := by
        rintro rfl
        simp at plain
      rw [flatMap_cons, written, singleton_append, unescapeChars, ih]
      · rfl
      · exact fun same => absurd same other
      · exact fun _ _ same => absurd same other

theorem plainName_spelled (escapes : Bool) (name : String) : plainName escapes (spelled escapes name) = .ok name := by
  cases escapes with
  | false => rfl
  | true => simp [plainName, spelled, unescapeChars_escape]

theorem spelled_oneField {escapes : Bool} {name : String} (plain : escapes = false → OneField name) :
    OneField (spelled escapes name) := by
  cases escapes with
  | false => exact plain rfl
  | true =>
    have harmless : ∀ c ∈ (spelled true name).toList, c ∉ ['\n', '\r', '\t'] := by
      intro c listed
      rw [spelled, if_pos rfl, String.toList_ofList, mem_flatMap] at listed
      obtain ⟨original, -, member⟩ := listed
      rcases escapeChar_cases original with ⟨mark, -, safe, written⟩ | ⟨safe, written⟩
      · rw [written] at member
        rcases mem_pair.mp member with rfl | rfl
        · decide
        · exact safe
      · rw [written] at member
        obtain rfl := mem_singleton.mp member
        exact fun special => safe (mem_cons_of_mem _ special)
    refine ⟨⟨fun listed => harmless _ listed (by decide), fun last => ?_⟩, fun listed => harmless _ listed (by decide)⟩
    exact harmless _ (mem_of_getLast? last) (by decide)

/-- A line of a file, as its fields. -/
structure Row where
  depth : Nat
  first : String
  fields : List String

def Row.text (row : Row) : String :=
  String.ofList (replicate row.depth '\t' ++
    (row.first.toList ++ row.fields.flatMap fun field => '\t' :: field.toList))

/-- The row can be told from its text. -/
structure Row.Legible (row : Row) : Prop where
  named : row.first ≠ ""
  first : OneField row.first
  fields : ∀ field ∈ row.fields, OneField field

theorem parts_single (unbroken : '\t' ∉ field) : parts '\t' field = [field] := by
  induction field with
  | nil => rfl
  | cons c field ih =>
    obtain ⟨other, unbroken⟩ : c ≠ '\t' ∧ '\t' ∉ field := by simpa [eq_comm] using unbroken
    simp [parts, other, ih unbroken]

theorem parts_tab (unbroken : '\t' ∉ field) (rest : List Char) :
    parts '\t' (field ++ '\t' :: rest) = field :: parts '\t' rest := by
  induction field with
  | nil => simp [parts]
  | cons c field ih =>
    obtain ⟨other, unbroken⟩ : c ≠ '\t' ∧ '\t' ∉ field := by simpa [eq_comm] using unbroken
    simp [parts, other, ih unbroken]

theorem parts_fields (first : String) (fields : List String) (unbroken : '\t' ∉ first.toList)
    (others : ∀ field ∈ fields, '\t' ∉ field.toList) :
    parts '\t' (first.toList ++ fields.flatMap fun field => '\t' :: field.toList) =
      first.toList :: fields.map String.toList := by
  induction fields generalizing first with
  | nil => simp [parts_single unbroken]
  | cons field fields ih =>
    obtain ⟨here, later⟩ := forall_mem_cons.mp others
    rw [flatMap_cons, cons_append, parts_tab unbroken, ih field here later, map_cons]

namespace Row

variable {row : Row} {rows : List Row}

theorem Legible.ofText (legible : row.Legible) (number : Nat) :
    Line.ofText number row.text = ⟨number, row.depth, row.first, row.fields⟩ := by
  have start : row.first.toList ≠ [] := fun empty => legible.named (String.toList_eq_nil_iff.mp empty)
  obtain ⟨c, others, first⟩ := exists_cons_of_ne_nil start
  have other : c ≠ '\t' := fun same => legible.first.unbroken (by simp [first, same])
  have content : row.text.toList.dropWhile (· == '\t') =
      row.first.toList ++ row.fields.flatMap fun field => '\t' :: field.toList := by
    rw [text, String.toList_ofList, dropWhile_append_of_pos (by simp [mem_replicate]), first]
    simp [other]
  have tabs : (row.text.toList.takeWhile (· == '\t')).length = row.depth := by
    rw [text, String.toList_ofList, takeWhile_append_of_pos (by simp [mem_replicate]), first]
    simp [other]
  have fields := parts_fields row.first row.fields legible.first.unbroken
    fun field listed => (legible.fields field listed).unbroken
  simp [Line.ofText, content, tabs, fields, Function.comp_def]

theorem Legible.oneLine (legible : row.Legible) : OneLine row.text := by
  have harmless (field : String) (oneField : OneField field) : ('\t' :: field.toList).getLast? ≠ some '\r' := by
    cases chars : field.toList with
    | nil => simp
    | cons c rest =>
      rw [getLast?_cons_cons, ← chars]
      exact oneField.plain
  constructor
  · have single : '\n' ∉ row.first.toList := legible.first.single
    have others : ∀ field ∈ row.fields, '\n' ∉ field.toList := fun field listed => (legible.fields field listed).single
    simp only [text, String.toList_ofList, mem_append, mem_replicate, mem_flatMap, mem_cons]
    rintro (⟨-, same⟩ | here | ⟨field, listed, same | here⟩)
    · exact absurd same (by decide)
    · exact single here
    · exact absurd same (by decide)
    · exact others field listed here
  · rcases eq_nil_or_concat row.fields with none | ⟨front, field, split⟩
    · have start : row.first.toList ≠ [] := fun empty => legible.named (String.toList_eq_nil_iff.mp empty)
      rw [text, none, flatMap_nil, append_nil, String.toList_ofList, getLast?_append_of_ne_nil _ start]
      exact legible.first.plain
    · rw [text, split, String.toList_ofList, concat_eq_append, flatMap_append,
        flatMap_singleton, ← append_assoc, ← append_assoc,
        getLast?_append_of_ne_nil _ (by simp)]
      exact harmless field (legible.fields field (by simp [split]))

/-- The item is the row, as a line with some number. -/
def Shows (row : Row) (item : Outcome Line) : Prop :=
  ∃ number, item = .ok ⟨number, row.depth, row.first, row.fields⟩

theorem shows_linesOf (legible : ∀ row ∈ rows, row.Legible) :
    Forall₂ Shows rows (linesOf (encodeUtf8 (unlines (rows.map text)))) := by
  have oneLine : ∀ line ∈ rows.map text, OneLine line := by
    intro line listed
    obtain ⟨row, member, rfl⟩ := mem_map.mp listed
    exact (legible row member).oneLine
  rw [linesOf, byteLines_unlines oneLine]
  clear oneLine
  generalize 0 = start
  induction rows generalizing start with
  | nil => exact .nil
  | cons row rows ih =>
    obtain ⟨here, later⟩ := forall_mem_cons.mp legible
    refine .cons ⟨start + 1, ?_⟩ (ih later (start + 1))
    simp only [lineOfBytes, ofStream_encodeUtf8]
    exact congrArg Except.ok (here.ofText (start + 1))

end Row

end TinyFile

end JarRemap
