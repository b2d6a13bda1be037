import JarRemap.Fixup.AuxiliaryFiles
import JarRemap.Proofs.TableContents
import JarRemap.Proofs.TextCuts

/-!
# Literals of scripts

Class names are replaced in the string literals of a script. What counts as a literal is decided by the quotes
alone, taken in pairs from the start: neither comments nor escapes are known. So exactly the literals that name a
class are replaced as long as every quote begins or ends one. A quote in a comment, or one escaped in a literal,
moves the pairs of all that follows.
-/
namespace JarRemap

open List

/-- A piece of a script: a literal with its quote, or code and comments between literals. -/
inductive ScriptPart
  | literal (quote : Char) (content : String)
  | code (text : String)

namespace ScriptPart

def IsQuote (c : Char) : Prop := c = '"' ∨ c = '\''

instance (c : Char) : Decidable (IsQuote c) := inferInstanceAs (Decidable (_ ∨ _))

def toChars : ScriptPart → List Char
  | literal quote content => quote :: content.toList ++ [quote]
  | code text => text.toList

def spell (parts : List ScriptPart) (tail : List Char) : String := String.ofList (parts.flatMap toChars ++ tail)

/-- Every quote of the part begins or ends a literal, or is of the other kind and inside one. -/
def Paired : ScriptPart → Prop
  | literal quote content => IsQuote quote ∧ quote ∉ content.toList
  | code text => ∀ c ∈ text.toList, ¬ IsQuote c

/-- Nothing follows, or a literal begins that has no end. -/
inductive Unclosed : List Char → Prop
  | nil : Unclosed []
  | literal {quote : Char} {content : List Char} (isQuote : IsQuote quote) (absent : quote ∉ content) :
    Unclosed (quote :: content)

/-- The script is made of the parts, up to a literal without an end. -/
structure Splits (script : String) (parts : List ScriptPart) (tail : List Char) : Prop where
  paired : ∀ part ∈ parts, part.Paired
  unclosed : Unclosed tail
  spelled : script = spell parts tail

/-- The text is the name of a class with dots for all or some of its slashes. -/
def Dotted (name text : String) : Prop :=
  '.' ∉ name.toList ∧ text ≠ name ∧ Text.replaceChar '/' '.' text = Text.replaceChar '/' '.' name

/-- The literal names a renamed class, and `new` is the new name in the same form. -/
inductive Names (table : MappingTable) (content : String) : String → Prop
  | slashed {new : String} (found : table.class? content = some new) : Names table content new
  | dotted {name new : String} (absent : table.class? content = none) (dotted : Dotted name content)
    (found : table.class? name = some new) : Names table content (Text.replaceChar '/' '.' new)

inductive Renamed (table : MappingTable) : ScriptPart → ScriptPart → Prop
  | named {quote : Char} {content new : String} (names : Names table content new) :
    Renamed table (literal quote content) (literal quote new)
  | other {quote : Char} {content : String} (unnamed : ¬ ∃ new, Names table content new) :
    Renamed table (literal quote content) (literal quote content)
  | code (text : String) : Renamed table (code text) (code text)

variable {table : MappingTable} {name text content new : String}

theorem dotted_iff : Dotted name text ↔ '.' ∈ text.toList ∧ Text.replaceChar '.' '/' text = name := by
  have again {old new : Char} (text : String) :
      Text.replaceChar new old (Text.replaceChar old new text) = Text.replaceChar new old text := by
    simp only [Text.replaceChar, String.toList_ofList, map_map, String.ofList_inj, map_inj_left, Function.comp_apply]
    intro c _
    split_ifs <;> simp_all
  have undotted : '.' ∉ (Text.replaceChar '.' '/' text).toList := by
    simp only [Text.replaceChar, String.toList_ofList, mem_map, not_exists, not_and]
    intro c _
    split_ifs <;> simp_all
  constructor
  · rintro ⟨plain, other, same⟩
    have spelled : Text.replaceChar '.' '/' text = name := by
      rw [← again, same, Text.replaceChar_replaceChar plain]
    refine ⟨by_contra fun absent => other ?_, spelled⟩
    rw [← spelled, ← again, Text.replaceChar_replaceChar absent]
  · rintro ⟨marked, rfl⟩
    exact ⟨undotted, fun same => undotted (same ▸ marked), (again text).symm⟩

theorem mapLiteral_iff : AuxiliaryFiles.mapLiteral table content = new ↔
      Names table content new ∨ (¬ ∃ new, Names table content new) ∧ new = content := by
  have names (other : String) : Names table content other ↔ table.class? content = some other ∨
      table.class? content = none ∧ '.' ∈ content.toList ∧ ∃ new,
        table.class? (Text.replaceChar '.' '/' content) = some new ∧ other = Text.replaceChar '/' '.' new := by
    constructor
    · rintro (found | ⟨absent, dotted, found⟩)
      · exact .inl found
      · obtain ⟨marked, rfl⟩ := dotted_iff.mp dotted
        exact .inr ⟨absent, marked, _, found, rfl⟩
    · rintro (found | ⟨absent, marked, new, found, rfl⟩)
      · exact .slashed found
      · exact .dotted absent (dotted_iff.mpr ⟨marked, rfl⟩) found
  simp only [names, AuxiliaryFiles.mapLiteral]
  cases whole : table.class? content with
  | some new => simp [eq_comm]
  | none =>
    by_cases marked : '.' ∈ content.toList
    · cases found : table.class? (Text.replaceChar '.' '/' content) <;> simp [marked, eq_comm]
    · simp [marked, eq_comm]

end ScriptPart

namespace AuxiliaryFiles

open ScriptPart

variable {table : MappingTable} {part : ScriptPart} {parts : List ScriptPart} {tail text content before : List Char}
  {quote : Char}

theorem mapScriptFrom_code (plain : ∀ c ∈ text, ¬ IsQuote c) (rest : List Char) :
    mapScriptFrom table none (text ++ rest) = text ++ mapScriptFrom table none rest := by
  induction text with
  | nil => rfl
  | cons c text ih =>
    obtain ⟨unquoted, plain⟩ := forall_mem_cons.mp plain
    rw [cons_append, mapScriptFrom, if_neg (by simpa [IsQuote] using unquoted), ih plain, cons_append]

theorem mapScriptFrom_content (absent : quote ∉ content) (rest : List Char) :
    mapScriptFrom table (some (quote, before)) (content ++ rest) =
      mapScriptFrom table (some (quote, content.reverse ++ before)) rest := by
  induction content generalizing before with
  | nil => rfl
  | cons c content ih =>
    obtain ⟨other, absent⟩ := not_or.mp (mt mem_cons.mpr absent)
    rw [cons_append, mapScriptFrom, if_neg (Ne.symm other), ih absent, reverse_cons, append_assoc, singleton_append]

theorem mapScriptFrom_opened (isQuote : IsQuote quote) (rest : List Char) :
    mapScriptFrom table none (quote :: rest) = mapScriptFrom table (some (quote, [])) rest := by
  rw [mapScriptFrom, if_pos (by simpa [IsQuote] using isQuote)]

theorem exists_renamed_part (paired : part.Paired) : ∃ new, Renamed table part new ∧ ∀ rest,
      mapScriptFrom table none (part.toChars ++ rest) = new.toChars ++ mapScriptFrom table none rest := by
  cases part with
  | code text => exact ⟨_, .code text, mapScriptFrom_code paired⟩
  | literal quote content =>
    obtain ⟨isQuote, absent⟩ := paired
    refine ⟨.literal quote (mapLiteral table content), ?_, fun rest => ?_⟩
    · rcases mapLiteral_iff.mp rfl with names | ⟨unnamed, same⟩
      · exact .named names
      · rw [same]
        exact .other unnamed
    · rw [toChars, cons_append, cons_append, append_assoc, mapScriptFrom_opened isQuote, mapScriptFrom_content absent]
      simp [mapScriptFrom, toChars]

theorem mapScriptFrom_unclosed (unclosed : Unclosed tail) : mapScriptFrom table none tail = tail := by
  cases unclosed with
  | nil => rfl
  | @literal quote content isQuote absent =>
    have read : mapScriptFrom table (some (quote, [])) (content ++ []) = _ := mapScriptFrom_content absent []
    rw [mapScriptFrom_opened isQuote, ← append_nil content, read]
    simp [mapScriptFrom]

theorem exists_splits (chars : List Char) : ∃ parts tail, Splits (String.ofList chars) parts tail := by
  -- A literal may end anywhere later, so what is after it is not the tail of the list.
  induction length : chars.length using Nat.strong_induction_on generalizing chars with
  | _ count ih =>
    subst length
    have after (part : ScriptPart) (here : part.Paired) (rest : List Char) (split : chars = part.toChars ++ rest)
        (shorter : rest.length < chars.length) : ∃ parts tail, Splits (String.ofList chars) parts tail := by
      obtain ⟨parts, tail, paired, unclosed, spelled⟩ := ih _ shorter rest rfl
      refine ⟨part :: parts, tail, forall_mem_cons.mpr ⟨here, paired⟩, unclosed, ?_⟩
      rw [split, String.ofList_append, spelled]
      simp [spell]
    cases chars with
    | nil => exact ⟨[], [], by simp, .nil, rfl⟩
    | cons c rest =>
      by_cases isQuote : IsQuote c
      · by_cases closed : c ∈ rest
        · obtain ⟨content, later, rfl, absent⟩ := eq_append_cons_of_mem closed
          exact after (.literal c (String.ofList content)) ⟨isQuote, by simpa using absent⟩ later (by simp [toChars])
            (by simp; omega)
        · exact ⟨[], c :: rest, by simp, .literal isQuote closed, rfl⟩
      · exact after (.code (String.singleton c)) (by simpa [Paired] using isQuote) rest (by simp [toChars]) (by simp)

theorem exists_renamed_parts (paired : ∀ part ∈ parts, part.Paired) (unclosed : Unclosed tail) :
    ∃ news, Forall₂ (Renamed table) parts news ∧
      mapScriptFrom table none (parts.flatMap toChars ++ tail) = news.flatMap toChars ++ tail := by
  induction parts with
  | nil => exact ⟨[], .nil, mapScriptFrom_unclosed unclosed⟩
  | cons part parts ih =>
    obtain ⟨here, later⟩ := forall_mem_cons.mp paired
    obtain ⟨new, renamed, run⟩ := @exists_renamed_part table _ here
    obtain ⟨news, others, rest⟩ := ih later
    exact ⟨new :: news, .cons renamed others, by rw [flatMap_cons, append_assoc, run, rest, flatMap_cons, append_assoc]⟩

/-- Every script splits at its quotes. Of any such parts, exactly the literals that name a class are replaced, and a
script without one is left as it is. -/
theorem mapScript_literals (table : MappingTable) (script : String) :
    (∃ parts tail, Splits script parts tail) ∧ ∀ parts tail, Splits script parts tail →
      (∃ news, Forall₂ (Renamed table) parts news ∧ mapScript table script = spell news tail) ∧
        ((∀ quote content new, .literal quote content ∈ parts → Names table content new → new = content) →
          mapScript table script = script) := by
  refine ⟨by simpa using exists_splits script.toList, fun parts tail splits => ?_⟩
  obtain ⟨paired, unclosed, rfl⟩ := splits
  obtain ⟨news, renamed, run⟩ := @exists_renamed_parts table _ _ paired unclosed
  have mapped : mapScript table (spell parts tail) = spell news tail := by
    rw [mapScript, spell, String.toList_ofList, run, spell]
  refine ⟨⟨news, renamed, mapped⟩, fun idle => ?_⟩
  have same : parts = news := by
    rw [← forall₂_eq_eq_eq]
    refine ((forall₂_and_left _ _).mpr ⟨fun _ => id, renamed⟩).imp ?_
    rintro _ _ ⟨listed, names | unnamed | _⟩
    · rw [idle _ _ _ listed names]
    · rfl
    · rfl
  rw [mapped, ← same]

/-- A table that moves one class to another package. -/
def moved : MappingTable := (MappingTable.empty "a" "b").insertClass "a/B" "c/D"

theorem mapScript_literals_moved :
    mapScript moved "var b = \"a.B\", c = 'a/B', d = 'a' // B" = "var b = \"c.D\", c = 'c/D', d = 'a' // B" ∧
      ∃ news, Forall₂ (Renamed moved) [.code "var b = ", .literal '"' "a.B", .code " // B"] news ∧
        mapScript moved "var b = \"a.B\" // B" = spell news [] := by
  refine ⟨by decide +kernel, ((mapScript_literals moved _).2 _ _ ⟨?_, .nil, by decide +kernel⟩).1⟩
  simp [Paired, IsQuote]

/-- The quote in the comment is taken for the start of a literal, so the one after it is not found. -/
theorem mapScript_apostrophe : mapScript moved "// don't\nvar c = 'a/B';" = "// don't\nvar c = 'a/B';" ∧
      Names moved "a/B" "c/D" :=
  ⟨by decide +kernel, .slashed (by decide +kernel)⟩

end AuxiliaryFiles

end JarRemap
