import JarRemap.Proofs.TextCuts
import JarRemap.Text.Blank

/-!
# What a line states

A line states the words that stand before its comment. `CutAt` is the part of a text before the first mark, and
`FallsInto` takes a text apart into blanks and words. The functions that read a line answer as these relations do.
-/
namespace JarRemap.Text

open List

variable {found : List String} {text : String}

section cuts

variable {mark : Char}

theorem cutFirst?_append (before after : List Char) (absent : mark ∉ before) :
    cutFirst? mark (before ++ mark :: after) = some (before, after) := by
  induction before with
  | nil => simp [cutFirst?]
  | cons c before ih =>
    obtain ⟨other, absent⟩ : c ≠ mark ∧ mark ∉ before := by simpa [eq_comm] using absent
    simp [cutFirst?, other, ih absent]

theorem cutFirst?_eq_none {text : List Char} (absent : mark ∉ text) : cutFirst? mark text = none := by
  induction text with
  | nil => rfl
  | cons c text ih =>
    obtain ⟨other, absent⟩ : c ≠ mark ∧ mark ∉ text := by simpa [eq_comm] using absent
    simp [cutFirst?, other, ih absent]

/-- The content is what stands in the text before the first mark, or all of a text without the mark. -/
def CutAt (mark : Char) (text content : String) : Prop :=
  mark ∉ content.toList ∧ (text = content ∨ ∃ after, text.toList = content.toList ++ mark :: after)

theorem beforeFirst_of_absent (absent : mark ∉ text.toList) : beforeFirst mark text = text := by
  rw [beforeFirst, cutFirst?_eq_none absent]

theorem cutAt_iff {content : String} : CutAt mark text content ↔ beforeFirst mark text = content := by
  constructor
  · rintro ⟨absent, rfl | ⟨after, split⟩⟩
    · exact beforeFirst_of_absent absent
    · rw [beforeFirst, split, cutFirst?_append _ _ absent]
      exact String.ofList_toList
  · rintro rfl
    by_cases present : mark ∈ text.toList
    · obtain ⟨before, after, split, absent⟩ := eq_append_cons_of_mem present
      have cut : beforeFirst mark text = String.ofList before := by
        rw [beforeFirst, split, cutFirst?_append _ _ absent]
      rw [cut, CutAt, String.toList_ofList]
      exact ⟨absent, .inr ⟨after, split⟩⟩
    · rw [beforeFirst_of_absent present]
      exact ⟨present, .inl rfl⟩

end cuts

section words

variable {marks : List Char}

/-- The text is one word: it is not empty and has no blanks. -/
structure IsWord (text : String) : Prop where
  nonempty : text ≠ ""
  unblanked : ∀ c ∈ text.toList, isBlank c = false

/-- The text has no blanks and none of the marks. -/
def FreeOf (marks : List Char) (text : String) : Prop := ∀ c ∈ text.toList, isBlank c = false ∧ c ∉ marks

instance (marks : List Char) (text : String) : Decidable (FreeOf marks text) :=
  decidable_of_iff (text.toList.all fun c => !isBlank c && !marks.contains c) (by simp [FreeOf])

theorem FreeOf.mono {others : List Char} (free : FreeOf marks text) (fewer : ∀ c ∈ others, c ∈ marks) :
    FreeOf others text :=
  fun c listed => ⟨(free c listed).1, fun marked => (free c listed).2 (fewer c marked)⟩

theorem FreeOf.append {first second : String} (free : FreeOf marks first) (freeToo : FreeOf marks second) :
    FreeOf marks (first ++ second) := by
  intro c listed
  rw [String.toList_append] at listed
  exact (mem_append.mp listed).elim (free c) (freeToo c)

theorem FreeOf.isWord (free : FreeOf marks text) (nonempty : text ≠ "") : IsWord text :=
  ⟨nonempty, fun c listed => (free c listed).1⟩

/-- The text falls into the words: there are blanks in front, and what follows a word is a blank or nothing. -/
inductive FallsInto : List Char → List String → Prop
  | blank {blanks : List Char} (blank : ∀ c ∈ blanks, isBlank c) : FallsInto blanks []
  | word {blanks rest : List Char} {word : String} {words : List String} (blank : ∀ c ∈ blanks, isBlank c)
    (isWord : IsWord word) (ends : ∀ c ∈ rest.head?, isBlank c) (later : FallsInto rest words) :
    FallsInto (blanks ++ word.toList ++ rest) (word :: words)

variable {word : String}

theorem wordsFrom_blanks {blanks : List Char} (blank : ∀ c ∈ blanks, isBlank c) (rest : List Char) :
    wordsFrom [] (blanks ++ rest) = wordsFrom [] rest := by
  induction blanks with
  | nil => rfl
  | cons c blanks ih =>
    obtain ⟨here, later⟩ := forall_mem_cons.mp blank
    simp [wordsFrom, here, ih later]

theorem wordsFrom_append {run : List Char} (unblanked : ∀ c ∈ run, isBlank c = false) (before rest : List Char) :
    wordsFrom before (run ++ rest) = wordsFrom (run.reverse ++ before) rest := by
  induction run generalizing before with
  | nil => rfl
  | cons c run ih =>
    obtain ⟨here, later⟩ := forall_mem_cons.mp unblanked
    simp [wordsFrom, here, ih later]

theorem wordsFrom_word (isWord : IsWord word) {rest : List Char} (ends : ∀ c ∈ rest.head?, isBlank c) :
    wordsFrom [] (word.toList ++ rest) = word :: wordsFrom [] rest := by
  have nonempty : word.toList ≠ [] := fun empty => isWord.nonempty (String.toList_eq_nil_iff.mp empty)
  rw [wordsFrom_append isWord.unblanked, append_nil]
  cases rest with
  | nil => simp [wordsFrom, nonempty]
  | cons c rest =>
    have blank : isBlank c := ends c rfl
    simp [wordsFrom, blank, nonempty]

theorem FallsInto.cons_blank {text : List Char} {words : List String} {c : Char} (blank : isBlank c)
    (falls : FallsInto text words) : FallsInto (c :: text) words := by
  cases falls with
  | blank others => exact .blank (forall_mem_cons.mpr ⟨blank, others⟩)
  | @word blanks rest word words others isWord ends later =>
    have more : ∀ d ∈ c :: blanks, isBlank d := forall_mem_cons.mpr ⟨blank, others⟩
    exact .word more isWord ends later

theorem fallsInto_wordsFrom {before : List Char} (unblanked : ∀ c ∈ before, isBlank c = false)
    (rest : List Char) : FallsInto (before.reverse ++ rest) (wordsFrom before rest) := by
  have nothing : ∀ c ∈ ([] : List Char), isBlank c := by simp
  -- the word that is being read ends in front of what is left
  have ended {before rest : List Char} {words : List String} (unblanked : ∀ c ∈ before, isBlank c = false)
      (nonempty : before ≠ []) (ends : ∀ c ∈ rest.head?, isBlank c) (later : FallsInto rest words) :
      FallsInto (before.reverse ++ rest) (String.ofList before.reverse :: words) := by
    have isWord : IsWord (String.ofList before.reverse) := ⟨by simpa using nonempty, by simpa using unblanked⟩
    simpa using FallsInto.word nothing isWord ends later
  induction rest generalizing before with
  | nil =>
    by_cases empty : before = []
    · simpa [empty, wordsFrom] using FallsInto.blank nothing
    · simpa [wordsFrom, empty] using ended unblanked empty (by simp) (.blank nothing)
  | cons c rest ih =>
    by_cases blank : isBlank c
    · have rested : FallsInto ([].reverse ++ rest) (wordsFrom [] rest) := ih (by simp)
      have later : FallsInto (c :: rest) (wordsFrom [] rest) := rested.cons_blank blank
      by_cases empty : before = []
      · simpa [wordsFrom, blank, empty] using later
      · simpa [wordsFrom, blank, empty] using ended unblanked empty (by simpa using blank) later
    · rw [Bool.not_eq_true] at blank
      have here := ih (forall_mem_cons.mpr ⟨blank, unblanked⟩)
      simpa [wordsFrom, blank] using here

theorem fallsInto_iff : FallsInto text.toList found ↔ words text = found := by
  constructor
  · intro falls
    rw [words]
    generalize text.toList = chars at falls
    induction falls with
    | blank blank => simpa [wordsFrom] using wordsFrom_blanks blank []
    | word blank isWord ends later ih =>
      rw [append_assoc, wordsFrom_blanks blank, wordsFrom_word isWord ends, ih]
  · rintro rfl
    have whole : FallsInto ([].reverse ++ text.toList) (words text) := fallsInto_wordsFrom (by simp) text.toList
    simpa using whole

theorem words_word (isWord : IsWord word) : words word = [word] := by
  have whole : wordsFrom [] (word.toList ++ []) = _ := wordsFrom_word isWord (by simp)
  simpa [words, wordsFrom] using whole

theorem words_append (isWord : IsWord word) (rest : String) : words (word ++ " " ++ rest) = word :: words rest := by
  have space : isBlank ' ' := by decide
  have whole : wordsFrom [] (word.toList ++ ' ' :: rest.toList) = _ := wordsFrom_word isWord (by simpa using space)
  simpa [words, wordsFrom, space] using whole

theorem words_intercalate (isWord : ∀ word ∈ found, IsWord word) : words (" ".intercalate found) = found := by
  induction found with
  | nil => rfl
  | cons word found ih =>
    obtain ⟨here, later⟩ := forall_mem_cons.mp isWord
    cases found with
    | nil => rw [String.intercalate_singleton, words_word here]
    | cons next found => rw [String.intercalate_cons_cons, words_append here, ih later]

theorem mem_intercalate {c : Char} (listed : c ∈ (" ".intercalate found).toList) :
    c = ' ' ∨ ∃ word ∈ found, c ∈ word.toList := by
  induction found with
  | nil => simp at listed
  | cons word found ih =>
    cases found with
    | nil => exact .inr ⟨word, by simp, by simpa using listed⟩
    | cons next found =>
      rw [String.intercalate_cons_cons, String.toList_append, String.toList_append, mem_append, mem_append] at listed
      rcases listed with (here | space) | later
      · exact .inr ⟨word, mem_cons_self, here⟩
      · exact .inl (by simpa using space)
      · rcases ih later with space | ⟨other, held, inside⟩
        · exact .inl space
        · exact .inr ⟨other, mem_cons_of_mem word held, inside⟩

end words

/-- The words that stand in the line before its comment. -/
def States (line : String) (words : List String) : Prop :=
  ∃ content, CutAt '#' line content ∧ FallsInto content.toList words

theorem states_iff {line : String} : States line found ↔ words (beforeFirst '#' line) = found := by
  constructor
  · rintro ⟨content, cut, falls⟩
    rw [cutAt_iff.mp cut, fallsInto_iff.mp falls]
  · intro words
    exact ⟨_, cutAt_iff.mpr rfl, fallsInto_iff.mpr words⟩

end JarRemap.Text
