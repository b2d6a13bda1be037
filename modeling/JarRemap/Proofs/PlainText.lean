import JarRemap.Proofs.TextFormat
import JarRemap.Text.Stream

/-!
# Lines of text as bytes

A text that is written as UTF-8 is read as itself. The bytes of a character are those of no other character
below `0x80`, so the bytes have the lines of the text. Lines that are written with a newline after each come back
one by one; a carriage return at the end of one is lost.
-/
namespace JarRemap.Text

open List

variable {texts : List String}

theorem toNat_of_mem_utf8EncodeChar {c : Char} {byte : UInt8} (listed : byte ∈ String.utf8EncodeChar c)
    (ascii : byte.toNat < 0x80) : c.toNat = byte.toNat := by
  rcases utf8EncodeChar_cases c with ⟨-, a, first, bytes⟩ | ⟨low, -, a, b, first, second, bytes⟩ |
    ⟨low, -, a, b, d, first, second, third, bytes⟩ | ⟨low, a, b, d, e, first, second, third, fourth, bytes⟩
  · obtain rfl : byte = a := by simpa [bytes] using listed
    exact first.symm
  · simp only [bytes, mem_cons, not_mem_nil, or_false] at listed
    rcases listed with rfl | rfl <;> omega
  · simp only [bytes, mem_cons, not_mem_nil, or_false] at listed
    rcases listed with rfl | rfl | rfl <;> omega
  · simp only [bytes, mem_cons, not_mem_nil, or_false] at listed
    rcases listed with rfl | rfl | rfl | rfl <;> omega

theorem decodeFrom_encodeUtf8 (chars done : List Char) (index : Nat) :
    decodeFrom 0 index done (chars.flatMap String.utf8EncodeChar) = .ok (done.reverse ++ chars) := by
  induction chars generalizing index done with
  | nil => simp [decodeFrom]
  | cons c chars ih =>
    have found := firstChar_utf8EncodeChar c (chars.flatMap String.utf8EncodeChar)
    obtain ⟨byte, others, bytes⟩ := exists_cons_of_ne_nil (utf8EncodeChar_ne_nil c)
    rw [bytes, cons_append, length_cons] at found
    simp only [flatMap_cons, bytes, cons_append, decodeFrom, found, Nat.add_sub_cancel]
    rw [decodeFrom_skip, ih]
    simp

theorem ofStream_encodeUtf8 (text : String) : ofStream (encodeUtf8 text) = .ok text := by
  have read : decodeUtf8 (encodeUtf8 text) = .ok text := by
    simp [decodeUtf8, encodeUtf8, decodeFrom_encodeUtf8, Except.map]
  rw [ofStream, read]

section lines

variable {α : Type} [DecidableEq α] {newline ret : α}

section

variable (line before rest : List α) (single : newline ∉ line)
include single

theorem linesFrom_append :
    linesFrom newline ret before (line ++ rest) = linesFrom newline ret (line.reverse ++ before) rest := by
  induction line generalizing before with
  | nil => rfl
  | cons c line ih =>
    obtain ⟨other, single⟩ : c ≠ newline ∧ newline ∉ line := by
      simpa [eq_comm] using single
    simp [linesFrom, other, ih (c :: before) single]

theorem linesFrom_line : linesFrom newline ret before (line ++ newline :: rest) =
      finishLine ret (line.reverse ++ before) :: linesFrom newline ret [] rest := by
  rw [linesFrom_append line before _ single, linesFrom, if_pos rfl]

end

theorem finishLine_reverse {line : List α} (plain : line.getLast? ≠ some ret) : finishLine ret line.reverse = line := by
  rw [← List.head?_reverse] at plain
  cases turned : line.reverse with
  | nil =>
    obtain rfl : line = [] := by simpa using turned
    rfl
  | cons c rest =>
    have other : c ≠ ret := by simpa [turned] using plain
    rw [finishLine, if_neg other, ← turned, reverse_reverse]

end lines

theorem notMem_utf8EncodeChar {c : Char} {byte : UInt8} (ascii : byte.toNat < 0x80)
    (other : c ≠ Char.ofNat byte.toNat) : byte ∉ String.utf8EncodeChar c := by
  intro listed
  exact other (by rw [← toNat_of_mem_utf8EncodeChar listed ascii, Char.ofNat_toNat])

theorem finishLine_flatMap (line : List Char) : finishLine 13 (line.reverse.flatMap String.utf8EncodeChar).reverse =
      (finishLine '\r' line).flatMap String.utf8EncodeChar := by
  cases line with
  | nil => rfl
  | cons c line =>
    by_cases isReturn : c = '\r'
    · have bytes : String.utf8EncodeChar '\r' = [13] := by decide
      simp [finishLine, isReturn, bytes]
    · rw [finishLine, if_neg isReturn]
      refine finishLine_reverse fun last => ?_
      rw [reverse_cons, flatMap_append, flatMap_singleton,
        List.getLast?_append_of_ne_nil _ (utf8EncodeChar_ne_nil c)] at last
      exact notMem_utf8EncodeChar (by decide) isReturn (mem_of_getLast? last)

theorem linesFrom_flatMap (line rest : List Char) :
    linesFrom 10 13 (line.reverse.flatMap String.utf8EncodeChar).reverse (rest.flatMap String.utf8EncodeChar) =
      (linesFrom '\n' '\r' line rest).map fun chars => chars.flatMap String.utf8EncodeChar := by
  induction rest generalizing line with
  | nil =>
    cases line with
    | nil => rfl
    | cons c line => simp [linesFrom]
  | cons c rest ih =>
    by_cases isNewline : c = '\n'
    · have bytes : String.utf8EncodeChar '\n' = [10] := by decide
      have later := ih []
      rw [isNewline, flatMap_cons, bytes, singleton_append, linesFrom, linesFrom, if_pos rfl,
        if_pos rfl, map_cons, finishLine_flatMap]
      exact congrArg _ later
    · rw [flatMap_cons, linesFrom_append _ _ _ (notMem_utf8EncodeChar (by decide) isNewline), linesFrom,
        if_neg isNewline, ← ih (c :: line)]
      simp

theorem byteLines_encodeUtf8 (text : String) : byteLines (encodeUtf8 text) = (lines text).map encodeUtf8 := by
  rw [lines, map_map]
  refine (linesFrom_flatMap [] text.toList).trans (map_congr_left fun chars _ => ?_)
  simp [encodeUtf8]

/-- The text of lines with a newline after each. -/
def unlines (lines : List String) : String := String.ofList (lines.flatMap fun line => line.toList ++ ['\n'])

theorem join_newlines (texts : List String) : String.join (texts.map (· ++ "\n")) = unlines texts := by
  apply String.toList_injective
  rw [String.toList_join, unlines, String.toList_ofList, flatMap_map]
  simp

def dropReturn (line : String) : String := String.ofList (finishLine '\r' line.toList.reverse)

theorem dropReturn_eq {line : String} (plain : line.toList.getLast? ≠ some '\r') : dropReturn line = line := by
  rw [dropReturn, finishLine_reverse plain, String.ofList_toList]

/-- Lines that are written with a newline after each are found again. What follows them is one more line, if it
is anything. -/
theorem lines_unlines_append (single : ∀ line ∈ texts, '\n' ∉ line.toList) {rest : String}
    (singleRest : '\n' ∉ rest.toList) :
    lines (unlines texts ++ rest) = texts.map dropReturn ++ if rest = "" then [] else [rest] := by
  rw [lines, unlines, String.toList_append, String.toList_ofList]
  induction texts with
  | nil =>
    have last : linesFrom '\n' '\r' [] rest.toList = linesFrom '\n' '\r' rest.toList.reverse [] := by
      have whole : linesFrom '\n' '\r' [] (rest.toList ++ []) = _ := linesFrom_append rest.toList [] [] singleRest
      simpa using whole
    by_cases empty : rest = ""
    · simp [empty, linesFrom]
    · simp [last, linesFrom, empty]
  | cons line texts ih =>
    obtain ⟨here, later⟩ := forall_mem_cons.mp single
    rw [flatMap_cons, append_assoc, append_assoc, singleton_append,
      linesFrom_line line.toList [] _ here, append_nil, map_cons, ih later]
    rfl

structure OneLine (text : String) : Prop where
  single : '\n' ∉ text.toList
  plain : text.toList.getLast? ≠ some '\r'

theorem lines_unlines (oneLine : ∀ line ∈ texts, OneLine line) : lines (unlines texts) = texts := by
  have whole : unlines texts = unlines texts ++ "" := String.append_empty.symm
  have single : ∀ line ∈ texts, '\n' ∉ line.toList := fun line member => (oneLine line member).single
  have kept : texts.map dropReturn = texts :=
    map_congr_left (fun line member => dropReturn_eq (oneLine line member).plain) |>.trans texts.map_id
  rw [whole, lines_unlines_append single (by simp), kept]
  simp

theorem byteLines_unlines (oneLine : ∀ line ∈ texts, OneLine line) :
    byteLines (encodeUtf8 (unlines texts)) = texts.map encodeUtf8 := by
  rw [byteLines_encodeUtf8, lines_unlines oneLine]

end JarRemap.Text
