import JarRemap.Proofs.Runs

/-!
# Texts as bytes

A text that is encoded is decoded to itself. Decoding tries plain UTF-8 first, so two things are shown:
if the encoded bytes happen to be plain UTF-8 they spell the same text, and the lenient reader always
gives back the characters that were encoded. Both readers are followed character by character.
-/
namespace JarRemap.Text

open List

theorem toNat_toUInt8 {number : Nat} (bound : number < 256) : number.toUInt8.toNat = number := by
  simp [Nat.toUInt8, bound]

theorem isContinuation_iff {byte : UInt8} : isContinuation byte = true ↔ 0x80 ≤ byte.toNat ∧ byte.toNat ≤ 0xBF := by
  simp [isContinuation, UInt8.le_iff_toNat_le]

theorem continued {byte : UInt8} {value : Nat} (coded : byte.toNat = 0x80 + value) (small : value < 64) :
    isContinuation byte = true ∧ payload byte = value := by
  rw [isContinuation_iff, payload, coded]
  omega

theorem utf8EncodeChar_eq (c : Char) : String.utf8EncodeChar c = if c.toNat ≤ 0x7F then [c.toNat.toUInt8]
    else if c.toNat ≤ 0x7FF then [(c.toNat / 64 % 32 + 0xC0).toUInt8, (c.toNat % 64 + 0x80).toUInt8]
    else if c.toNat ≤ 0xFFFF then [(c.toNat / 4096 % 16 + 0xE0).toUInt8,
      (c.toNat / 64 % 64 + 0x80).toUInt8, (c.toNat % 64 + 0x80).toUInt8]
    else [(c.toNat / 262144 % 8 + 0xF0).toUInt8, (c.toNat / 4096 % 64 + 0x80).toUInt8,
      (c.toNat / 64 % 64 + 0x80).toUInt8, (c.toNat % 64 + 0x80).toUInt8] := rfl

theorem utf8EncodeChar_cases (c : Char) : (c.toNat < 0x80 ∧ ∃ a, a.toNat = c.toNat ∧ String.utf8EncodeChar c = [a]) ∨
    (0x80 ≤ c.toNat ∧ c.toNat < 0x800 ∧ ∃ a b, a.toNat = 0xC0 + c.toNat / 64 ∧
      b.toNat = 0x80 + c.toNat % 64 ∧ String.utf8EncodeChar c = [a, b]) ∨
    (0x800 ≤ c.toNat ∧ c.toNat < 0x10000 ∧ ∃ a b d, a.toNat = 0xE0 + c.toNat / 4096 ∧
      b.toNat = 0x80 + c.toNat / 64 % 64 ∧ d.toNat = 0x80 + c.toNat % 64 ∧ String.utf8EncodeChar c = [a, b, d]) ∨
    (0x10000 ≤ c.toNat ∧ ∃ a b d e, a.toNat = 0xF0 + c.toNat / 262144 ∧
      b.toNat = 0x80 + c.toNat / 4096 % 64 ∧ d.toNat = 0x80 + c.toNat / 64 % 64 ∧
      e.toNat = 0x80 + c.toNat % 64 ∧ String.utf8EncodeChar c = [a, b, d, e]) := by
  have valid : c.toNat < 0xD800 ∨ 0xDFFF < c.toNat ∧ c.toNat < 0x110000 := c.valid
  rw [utf8EncodeChar_eq]
  generalize c.toNat = code at valid
  by_cases one : code ≤ 0x7F
  · exact .inl ⟨by omega, _, toNat_toUInt8 (by omega), by rw [if_pos one]⟩
  by_cases two : code ≤ 0x7FF
  · refine .inr (.inl ⟨by omega, by omega, _, _, ?_, ?_, by rw [if_neg one, if_pos two]⟩) <;>
      rw [toNat_toUInt8 (by omega)] <;> omega
  by_cases three : code ≤ 0xFFFF
  · refine .inr (.inr (.inl ⟨by omega, by omega, _, _, _, ?_, ?_, ?_,
      by rw [if_neg one, if_neg two, if_pos three]⟩)) <;> rw [toNat_toUInt8 (by omega)] <;> omega
  · refine .inr (.inr (.inr ⟨by omega, _, _, _, _, ?_, ?_, ?_, ?_,
      by rw [if_neg one, if_neg two, if_neg three]⟩)) <;> rw [toNat_toUInt8 (by omega)] <;> omega

/-- A character is read where its bytes begin. -/
theorem firstChar_utf8EncodeChar (c : Char) (rest : Bytes) :
    firstChar (String.utf8EncodeChar c ++ rest) = .ok (c, (String.utf8EncodeChar c).length) := by
  have valid : c.toNat < 0xD800 ∨ 0xDFFF < c.toNat ∧ c.toNat < 0x110000 := c.valid
  have same : Char.ofNat c.toNat = c := Char.ofNat_toNat c
  rcases utf8EncodeChar_cases c with ⟨high, a, first, bytes⟩ | ⟨low, high, a, b, first, second, bytes⟩ |
    ⟨low, high, a, b, d, first, second, third, bytes⟩ | ⟨low, a, b, d, e, first, second, third, fourth, bytes⟩
  · have ascii : a < 0x80 := by
      rw [UInt8.lt_iff_toNat_lt, first]
      exact high
    simp [bytes, firstChar, ascii, first, same]
  · obtain ⟨continues, value⟩ := continued second (by omega)
    have spelled : a.toNat % 32 * 64 + payload b = c.toNat := by omega
    simp only [bytes, firstChar, cons_append, nil_append, UInt8.lt_iff_toNat_lt,
      UInt8.le_iff_toNat_le, UInt8.reduceToNat, Bool.and_eq_true, decide_eq_true_eq, continues, spelled,
      same]
    rw [if_neg (by omega), if_pos (by omega)]
    rfl
  · obtain ⟨continues, value⟩ := continued second (by omega)
    have follows : secondOfThree a b = true := by
      simp only [secondOfThree, ← UInt8.toNat_inj, UInt8.le_iff_toNat_le, UInt8.reduceToNat, continues]
      grind
    obtain ⟨continuesAgain, next⟩ := continued third (by omega)
    have spelled : a.toNat % 16 * 4096 + payload b * 64 + payload d = c.toNat := by omega
    simp only [bytes, firstChar, cons_append, nil_append, UInt8.lt_iff_toNat_lt,
      UInt8.le_iff_toNat_le, UInt8.reduceToNat, Bool.and_eq_true, decide_eq_true_eq, follows,
      continuesAgain, spelled, same]
    rw [if_neg (by omega), if_neg (by omega), if_pos (by omega)]
    rfl
  · obtain ⟨continues, value⟩ := continued second (by omega)
    have follows : secondOfFour a b = true := by
      simp only [secondOfFour, ← UInt8.toNat_inj, UInt8.le_iff_toNat_le, UInt8.reduceToNat, continues]
      grind
    obtain ⟨continuesAgain, next⟩ := continued third (by omega)
    obtain ⟨closes, last⟩ := continued fourth (by omega)
    have spelled : a.toNat % 8 * 262144 + payload b * 4096 + payload d * 64 + payload e = c.toNat := by omega
    simp only [bytes, firstChar, cons_append, nil_append, UInt8.lt_iff_toNat_lt,
      UInt8.le_iff_toNat_le, UInt8.reduceToNat, Bool.and_eq_true, decide_eq_true_eq, follows,
      continuesAgain, closes, spelled, same]
    rw [if_neg (by omega), if_neg (by omega), if_neg (by omega), if_pos (by omega)]
    rfl

theorem utf8EncodeChar_ne_nil (c : Char) : String.utf8EncodeChar c ≠ [] := by
  rw [utf8EncodeChar_eq]
  split_ifs <;> simp

theorem decodeFrom_skip (skipped rest : Bytes) (index : Nat) (chars : List Char) :
    decodeFrom skipped.length index chars (skipped ++ rest) = decodeFrom 0 (index + skipped.length) chars rest := by
  induction skipped generalizing index with
  | nil => rfl
  | cons byte skipped ih =>
    rw [cons_append, length_cons, decodeFrom, ih]
    congr 1
    omega

end JarRemap.Text

namespace JarRemap.ModifiedUtf8

open List Text

/-- A character is written in one of three ways: the null character as two bytes, others of the basic plane as in
plain UTF-8, and those beyond it as two surrogates. -/
theorem encodeChar_cases (c : Char) : c.toNat = 0 ∧ encodeChar c = [0xC0, 0x80] ∨
    (0 < c.toNat ∧ c.toNat < 0x10000 ∧ encodeChar c = String.utf8EncodeChar c) ∨
    (∃ offset b d e f, offset < 0x100000 ∧ c.toNat = 0x10000 + offset ∧
      b.toNat = 0xA0 + offset / 65536 ∧ d.toNat = 0x80 + offset / 1024 % 64 ∧
      e.toNat = 0xB0 + offset / 64 % 16 ∧ f.toNat = 0x80 + offset % 64 ∧ encodeChar c = [0xED, b, d, 0xED, e, f]) := by
  have valid : c.toNat < 0xD800 ∨ 0xDFFF < c.toNat ∧ c.toNat < 0x110000 := c.valid
  rw [utf8EncodeChar_eq]
  unfold encodeChar
  generalize c.toNat = code at valid
  by_cases null : code = 0
  · exact .inl ⟨null, by simp [null]⟩
  by_cases three : code < 0x10000
  · refine .inr (.inl ⟨by omega, three, ?_⟩)
    have leadTwo : code < 0x800 → code / 64 % 32 + 0xC0 = 0xC0 + code / 64 := by omega
    have leadThree : code / 4096 % 16 + 0xE0 = 0xE0 + code / 4096 := by omega
    simp only [threeBytes, leadThree, Nat.add_comm _ 0x80]
    grind
  · obtain ⟨offset, rfl⟩ : ∃ offset, code = 0x10000 + offset := Nat.exists_eq_add_of_le (by omega)
    refine .inr (.inr ⟨offset, _, _, _, _, by omega, rfl, toNat_toUInt8 (by omega),
      toNat_toUInt8 (by omega), toNat_toUInt8 (by omega), toNat_toUInt8 (by omega), ?_⟩)
    have leadHigh : 0xE0 + (0xD800 + offset / 1024) / 4096 = 0xED := by omega
    have leadLow : 0xE0 + (0xDC00 + offset % 1024) / 4096 = 0xED := by omega
    have second : 0x80 + (0xD800 + offset / 1024) / 64 % 64 = 0xA0 + offset / 65536 := by omega
    have third : 0x80 + (0xD800 + offset / 1024) % 64 = 0x80 + offset / 1024 % 64 := by omega
    have fifth : 0x80 + (0xDC00 + offset % 1024) / 64 % 64 = 0xB0 + offset / 64 % 16 := by omega
    have sixth : 0x80 + (0xDC00 + offset % 1024) % 64 = 0x80 + offset % 64 := by omega
    rw [if_neg null, if_neg (by omega), if_neg (by omega), if_neg three]
    simp only [threeBytes, Nat.add_sub_cancel_left, leadHigh, leadLow, second, third, fifth, sixth]
    rfl

theorem encodeChar_ne_nil (c : Char) : encodeChar c ≠ [] := by
  rcases encodeChar_cases c with ⟨-, bytes⟩ | ⟨-, -, plain⟩ | ⟨_, _, _, _, _, -, -, -, -, -, -, bytes⟩
  · simp [bytes]
  · rw [plain]
    exact utf8EncodeChar_ne_nil c
  · simp [bytes]

theorem firstSymbol_surrogates {b d e f : UInt8} {offset : Nat} (rest : Bytes)
    (bound : offset < 0x100000) (second : b.toNat = 0xA0 + offset / 65536)
    (third : d.toNat = 0x80 + offset / 1024 % 64) (fifth : e.toNat = 0xB0 + offset / 64 % 16)
    (sixth : f.toNat = 0x80 + offset % 64) : firstSymbol (0xED :: b :: d :: 0xED :: e :: f :: rest) =
      .ok (.char (Char.ofNat (0x10000 + offset)), 6) := by
  have continues : isContinuation b = true := isContinuation_iff.mpr (by omega)
  obtain ⟨continuesAgain, next⟩ := continued third (by omega)
  obtain ⟨closes, last⟩ := continued sixth (by omega)
  have inside : 0xB0 ≤ e.toNat ∧ e.toNat ≤ 0xBF := by omega
  have high : 13 * 4096 + payload b * 64 + payload d = 0xD800 + offset / 1024 := by
    rw [payload, second]
    omega
  have low : 0xD000 + payload e * 64 + payload f = 0xDC00 + offset % 1024 := by
    rw [payload, fifth]
    omega
  have follows : lowSurrogate? (0xED :: e :: f :: rest) = some (0xDC00 + offset % 1024) := by
    simp [lowSurrogate?, UInt8.le_iff_toNat_le, inside, closes, low]
  have joined : joinSurrogates (0xD800 + offset / 1024) (0xDC00 + offset % 1024) = Char.ofNat (0x10000 + offset) := by
    have spelled : 0x10000 + (0xD800 + offset / 1024 - 0xD800) * 1024 +
        (0xDC00 + offset % 1024 - 0xDC00) = 0x10000 + offset := by omega
    rw [joinSurrogates, spelled]
  have isHigh : 0xD800 + offset / 1024 < 0xDC00 := by omega
  simp [firstSymbol, continues, continuesAgain, high, follows, joined, isHigh]

/-- The lenient reader finds a character of the basic plane that is written as in plain UTF-8. -/
theorem firstSymbol_utf8EncodeChar {c : Char} (positive : 0 < c.toNat) (basic : c.toNat < 0x10000) (rest : Bytes) :
    firstSymbol (String.utf8EncodeChar c ++ rest) = .ok (.char c, (String.utf8EncodeChar c).length) := by
  have valid : c.toNat < 0xD800 ∨ 0xDFFF < c.toNat ∧ c.toNat < 0x110000 := c.valid
  have same : Char.ofNat c.toNat = c := Char.ofNat_toNat c
  rcases utf8EncodeChar_cases c with ⟨high, a, first, bytes⟩ | ⟨low, high, a, b, first, second, bytes⟩ |
    ⟨low, high, a, b, d, first, second, third, bytes⟩ | ⟨beyond, -⟩
  · have nonzero : a ≠ 0 := by
      rw [ne_eq, ← UInt8.toNat_inj, first]
      exact Nat.ne_of_gt positive
    have ascii : a < 0x80 := by
      rw [UInt8.lt_iff_toNat_lt, first]
      exact high
    simp [bytes, firstSymbol, nonzero, ascii, first, same]
  · obtain ⟨continues, value⟩ := continued second (by omega)
    have spelled : a.toNat % 32 * 64 + payload b = c.toNat := by omega
    simp only [bytes, firstSymbol, cons_append, nil_append, UInt8.lt_iff_toNat_lt,
      UInt8.le_iff_toNat_le, ← UInt8.toNat_inj, UInt8.reduceToNat, Bool.and_eq_true,
      decide_eq_true_eq, continues, spelled, same]
    rw [if_neg (by omega), if_neg (by omega), if_neg (by omega), if_neg (by simp), if_pos (by omega)]
    rfl
  · obtain ⟨continues, value⟩ := continued second (by omega)
    obtain ⟨continuesAgain, next⟩ := continued third (by omega)
    have spelled : a.toNat % 16 * 4096 + payload b * 64 + payload d = c.toNat := by omega
    have symbol : Symbol.ofCode c.toNat = .char c := by
      rw [Symbol.ofCode, if_neg (by simp; omega), same]
    simp only [bytes, firstSymbol, cons_append, nil_append, UInt8.lt_iff_toNat_lt,
      UInt8.le_iff_toNat_le, ← UInt8.toNat_inj, UInt8.reduceToNat, Bool.and_eq_true,
      decide_eq_true_eq, continues, continuesAgain, spelled, symbol]
    rw [if_neg (by omega), if_neg (by omega), if_neg (by omega), if_neg (by simp), if_neg (by omega),
      if_pos (by omega), if_neg (by simp), if_neg (by omega), if_neg (by omega)]
    rfl
  · omega

theorem firstSymbol_encodeChar (c : Char) (rest : Bytes) :
    firstSymbol (encodeChar c ++ rest) = .ok (.char c, (encodeChar c).length) := by
  have same : Char.ofNat c.toNat = c := Char.ofNat_toNat c
  rcases encodeChar_cases c with ⟨null, bytes⟩ | ⟨positive, basic, plain⟩ |
    ⟨offset, b, d, e, f, bound, code, second, third, fifth, sixth, bytes⟩
  · rw [null] at same
    rw [bytes, ← same]
    rfl
  · rw [plain]
    exact firstSymbol_utf8EncodeChar positive basic rest
  · rw [bytes, ← same, code]
    exact firstSymbol_surrogates rest bound second third fifth sixth

theorem symbolsFrom_skip (skipped rest : Bytes) (index : Nat) (symbols : List Symbol) :
    symbolsFrom skipped.length index symbols (skipped ++ rest) =
      symbolsFrom 0 (index + skipped.length) symbols rest := by
  induction skipped generalizing index with
  | nil => rfl
  | cons byte skipped ih =>
    rw [cons_append, length_cons, symbolsFrom, ih]
    congr 1
    omega

theorem symbolsFrom_encode (chars : List Char) (index : Nat) (symbols : List Symbol) :
    symbolsFrom 0 index symbols (chars.flatMap encodeChar) = .ok (symbols.reverse ++ chars.map .char) := by
  induction chars generalizing index symbols with
  | nil => simp [symbolsFrom]
  | cons c chars ih =>
    have found := firstSymbol_encodeChar c (chars.flatMap encodeChar)
    obtain ⟨byte, others, bytes⟩ := exists_cons_of_ne_nil (encodeChar_ne_nil c)
    rw [bytes, cons_append, length_cons] at found
    simp only [flatMap_cons, bytes, cons_append, symbolsFrom, found, Nat.add_sub_cancel]
    rw [symbolsFrom_skip, ih]
    simp

theorem chars_map_char (chars : List Char) : chars? (chars.map .char) = some chars := by
  induction chars with
  | nil => rfl
  | cons c chars ih =>
    simp only [chars?, map_cons, mapM_cons] at ih ⊢
    simp [ih]

/-- Where plain UTF-8 has a character at the front of the bytes of a character, it is that one. The
null character and surrogates are no plain UTF-8. -/
theorem firstChar_encodeChar {c found : Char} {size : Nat} {rest : Bytes}
    (read : firstChar (encodeChar c ++ rest) = .ok (found, size)) : found = c ∧ size = (encodeChar c).length := by
  rcases encodeChar_cases c with ⟨null, bytes⟩ | ⟨-, -, plain⟩ |
    ⟨offset, b, d, e, f, bound, code, second, third, fifth, sixth, bytes⟩
  · simp [bytes, firstChar] at read
  · rw [plain] at read ⊢
    obtain ⟨rfl, rfl⟩ := Prod.mk.inj (Except.ok.inj ((firstChar_utf8EncodeChar c rest).symm.trans read))
    exact ⟨rfl, rfl⟩
  · have refused : secondOfThree 0xED b = false := by
      have beyond : ¬ b.toNat ≤ 0x9F := by omega
      simp [secondOfThree, UInt8.le_iff_toNat_le, beyond]
    simp [bytes, firstChar, refused] at read

theorem decodeFrom_encode {chars found done : List Char} {index : Nat}
    (read : decodeFrom 0 index done (chars.flatMap encodeChar) = .ok found) : found = done.reverse ++ chars := by
  induction chars generalizing index done with
  | nil =>
    rw [flatMap_nil, decodeFrom, Except.ok.injEq] at read
    simp [read]
  | cons c chars ih =>
    obtain ⟨byte, others, bytes⟩ := exists_cons_of_ne_nil (encodeChar_ne_nil c)
    simp only [flatMap_cons, bytes, cons_append, decodeFrom] at read
    cases first : firstChar (byte :: (others ++ chars.flatMap encodeChar)) with
    | error fault => cases fault <;> simp [first] at read
    | ok taken =>
      obtain ⟨head, size⟩ := taken
      have whole : firstChar (encodeChar c ++ chars.flatMap encodeChar) = .ok (head, size) := by
        rw [bytes]
        exact first
      obtain ⟨rfl, rfl⟩ := firstChar_encodeChar whole
      simp only [first, bytes, length_cons, Nat.add_sub_cancel] at read
      rw [decodeFrom_skip] at read
      simpa using ih read

theorem decode_encode (text : String) : decode (encode text) = .ok text := by
  have lenient : symbolsFrom 0 0 [] (encode text) = .ok (text.toList.map .char) := by
    exact symbolsFrom_encode text.toList 0 []
  unfold decode
  cases plain : decodeUtf8 (encode text) with
  | error fault => simp [lenient, chars_map_char]
  | ok found =>
    simp only [decodeUtf8] at plain
    cases read : decodeFrom 0 0 [] (encode text) with
    | error fault => simp [read, Except.map] at plain
    | ok chars =>
      have same : chars = text.toList := by simpa using decodeFrom_encode read
      simp only [read, Except.map, Except.ok.injEq] at plain
      simp [← plain, same]

end JarRemap.ModifiedUtf8
