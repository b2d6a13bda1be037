import JarRemap.Proofs.Runs

/-!
# Numbers, blocks and lists as bytes

A reader inverts a writer if it accepts just the bytes that the writer produces and gives back the value they were
written for; lists inherit this from their elements. The rest of the input is left open, for the next reader.
-/
namespace JarRemap

open List Outcome

variable {bytes : Bytes}

theorem bigEndian_snoc (front : Bytes) (byte : UInt8) :
    bigEndian (front ++ [byte]) = bigEndian front * 256 + byte.toNat := by
  have moved (high : Nat) : bigEndianFrom high (front ++ [byte]) = bigEndianFrom high front * 256 + byte.toNat := by
    induction front generalizing high with
    | nil => rfl
    | cons first rest ih => exact ih _
  exact moved 0

@[simp] theorem bigEndianBytes_length (width number : Nat) : (bigEndianBytes width number).length = width := by
  induction width generalizing number with
  | zero => rfl
  | succ width ih => simp [bigEndianBytes, ih]

theorem bigEndian_bigEndianBytes (width number : Nat) :
    bigEndian (bigEndianBytes width number) = number % 256 ^ width := by
  induction width generalizing number with
  | zero => simp [bigEndianBytes, bigEndian, bigEndianFrom, Nat.mod_one]
  | succ width ih =>
    have last : number.toUInt8.toNat = number % 256 := by simp [Nat.toUInt8]
    have split : number % (256 * 256 ^ width) = number % 256 + 256 * (number / 256 % 256 ^ width) := Nat.mod_mul
    rw [bigEndianBytes, bigEndian_snoc, ih, last, Nat.pow_succ', split]
    ring

theorem bigEndianBytes_bigEndian (bytes : Bytes) : bigEndianBytes bytes.length (bigEndian bytes) = bytes := by
  induction bytes using reverseRecOn with
  | nil => rfl
  | append_singleton front byte ih =>
    have bound : byte.toNat < 256 := byte.toNat_lt
    have quotient : (bigEndian front * 256 + byte.toNat) / 256 = bigEndian front := by omega
    have last : (bigEndian front * 256 + byte.toNat).toUInt8 = byte := by
      apply UInt8.toNat_inj.mp
      simp [Nat.toUInt8]
    rw [length_append, length_singleton, bigEndianBytes, bigEndian_snoc, quotient, ih, last]

theorem bigEndian_lt (bytes : Bytes) : bigEndian bytes < 256 ^ bytes.length := by
  have written := bigEndian_bigEndianBytes bytes.length (bigEndian bytes)
  rw [bigEndianBytes_bigEndian] at written
  rw [written]
  exact Nat.mod_lt _ (by positivity)

@[simp] theorem concatBytes_nil {α : Type} (write : α → Outcome Bytes) : concatBytes write [] = .ok [] := rfl

theorem concatBytes_cons_eq_ok {α : Type} {write : α → Outcome Bytes} {first : α} {more : List α} :
    concatBytes write (first :: more) = .ok bytes ↔
      ∃ front back, write first = .ok front ∧ concatBytes write more = .ok back ∧ bytes = front ++ back := by
  simp only [concatBytes, mapM_cons, bind_eq_ok, pure_eq_ok]
  constructor
  · rintro ⟨_, ⟨front, written, parts, others, rfl⟩, rfl⟩
    exact ⟨front, parts.flatten, written, ⟨parts, others, rfl⟩, by simp⟩
  · rintro ⟨front, _, written, ⟨parts, others, rfl⟩, rfl⟩
    exact ⟨front :: parts, ⟨front, written, parts, others, rfl⟩, by simp⟩

theorem lengthBytes16_eq_ok {length : Nat} : lengthBytes16 length = .ok bytes ↔
      ∃ count : UInt16, count.toNat = length ∧ bytes = u16Bytes count := by
  unfold lengthBytes16
  by_cases fits : length < 65536
  · have stored : length.toUInt16.toNat = length := by simp [Nat.toUInt16, fits]
    simp only [fits, if_true, Except.ok.injEq]
    constructor
    · rintro rfl
      exact ⟨_, stored, rfl⟩
    · rintro ⟨count, rfl, rfl⟩
      simp [Nat.toUInt16]
  · simp only [fits, if_false, fail_ne_ok, false_iff]
    rintro ⟨count, rfl, -⟩
    exact fits count.toNat_lt

theorem lengthBytes32_eq_ok {length : Nat} : lengthBytes32 length = .ok bytes ↔
      ∃ count : UInt32, count.toNat = length ∧ bytes = u32Bytes count := by
  unfold lengthBytes32
  by_cases fits : length < 4294967296
  · have stored : length.toUInt32.toNat = length := by simp [Nat.toUInt32, fits]
    simp only [fits, if_true, Except.ok.injEq]
    constructor
    · rintro rfl
      exact ⟨_, stored, rfl⟩
    · rintro ⟨count, rfl, rfl⟩
      simp [Nat.toUInt32]
  · simp only [fits, if_false, fail_ne_ok, false_iff]
    rintro ⟨count, rfl, -⟩
    exact fits count.toNat_lt

namespace Reader

variable {input rest : Bytes}

theorem number_eq_ok {width number : Nat} : Reader.number width input = .ok (number, rest) ↔
      ∃ taken, taken.length = width ∧ bigEndian taken = number ∧ input = taken ++ rest := by
  unfold Reader.number
  by_cases short : (input.take width).length < width
  · simp only [short, if_true, Outcome.fail_ne_ok, false_iff]
    rintro ⟨taken, size, -, rfl⟩
    simp [← size] at short
  · simp only [short, if_false, Except.ok.injEq, Prod.mk.injEq]
    constructor
    · rintro ⟨spelled, rfl⟩
      refine ⟨input.take width, ?_, spelled, (take_append_drop width input).symm⟩
      simp only [length_take] at short ⊢
      omega
    · rintro ⟨taken, rfl, spelled, rfl⟩
      simpa using spelled

theorem word_eq_ok {word : Type} {width : Nat} {ofNat : Nat → word} {toNat : word → Nat}
    (bounded : ∀ value, toNat value < 256 ^ width) (recovered : ∀ value, ofNat (toNat value) = value)
    (stored : ∀ number, number < 256 ^ width → toNat (ofNat number) = number) {value : word} :
    (ofNat <$> number width) input = .ok (value, rest) ↔ input = bigEndianBytes width (toNat value) ++ rest := by
  simp only [map_eq_ok, number_eq_ok]
  constructor
  · rintro ⟨_, ⟨taken, rfl, rfl, rfl⟩, rfl⟩
    have bound : bigEndian taken < 256 ^ taken.length := bigEndian_lt taken
    rw [stored _ bound, bigEndianBytes_bigEndian]
  · rintro rfl
    refine ⟨toNat value, ⟨_, bigEndianBytes_length _ _, ?_, rfl⟩, recovered value⟩
    rw [bigEndian_bigEndianBytes, Nat.mod_eq_of_lt (bounded value)]

@[simp] theorem u8_eq_ok {value : UInt8} : u8 input = .ok (value, rest) ↔ input = u8Bytes value ++ rest := by
  have written : u8Bytes value = bigEndianBytes 1 value.toNat := by
    simp [u8Bytes, bigEndianBytes, Nat.toUInt8]
  rw [written]
  apply word_eq_ok
  · exact fun value => value.toNat_lt
  · exact fun value => by simp [Nat.toUInt8]
  · intro number bound
    simp [Nat.toUInt8]
    omega

@[simp] theorem u16_eq_ok {value : UInt16} : u16 input = .ok (value, rest) ↔ input = u16Bytes value ++ rest := by
  apply word_eq_ok
  · exact fun value => value.toNat_lt
  · exact fun value => by simp [Nat.toUInt16]
  · intro number bound
    simp [Nat.toUInt16]
    omega

@[simp] theorem u32_eq_ok {value : UInt32} : u32 input = .ok (value, rest) ↔ input = u32Bytes value ++ rest := by
  apply word_eq_ok
  · exact fun value => value.toNat_lt
  · exact fun value => by simp [Nat.toUInt32]
  · intro number bound
    simp [Nat.toUInt32]
    omega

@[simp] theorem u64_eq_ok {value : UInt64} : u64 input = .ok (value, rest) ↔ input = u64Bytes value ++ rest := by
  apply word_eq_ok
  · exact fun value => value.toNat_lt
  · exact fun value => by simp [Nat.toUInt64]
  · intro number bound
    simp [Nat.toUInt64]
    omega

@[simp] theorem block_eq_ok {size : Nat} :
    block size input = .ok (bytes, rest) ↔ bytes.length = size ∧ input = bytes ++ rest := by
  unfold block
  by_cases short : (input.take size).length < size
  · simp only [short, if_true, Outcome.fail_ne_ok, false_iff]
    rintro ⟨rfl, rfl⟩
    simp at short
  · simp only [short, if_false, Except.ok.injEq, Prod.mk.injEq]
    constructor
    · rintro ⟨rfl, rfl⟩
      refine ⟨?_, (take_append_drop size input).symm⟩
      simp only [length_take] at short ⊢
      omega
    · rintro ⟨rfl, rfl⟩
      simp

/-- The reader accepts exactly what the writer produces, and gives back what was written. -/
def Inverts {α : Type} (reader : Reader α) (write : α → Outcome Bytes) : Prop :=
  ∀ input value rest, reader input = .ok (value, rest) ↔
    ∃ bytes, write value = .ok bytes ∧ input = bytes ++ rest

variable {α : Type} {element : Reader α} {write : α → Outcome Bytes}

theorem timesFrom_eq_ok (inverts : element.Inverts write) {count : Nat} {read values : List α} :
    timesFrom read element count input = .ok (values, rest) ↔
      ∃ more bytes, more.length = count ∧ values = read.reverse ++ more ∧
        concatBytes write more = .ok bytes ∧ input = bytes ++ rest := by
  induction count generalizing read input with
  | zero =>
    simp only [timesFrom, pure_eq_ok, length_eq_zero_iff]
    constructor
    · rintro ⟨rfl, rfl⟩
      exact ⟨[], [], rfl, by simp, rfl, rfl⟩
    · rintro ⟨_, bytes, rfl, rfl, written, rfl⟩
      cases written
      simp
  | succ count ih =>
    simp only [timesFrom, bind_eq_ok, ih]
    constructor
    · rintro ⟨next, left, taken, more, bytes, size, rfl, concatenated, rfl⟩
      obtain ⟨front, written, rfl⟩ := (inverts _ _ _).mp taken
      refine ⟨next :: more, front ++ bytes, by simp [size], by simp, ?_, by simp⟩
      exact concatBytes_cons_eq_ok.mpr ⟨front, bytes, written, concatenated, rfl⟩
    · rintro ⟨_ | ⟨next, more⟩, bytes, size, rfl, concatenated, rfl⟩
      · simp at size
      · obtain ⟨front, back, written, others, rfl⟩ := concatBytes_cons_eq_ok.mp concatenated
        have taken : element (front ++ back ++ rest) = .ok (next, back ++ rest) :=
          (inverts _ _ _).mpr ⟨front, written, by simp⟩
        exact ⟨next, back ++ rest, taken, more, back, by simpa using size, by simp, others, rfl⟩

theorem list_inverts (inverts : element.Inverts write) : (list element).Inverts (listBytes write) := by
  intro input values rest
  simp only [list, times, listBytes, bind_eq_ok, u16_eq_ok, timesFrom_eq_ok inverts,
    Outcome.bind_eq_ok, Outcome.pure_eq_ok, lengthBytes16_eq_ok]
  constructor
  · rintro ⟨count, left, rfl, more, content, size, rfl, written, rfl⟩
    exact ⟨u16Bytes count ++ content, ⟨_, ⟨count, size.symm, rfl⟩, content, by simpa using written, rfl⟩, by simp⟩
  · rintro ⟨_, ⟨_, ⟨count, size, rfl⟩, content, written, rfl⟩, rfl⟩
    exact ⟨count, content ++ rest, by simp, values, content, size.symm, by simp, written, rfl⟩

end Reader

end JarRemap
