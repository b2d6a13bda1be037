import JarRemap.Proofs.ByteFormat

/-!
# The class file format

Constants, attributes, members and method bodies are read from exactly the bytes they are written as.
A pool and a class file are written back as the bytes they were read from, and what is written can be read again
with the same constant in every slot. The register of a pool is rebuilt by reading, which is a loop: it is told
turn by turn.
-/
namespace JarRemap

open Reader Attribute ConstantPool List

variable {constants : List Constant} {bytes : Bytes}

namespace Constant

variable {input rest : Bytes} {constant : Constant}

theorem readBody_eq_ok {tag : UInt8} : readBody tag input = .ok (constant, rest) ↔
      constant.tag = tag ∧ ∃ bytes, constant.bodyBytes = .ok bytes ∧ input = bytes ++ rest := by
  constructor
  · intro taken
    unfold readBody at taken
    split at taken <;> simp only [bind_eq_ok, pure_eq_ok, u8_eq_ok, u16_eq_ok, u32_eq_ok, u64_eq_ok, block_eq_ok,
      fail_ne_ok] at taken
    case h_1 =>
      obtain ⟨length, _, rfl, bytes, _, ⟨size, rfl⟩, rfl, rfl⟩ := taken
      have prefixed : lengthBytes16 bytes.length = .ok (u16Bytes length) :=
        lengthBytes16_eq_ok.mpr ⟨length, size.symm, rfl⟩
      exact ⟨rfl, u16Bytes length ++ bytes, by simp [bodyBytes, prefixed], by simp⟩
    -- the constants of two parts, then those of one
    case h_8 | h_9 | h_10 | h_11 | h_12 | h_14 | h_15 =>
      obtain ⟨first, _, rfl, second, _, rfl, rfl, rfl⟩ := taken
      exact ⟨rfl, _, rfl, by simp⟩
    all_goals
      obtain ⟨part, _, rfl, rfl, rfl⟩ := taken
      exact ⟨rfl, _, rfl, rfl⟩
  · rintro ⟨rfl, bytes, written, rfl⟩
    cases constant with
    | utf8 text =>
      simp only [bodyBytes, Outcome.bind_eq_ok, Outcome.pure_eq_ok, lengthBytes16_eq_ok] at written
      obtain ⟨_, ⟨length, size, rfl⟩, rfl⟩ := written
      simp only [readBody, tag, bind_eq_ok, u16_eq_ok, block_eq_ok, pure_eq_ok]
      exact ⟨length, text ++ rest, by simp, text, rest, ⟨size.symm, rfl⟩, rfl, rfl⟩
    | _ =>
      cases written
      simp [readBody, tag]

theorem read_inverts : read.Inverts toBytes := by
  intro input constant rest
  simp only [read, toBytes, bind_eq_ok, u8_eq_ok, readBody_eq_ok, Outcome.bind_eq_ok, Outcome.pure_eq_ok]
  constructor
  · rintro ⟨_, _, rfl, rfl, body, written, rfl⟩
    exact ⟨constant.tag :: body, ⟨body, written, rfl⟩, rfl⟩
  · rintro ⟨_, ⟨body, written, rfl⟩, rfl⟩
    exact ⟨constant.tag, body ++ rest, rfl, rfl, body, written, rfl⟩

/-- The slots that a constant takes, with what stands in them. -/
def slotList (constant : Constant) : List (Option Constant) :=
  if constant.isWide then [some constant, none] else [some constant]

theorem filterMap_slotList (constants : List Constant) : (constants.flatMap slotList).filterMap id = constants := by
  induction constants with
  | nil => rfl
  | cons constant others ih =>
    have single : constant.slotList.filterMap id = [constant] := by
      cases wide : constant.isWide <;> simp [slotList, wide]
    rw [flatMap_cons, filterMap_append, single, ih]
    rfl

theorem slotList_length (constant : Constant) : constant.slotList.length = constant.slots := by
  cases wide : constant.isWide <;> simp [slotList, slots, wide]

theorem slots_pos (constant : Constant) : 0 < constant.slots := by
  rw [slots]
  split <;> decide

theorem read_shortens (taken : read input = .ok (constant, rest)) : rest.length < input.length := by
  obtain ⟨bytes, written, rfl⟩ := (read_inverts _ _ _).mp taken
  simp only [toBytes, Outcome.bind_eq_ok, Outcome.pure_eq_ok] at written
  obtain ⟨body, -, rfl⟩ := written
  simp

end Constant

theorem u8_inverts : u8.Inverts (fun value => .ok (u8Bytes value)) := by
  intro input value rest
  simp

theorem u16_inverts : u16.Inverts (fun index => .ok (u16Bytes index)) := by
  intro input index rest
  simp

namespace Attribute

theorem read_inverts : read.Inverts toBytes := by
  intro input item rest
  simp only [read, toBytes, bind_eq_ok, pure_eq_ok, u16_eq_ok,
    u32_eq_ok, block_eq_ok, Outcome.bind_eq_ok, Outcome.pure_eq_ok,
    lengthBytes32_eq_ok]
  constructor
  · rintro ⟨name, _, rfl, length, _, rfl, info, _, ⟨size, rfl⟩, rfl, rfl⟩
    exact ⟨_, ⟨_, ⟨length, size.symm, rfl⟩, rfl⟩, by simp⟩
  · rintro ⟨_, ⟨_, ⟨length, size, rfl⟩, rfl⟩, rfl⟩
    exact ⟨item.name, _, by simp, length, _, rfl, item.info, rest, ⟨size.symm, rfl⟩, rfl, rfl⟩

end Attribute

namespace Member

theorem read_inverts : read.Inverts toBytes := by
  intro input member rest
  simp only [read, toBytes, bind_eq_ok, pure_eq_ok, u16_eq_ok,
    list_inverts Attribute.read_inverts _ _ _, Outcome.bind_eq_ok, Outcome.pure_eq_ok]
  constructor
  · rintro ⟨access, _, rfl, name, _, rfl, descriptor, _, rfl, attributes, _, ⟨items, written, rfl⟩, rfl, rfl⟩
    exact ⟨_, ⟨items, written, rfl⟩, by simp⟩
  · rintro ⟨_, ⟨items, written, rfl⟩, rfl⟩
    exact ⟨member.access, _, by simp, member.name, _, rfl, member.descriptor, _, rfl,
      member.attributes, rest, ⟨items, written, rfl⟩, rfl, rfl⟩

end Member

namespace ExceptionHandler

theorem read_inverts : read.Inverts (fun entry => .ok entry.toBytes) := by
  intro input entry rest
  simp only [read, toBytes, bind_eq_ok, pure_eq_ok, u16_eq_ok, Except.ok.injEq]
  constructor
  · rintro ⟨start, _, rfl, finish, _, rfl, handler, _, rfl, catchType, _, rfl, rfl, rfl⟩
    exact ⟨_, rfl, by simp⟩
  · rintro ⟨_, rfl, rfl⟩
    exact ⟨entry.start, _, by simp, entry.finish, _, rfl, entry.handler, _, rfl, entry.catchType, _, rfl, rfl, rfl⟩

end ExceptionHandler

namespace Code

/-- A method body is read from exactly the bytes it is written as. What follows them is left over. -/
theorem reader_inverts : reader.Inverts toBytes := by
  intro input code rest
  simp only [reader, toBytes, bind_eq_ok, pure_eq_ok, u16_eq_ok,
    u32_eq_ok, block_eq_ok, list_inverts ExceptionHandler.read_inverts _ _ _,
    list_inverts read_inverts _ _ _, Outcome.bind_eq_ok, Outcome.pure_eq_ok,
    lengthBytes32_eq_ok]
  constructor
  · rintro ⟨maxStack, _, rfl, maxLocals, _, rfl, length, _, rfl, instructions, _, ⟨size, rfl⟩,
      handlers, _, ⟨table, writtenTable, rfl⟩, attributes, _, ⟨items, written, rfl⟩, rfl, rfl⟩
    exact ⟨_, ⟨_, ⟨length, size.symm, rfl⟩, table, writtenTable, items, written, rfl⟩, by simp⟩
  · rintro ⟨_, ⟨_, ⟨length, size, rfl⟩, table, writtenTable, items, written, rfl⟩, rfl⟩
    exact ⟨code.maxStack, _, by simp, code.maxLocals, _, rfl, length, _, rfl, code.instructions, _,
      ⟨size.symm, rfl⟩, code.handlers, _, ⟨table, writtenTable, rfl⟩, code.attributes, rest,
      ⟨items, written, rfl⟩, rfl, rfl⟩

end Code

namespace ConstantPool

variable {pool : ConstantPool}

/-- The slots of the pool are those of the constants, after the empty slot at zero. -/
def LaidOut (pool : ConstantPool) (constants : List Constant) : Prop :=
  pool.slots.toList = none :: constants.flatMap Constant.slotList

@[simp] theorem toList_appendSlots (slots : Array (Option Constant)) (constant : Constant) :
    (appendSlots slots constant).toList = slots.toList ++ constant.slotList := by
  cases wide : constant.isWide <;> simp [appendSlots, Constant.slotList, wide]

theorem size_appendSlots (slots : Array (Option Constant)) (constant : Constant) :
    (appendSlots slots constant).size = slots.size + if constant.isWide then 2 else 1 := by
  cases wide : constant.isWide <;> simp [appendSlots, wide]

theorem LaidOut.filterMap_slots (laidOut : pool.LaidOut constants) : pool.slots.toList.filterMap id = constants := by
  rw [laidOut, filterMap_cons_none rfl, Constant.filterMap_slotList]

theorem LaidOut.toBytes_eq_ok (laidOut : pool.LaidOut constants) :
    pool.toBytes = .ok bytes ↔ ∃ (count : UInt16) (content : Bytes), count.toNat = pool.count ∧
      concatBytes Constant.toBytes constants = .ok content ∧ bytes = u16Bytes count ++ content := by
  simp only [toBytes, laidOut.filterMap_slots, Outcome.bind_eq_ok, Outcome.pure_eq_ok, lengthBytes16_eq_ok]
  constructor
  · rintro ⟨_, ⟨count, size, rfl⟩, content, written, rfl⟩
    exact ⟨count, content, size, written, rfl⟩
  · rintro ⟨count, content, size, written, rfl⟩
    exact ⟨_, ⟨count, size, rfl⟩, content, written, rfl⟩

end ConstantPool

/-- Where the reading of a pool stands: the counter, the pool so far and the input that is left. -/
structure PoolReading where
  index : UInt16
  pool : ConstantPool
  input : Bytes

namespace PoolReading

variable {count : UInt16} {reading last : PoolReading} {constant : Constant} {rest : Bytes} {failure : Failure}
  {pool : ConstantPool}

def start (input : Bytes) : PoolReading := { index := 1, pool := .empty, input }

def next (reading : PoolReading) (constant : Constant) (rest : Bytes) : PoolReading where
  index := (reading.index.toNat + constant.slots).toUInt16
  pool := { slots := appendSlots reading.pool.slots constant
            register := reading.pool.register.insertIfNew constant.key reading.index }
  input := rest

theorem next_count : (reading.next constant rest).pool.count = reading.pool.count + constant.slots :=
  size_appendSlots _ _

theorem next_index (fits : reading.index.toNat + constant.slots < 65536) :
    (reading.next constant rest).index.toNat = reading.index.toNat + constant.slots := by
  simp [next, Nat.mod_eq_of_lt fits]

/-- One turn of the loop: the counter is below the announced number, a constant is read, and the counter
can go up by its slots. -/
inductive Turn (count : UInt16) (reading : PoolReading) : PoolReading → Prop
  | mk {constant : Constant} {rest : Bytes} (below : reading.index < count)
    (taken : Constant.read reading.input = .ok (constant, rest))
    (fits : reading.index.toNat + constant.slots < 65536) : Turn count reading (reading.next constant rest)

def Reaches (count : UInt16) : PoolReading → PoolReading → Prop := Relation.ReflTransGen (Turn count)

def finish (count : UInt16) (reading : PoolReading) : Outcome (ConstantPool × Bytes) :=
  readSlots count reading.input.length reading.index reading.pool reading.input

/-- With fuel left, a constant that is read leads on if the counter can go up by its slots. -/
theorem readSlots_succ (below : reading.index < count)
    (taken : Constant.read reading.input = .ok (constant, rest)) (fuel : Nat) :
    readSlots count (fuel + 1) reading.index reading.pool reading.input =
      if reading.index.toNat + constant.slots < 65536 then
        readSlots count fuel (reading.next constant rest).index (reading.next constant rest).pool rest
      else Outcome.fail .counterOverflow := by
  rw [readSlots, if_pos below, bind_of_ok (within_eq_ok.mpr taken)]
  split <;> rfl

namespace Reaches

section

variable (reaches : Reaches count reading last)
include reaches

/-- The loop comes to whatever its turns reach, with fuel for what is left. -/
theorem readSlots_eq : ∃ fuel, last.input.length ≤ fuel ∧ reading.finish count =
      readSlots count fuel last.index last.pool last.input := by
  induction reaches with
  | refl => exact ⟨_, le_rfl, rfl⟩
  | tail _ turn ih =>
    obtain ⟨fuel, enough, same⟩ := ih
    obtain @⟨constant, rest, below, read, fits⟩ := turn
    have shorter := Constant.read_shortens read
    obtain ⟨fuel, rfl⟩ : ∃ fewer, fuel = fewer + 1 := ⟨fuel - 1, by omega⟩
    refine ⟨fuel, Nat.le_of_lt_succ (shorter.trans_le enough), ?_⟩
    rw [same, readSlots_succ below read, if_pos fits]
    rfl

theorem finish_done (done : ¬ last.index < count) :
    reading.finish count = .ok (last.pool, last.input) := by
  obtain ⟨fuel, -, same⟩ := reaches.readSlots_eq
  rw [same]
  cases fuel <;> rw [readSlots, if_neg done] <;> rfl

theorem finish_stuck (below : last.index < count)
    (stuck : Constant.read last.input = .error failure) :
    reading.finish count = Outcome.within (.poolEntry last.index) (.error failure) := by
  obtain ⟨fuel, enough, same⟩ := reaches.readSlots_eq
  rw [same]
  cases fuel with
  | zero =>
    -- Without fuel nothing is left, and there is one way in which nothing cannot be read.
    have nothing : last.input = [] := length_eq_zero_iff.mp (Nat.le_zero.mp enough)
    rw [nothing] at stuck ⊢
    cases stuck
    rw [readSlots, if_pos below]
    rfl
  | succ fuel =>
    rw [readSlots, if_pos below]
    apply bind_of_error
    rw [within, stuck]
    rfl

theorem finish_over (below : last.index < count)
    (taken : Constant.read last.input = .ok (constant, rest)) (tooMany : ¬ last.index.toNat + constant.slots < 65536) :
    reading.finish count = Outcome.fail .counterOverflow := by
  obtain ⟨fuel, enough, same⟩ := reaches.readSlots_eq
  have shorter := Constant.read_shortens taken
  obtain ⟨fuel, rfl⟩ : ∃ fewer, fuel = fewer + 1 := ⟨fuel - 1, by omega⟩
  rw [same, readSlots_succ below taken, if_neg tooMany]

/-- At every turn the counter is the number of slots so far. -/
theorem index_eq (start : reading.index.toNat = reading.pool.count) :
    last.index.toNat = last.pool.count := by
  induction reaches with
  | refl => exact start
  | tail _ turn ih =>
    obtain ⟨-, -, fits⟩ := turn
    rw [next_index fits, next_count, ih]

/-- The turns take the bytes of some constants and add just the slots of these. The counter plays no part in it. -/
theorem takes :
    ∃ added bytes, concatBytes Constant.toBytes added = .ok bytes ∧ reading.input = bytes ++ last.input ∧
      last.pool.slots.toList = reading.pool.slots.toList ++ added.flatMap Constant.slotList := by
  induction reaches using Relation.ReflTransGen.head_induction_on with
  | refl => exact ⟨[], [], rfl, rfl, by simp⟩
  | head turn _ ih =>
    obtain @⟨constant, rest, -, read, -⟩ := turn
    obtain ⟨front, written, split⟩ := (Constant.read_inverts _ _ _).mp read
    obtain ⟨added, bytes, others, left, slots⟩ := ih
    refine ⟨constant :: added, front ++ bytes, ?_, ?_, by simp [slots, next]⟩
    · exact concatBytes_cons_eq_ok.mpr ⟨front, bytes, written, others, rfl⟩
    · rw [split, show rest = bytes ++ last.input from left, append_assoc]

end

end Reaches

/-- The turns come to an end, because each of them takes some input. If the counter is still below the announced
number then, no constant can be read, or the counter cannot go up by its slots. -/
theorem exists_last (count : UInt16) (reading : PoolReading) : ∃ last, Reaches count reading last ∧
      (last.index < count → (∃ failure, Constant.read last.input = .error failure) ∨
        ∃ constant rest, Constant.read last.input = .ok (constant, rest) ∧
          ¬ last.index.toNat + constant.slots < 65536) := by
  generalize length : reading.input.length = least
  induction least using Nat.strong_induction_on generalizing reading with
  | h least ih =>
    cases read : Constant.read reading.input with
    | error failure => exact ⟨reading, .refl, fun _ => .inl ⟨failure, read⟩⟩
    | ok taken =>
      by_cases below : reading.index < count
      · by_cases fits : reading.index.toNat + taken.1.slots < 65536
        · obtain ⟨last, reaches, ends⟩ := ih _ (length ▸ Constant.read_shortens read) (reading.next taken.1 taken.2) rfl
          exact ⟨last, .head (.mk below read fits) reaches, ends⟩
        · exact ⟨reading, .refl, fun _ => .inr ⟨taken.1, taken.2, read, fits⟩⟩
      · exact ⟨reading, .refl, fun again => absurd again below⟩

/-- The loop succeeds exactly if its turns lead to a counter that is not below the announced number. -/
theorem finish_eq_ok : reading.finish count = .ok (pool, rest) ↔
      ∃ last, Reaches count reading last ∧ ¬ last.index < count ∧ last.pool = pool ∧ last.input = rest := by
  constructor
  · intro finished
    obtain ⟨last, reaches, ends⟩ := exists_last count reading
    by_cases below : last.index < count
    · rcases ends below with ⟨failure, stuck⟩ | ⟨constant, rest, taken, tooMany⟩
      · rw [reaches.finish_stuck below stuck] at finished
        cases finished
      · rw [reaches.finish_over below taken tooMany] at finished
        cases finished
    · rw [reaches.finish_done below] at finished
      cases finished
      exact ⟨last, reaches, below, rfl, rfl⟩
  · rintro ⟨last, reaches, done, rfl, rfl⟩
    exact reaches.finish_done done

theorem read_eq_finish (count : UInt16) (input : Bytes) :
    ConstantPool.read (u16Bytes count ++ input) = ((start input).finish count >>= fun taken =>
      if taken.1.count = count.toNat then .ok taken else Outcome.fail (.wideOverflow count)) := by
  have announced : u16 (u16Bytes count ++ input) = .ok (count, input) := u16_eq_ok.mpr rfl
  have looked : (get : Reader Bytes) input = .ok (input, input) := get_eq_ok.mpr ⟨rfl, rfl⟩
  rw [ConstantPool.read, bind_of_ok announced, bind_of_ok looked]
  cases finished : (start input).finish count with
  | error failure => exact bind_of_error finished
  | ok taken =>
    obtain ⟨pool, rest⟩ := taken
    have filled : readSlots count input.length 1 .empty input = .ok (pool, rest) := finished
    rw [bind_of_ok filled]
    change _ = if pool.count = count.toNat then _ else _
    split <;> rfl

theorem read_eq_ok {input : Bytes} : ConstantPool.read input = .ok (pool, rest) ↔
      ∃ count left last, input = u16Bytes count ++ left ∧ Reaches count (start left) last ∧
        ¬ last.index < count ∧ last.pool.count = count.toNat ∧ last.pool = pool ∧ last.input = rest := by
  constructor
  · intro taken
    obtain ⟨count, left, announced, -⟩ := bind_eq_ok.mp taken
    obtain rfl := u16_eq_ok.mp announced
    rw [read_eq_finish] at taken
    obtain ⟨filled, finished, checked⟩ := Outcome.bind_eq_ok.mp taken
    split at checked
    case isTrue full =>
      cases checked
      obtain ⟨last, reaches, done, rfl, rfl⟩ := finish_eq_ok.mp finished
      exact ⟨count, left, last, rfl, reaches, done, full, rfl, rfl⟩
    case isFalse => cases checked
  · rintro ⟨count, left, last, rfl, reaches, done, full, rfl, rfl⟩
    rw [read_eq_finish, reaches.finish_done done]
    exact if_pos full

/-- Constants that have room are read one after another, and the counter goes up by their slots. It can do so,
because it stays below the number of slots that are announced. -/
theorem reaches_of_constants (written : concatBytes Constant.toBytes constants = .ok bytes)
    (split : reading.input = bytes ++ rest)
    (room : reading.index.toNat + (constants.flatMap Constant.slotList).length ≤ count.toNat) :
    ∃ last, Reaches count reading last ∧ last.input = rest ∧
      last.index.toNat = reading.index.toNat + (constants.flatMap Constant.slotList).length ∧
      last.pool.slots.toList = reading.pool.slots.toList ++ constants.flatMap Constant.slotList := by
  induction constants generalizing reading bytes with
  | nil =>
    cases written
    exact ⟨reading, .refl, split, rfl, by simp⟩
  | cons constant others ih =>
    obtain ⟨front, back, writtenFirst, writtenOthers, rfl⟩ := concatBytes_cons_eq_ok.mp written
    rw [flatMap_cons, length_append, Constant.slotList_length] at room ⊢
    have bound : count.toNat < 65536 := count.toNat_lt
    have positive : 0 < constant.slots := constant.slots_pos
    have taken : Constant.read reading.input = .ok (constant, back ++ rest) :=
      (Constant.read_inverts _ _ _).mpr ⟨front, writtenFirst, by simp [split]⟩
    have fits : reading.index.toNat + constant.slots < 65536 := by omega
    have turn : Turn count reading (reading.next constant (back ++ rest)) :=
      .mk (UInt16.lt_iff_toNat_lt.mpr (by omega)) taken fits
    have index : (reading.next constant (back ++ rest)).index.toNat = reading.index.toNat + constant.slots :=
      next_index fits
    obtain ⟨last, reaches, left, place, slots⟩ := ih writtenOthers rfl (by rw [index]; omega)
    refine ⟨last, .head turn reaches, left, by rw [place, index, Nat.add_assoc], by simp [slots, next]⟩

end PoolReading

namespace ConstantPool

variable {input rest : Bytes} {pool : ConstantPool}

open PoolReading (start reaches_of_constants)

theorem read_takes (taken : read input = .ok (pool, rest)) :
    ∃ constants bytes, pool.LaidOut constants ∧ pool.toBytes = .ok bytes ∧ input = bytes ++ rest := by
  obtain ⟨count, _, last, rfl, reaches, -, full, rfl, rfl⟩ := PoolReading.read_eq_ok.mp taken
  obtain ⟨constants, content, written, split, slots⟩ := reaches.takes
  have laidOut : last.pool.LaidOut constants := slots
  refine ⟨constants, u16Bytes count ++ content, laidOut,
    laidOut.toBytes_eq_ok.mpr ⟨count, content, full.symm, written, rfl⟩, ?_⟩
  rw [append_assoc, ← split]
  rfl

theorem read_of_toBytes (rest : Bytes) (laidOut : pool.LaidOut constants) (written : pool.toBytes = .ok bytes) :
    ∃ again, read (bytes ++ rest) = .ok (again, rest) ∧ again.slots = pool.slots := by
  obtain ⟨count, content, size, concatenated, rfl⟩ := laidOut.toBytes_eq_ok.mp written
  have full : (start (content ++ rest)).index.toNat + (constants.flatMap Constant.slotList).length = count.toNat := by
    rw [size, ConstantPool.count, ← Array.length_toList, laidOut, length_cons, Nat.add_comm]
    rfl
  obtain ⟨last, reaches, left, place, slots⟩ := reaches_of_constants concatenated rfl full.le
  have same : last.pool.slots = pool.slots := Array.toList_inj.mp (slots.trans laidOut.symm)
  have done : ¬ last.index < count := by
    rw [UInt16.lt_iff_toNat_lt, place, full]
    exact lt_irrefl _
  refine ⟨last.pool, PoolReading.read_eq_ok.mpr
    ⟨count, content ++ rest, last, by simp, reaches, done, ?_, rfl, left⟩, same⟩
  rw [ConstantPool.count, same, size, ConstantPool.count]

end ConstantPool

namespace ClassFile

variable {input rest : Bytes} {file : ClassFile}

/-- The parts of a class file stand one after another, and each of them is written as it was read. -/
theorem reader_takes (taken : reader input = .ok (file, rest)) : (∃ constants, file.pool.LaidOut constants) ∧
      ∃ bytes, file.toBytes = .ok bytes ∧ input = bytes ++ rest := by
  simp only [reader, bind_eq_ok, u32_eq_ok] at taken
  obtain ⟨found, _, rfl, taken⟩ := taken
  split at taken
  case isTrue => simp at taken
  case isFalse right =>
    obtain rfl : found = magic := not_not.mp right
    simp only [bind_eq_ok, pure_eq_ok, within_eq_ok, u16_eq_ok,
      list_inverts u16_inverts _ _ _, list_inverts Member.read_inverts _ _ _,
      list_inverts read_inverts _ _ _] at taken
    obtain ⟨minor, _, rfl, major, _, rfl, pool, _, takenPool, access, _, rfl, thisClass, _, rfl,
      superClass, _, rfl, interfaces, _, ⟨ofInterfaces, interfacesWritten, rfl⟩,
      fields, _, ⟨ofFields, fieldsWritten, rfl⟩, methods, _, ⟨ofMethods, methodsWritten, rfl⟩,
      attributes, _, ⟨ofAttributes, attributesWritten, rfl⟩, rfl, rfl⟩ := taken
    obtain ⟨constants, ofPool, laidOut, poolWritten, rfl⟩ := read_takes takenPool
    refine ⟨⟨constants, laidOut⟩, ?_⟩
    simp only [toBytes, Outcome.bind_eq_ok, Outcome.pure_eq_ok]
    exact ⟨_, ⟨ofPool, poolWritten, ofInterfaces, interfacesWritten, ofFields, fieldsWritten,
      ofMethods, methodsWritten, ofAttributes, attributesWritten, rfl⟩, by simp⟩

theorem read_eq_ok : read bytes = .ok file ↔ reader bytes = .ok (file, []) := by
  simp only [read, Outcome.bind_eq_ok, Prod.exists]
  constructor
  · rintro ⟨taken, rest, takes, checked⟩
    split at checked
    case isTrue finished =>
      obtain rfl := Outcome.pure_eq_ok.mp checked
      rw [takes, isEmpty_iff.mp finished]
    case isFalse => simp at checked
  · intro takes
    exact ⟨file, [], takes, rfl⟩

theorem read_of_toBytes (laidOut : file.pool.LaidOut constants) (written : file.toBytes = .ok bytes) :
    ∃ pool, read bytes = .ok { file with pool } ∧ pool.slots = file.pool.slots := by
  simp only [toBytes, Outcome.bind_eq_ok, Outcome.pure_eq_ok] at written
  obtain ⟨ofPool, poolWritten, ofInterfaces, interfacesWritten, ofFields, fieldsWritten, ofMethods,
    methodsWritten, ofAttributes, attributesWritten, rfl⟩ := written
  obtain ⟨pool, takenPool, same⟩ := read_of_toBytes (u16Bytes file.access ++
    (u16Bytes file.thisClass ++ (u16Bytes file.superClass ++
      (ofInterfaces ++ (ofFields ++ (ofMethods ++ ofAttributes)))))) laidOut poolWritten
  refine ⟨pool, read_eq_ok.mpr ?_, same⟩
  simp only [reader, bind_eq_ok, u32_eq_ok, append_assoc]
  refine ⟨magic, _, rfl, ?_⟩
  rw [if_neg (not_not.mpr rfl)]
  simp only [bind_eq_ok, pure_eq_ok, within_eq_ok, u16_eq_ok,
    list_inverts u16_inverts _ _ _, list_inverts Member.read_inverts _ _ _,
    list_inverts read_inverts _ _ _]
  exact ⟨file.minor, _, rfl, file.major, _, rfl, pool, _, takenPool, file.access, _, rfl,
    file.thisClass, _, rfl, file.superClass, _, rfl, file.interfaces, _,
    ⟨ofInterfaces, interfacesWritten, rfl⟩, file.fields, _, ⟨ofFields, fieldsWritten, rfl⟩,
    file.methods, _, ⟨ofMethods, methodsWritten, rfl⟩, file.attributes, [],
    ⟨ofAttributes, attributesWritten, by simp⟩, rfl, rfl⟩

/-- Parsing loses nothing: the bytes of a class file that was read are those it was read from. -/
theorem toBytes_of_read {bytes : Bytes} (parsed : read bytes = .ok file) :
    file.toBytes = .ok bytes := by
  obtain ⟨-, written, produced, same⟩ := reader_takes (read_eq_ok.mp parsed)
  rw [produced, same, List.append_nil]

def wideClass : Bytes := [0xca,0xfe,0xba,0xbe,0,0,0,52,0,5,1,0,1,65,7,0,1,5,0,0,0,0,0,0,0,9,0,0,0,2,
  0,0,0,0,0,1,0,0,0,1,0,1,0,1,0,1,0,0,0,1,7,0,0,0,0]

theorem toBytes_of_read_wideClass :
    ∃ file, read wideClass = .ok file ∧ file.toBytes = .ok wideClass := by
  have parses : (read wideClass).isOk := by decide +kernel
  match parsed : read wideClass, parses with
  | .ok file, _ => exact ⟨file, rfl, toBytes_of_read parsed⟩

end ClassFile

end JarRemap
