import JarRemap.Proofs.PoolInvariant

/-!
# The counter of a pool that is read

Reading a pool is a loop. Its counter is a word of sixteen bits that goes up by the slots of each constant, and the
loop ends when the counter has reached the announced number of slots. The counter is exact at every turn. A wide
constant in the last slot takes one slot more than announced. Reading fails because of that, but not in the same
way in all pools: with 65535 slots the counter cannot go up, and the loop fails before the slots are compared.
-/
namespace JarRemap

open List Reader Constant Constant

variable {failure : Failure} {input : Bytes}

namespace PoolReading

variable {count : UInt16} {reading last : PoolReading} {constant : Constant} {rest : Bytes}

/-- What holds of the empty pool and is kept by one more constant holds of every pool that is read. -/
theorem read_keeps {Holds : ConstantPool → Prop} (empty : Holds .empty)
    (step : ∀ (reading : PoolReading) constant rest, Holds reading.pool → Holds (reading.next constant rest).pool)
    {pool : ConstantPool} (taken : ConstantPool.read input = .ok (pool, rest)) : Holds pool := by
  obtain ⟨count, left, last, -, reaches, -, -, rfl, -⟩ := read_eq_ok.mp taken
  clear taken
  induction reaches with
  | refl => exact empty
  | tail _ turn ih =>
    obtain ⟨-, -, -⟩ := turn
    exact step _ _ _ ih

section lastSlot

variable {input : Bytes}

/-- If the counter can tell one more than the announced number, it does, and the loop is over. -/
theorem read_stops (reaches : Reaches count (start input) last) (ends : last.index.toNat + 1 = count.toNat)
    (taken : read last.input = .ok (constant, rest)) (wide : constant.isWide) (room : count ≠ 65535) :
    (∀ reading, ¬ Turn count (last.next constant rest) reading) ∧
      ConstantPool.read (u16Bytes count ++ input) = Outcome.fail (.wideOverflow count) := by
  have smaller : count.toNat ≠ 65535 := fun full => room (UInt16.toNat_inj.mp full)
  have bound : count.toNat < 65536 := count.toNat_lt
  have two : constant.slots = 2 := if_pos wide
  have below : last.index < count := UInt16.lt_iff_toNat_lt.mpr (by omega)
  have fits : last.index.toNat + constant.slots < 65536 := by omega
  have turn : Turn count last (last.next constant rest) := .mk below taken fits
  have done : ¬ (last.next constant rest).index < count := by
    rw [UInt16.lt_iff_toNat_lt, next_index fits]
    omega
  have crowded : count.toNat < (last.next constant rest).pool.count := by
    rw [next_count, ← reaches.index_eq rfl]
    omega
  constructor
  · rintro reading ⟨further, -, -⟩
    exact done further
  · rw [read_eq_finish, Reaches.finish_done (reaches.tail turn) done]
    exact if_neg crowded.ne'

/-- Below the announced number, only two slots after 65533 others are too many for the counter. -/
theorem over_iff (below : last.index < count) : ¬ last.index.toNat + constant.slots < 65536 ↔
      count = 65535 ∧ last.index = 65534 ∧ constant.isWide := by
  have below : last.index.toNat < count.toNat := UInt16.lt_iff_toNat_lt.mp below
  have bound : count.toNat < 65536 := count.toNat_lt
  rw [← UInt16.toNat_inj, ← UInt16.toNat_inj, slots]
  change _ ↔ count.toNat = 65535 ∧ last.index.toNat = 65534 ∧ _
  split <;> simp [*] <;> omega

/-- Reading fails because of the counter exactly if a wide constant stands in the last of 65535 slots. -/
theorem read_eq_counterOverflow : ConstantPool.read (u16Bytes count ++ input) = Outcome.fail .counterOverflow ↔
      count = 65535 ∧ ∃ last constant rest, Reaches count (start input) last ∧ last.index = 65534 ∧
        read last.input = .ok (constant, rest) ∧ constant.isWide := by
  constructor
  · intro failed
    obtain ⟨last, reaches, ends⟩ := exists_last count (start input)
    rw [read_eq_finish] at failed
    by_cases below : last.index < count
    · rcases ends below with ⟨failure, stuck⟩ | ⟨constant, rest, taken, tooMany⟩
      · -- Any other failure of the loop names the slot.
        rw [reaches.finish_stuck below stuck] at failed
        cases failed
      · obtain ⟨full, place, wide⟩ := (over_iff below).mp tooMany
        exact ⟨full, last, constant, rest, reaches, place, taken, wide⟩
    · rw [reaches.finish_done below] at failed
      change (if _ then _ else _) = _ at failed
      split at failed <;> cases failed
  · rintro ⟨rfl, last, constant, rest, reaches, place, taken, wide⟩
    have below : last.index < 65535 := by
      rw [place]
      decide
    rw [read_eq_finish, reaches.finish_over below taken ((over_iff below).mpr ⟨rfl, place, wide⟩)]
    rfl

end lastSlot

end PoolReading

theorem ClassFile.read_of_pool_error (minor major : UInt16)
    (stuck : ConstantPool.read input = .error failure) :
    ClassFile.read (u32Bytes magic ++ (u16Bytes minor ++ (u16Bytes major ++ input))) = .error failure := by
  have stopped : reader (u32Bytes magic ++ (u16Bytes minor ++ (u16Bytes major ++ input))) = .error failure := by
    rw [reader, bind_of_ok (u32_eq_ok.mpr rfl), if_neg (not_not.mpr rfl),
      bind_of_ok (u16_eq_ok.mpr rfl), bind_of_ok (u16_eq_ok.mpr rfl),
      bind_of_error stuck]
  rw [read, stopped]
  rfl

namespace ConstantPool

open PoolReading

/-- What the counter does when a pool is read, for every input and every announced number of slots.

The counter is the number of slots so far at every turn. It would run over in one case, and reading fails there: a
wide constant in the last of 65535 slots. If a wide constant stands in the last slot of a smaller pool, the loop
ends with it, and reading fails because it takes a slot too many, whatever follows. -/
theorem read_counts_slots (count : UInt16) (input : Bytes) :
    (∀ reading, Reaches count (start input) reading → reading.index.toNat = reading.pool.count) ∧
    (read (u16Bytes count ++ input) = Outcome.fail .counterOverflow ↔
      count = 65535 ∧ ∃ last constant rest, Reaches count (start input) last ∧ last.index = 65534 ∧
        Constant.read last.input = .ok (constant, rest) ∧ constant.isWide) ∧
    ∀ last constant rest, Reaches count (start input) last → last.index.toNat + 1 = count.toNat →
      Constant.read last.input = .ok (constant, rest) → constant.isWide → count ≠ 65535 →
      (∀ reading, ¬ Turn count (last.next constant rest) reading) ∧
        read (u16Bytes count ++ input) = Outcome.fail (.wideOverflow count) := by
  refine ⟨fun reading reaches => reaches.index_eq rfl, read_eq_counterOverflow, ?_⟩
  intro last constant rest reaches ends taken wide room
  exact read_stops reaches ends taken wide room

/-- Two slots are announced, and a wide constant stands in the second. -/
theorem read_counts_slots_wideEnd :
    (∀ reading, ¬ Turn 2 ((start [5, 0, 0, 0, 0, 0, 0, 0, 9, 7]).next (.long 9) [7]) reading) ∧
      read [0, 2, 5, 0, 0, 0, 0, 0, 0, 0, 9, 7] = Outcome.fail (.wideOverflow 2) :=
  (read_counts_slots 2 [5, 0, 0, 0, 0, 0, 0, 0, 9, 7]).2.2 _ (.long 9) [7] .refl rfl rfl rfl (by decide)

/-- The start of a class file that announces 65535 slots. -/
def overfullStart : Bytes := [0xca, 0xfe, 0xba, 0xbe, 0, 0, 0, 52, 0xff, 0xff]

/-- A string, a wide constant, and a text whose ten bytes are still to come. -/
def overfullConstants : Bytes := [8, 0, 0, 5, 0, 0, 0, 0, 0, 0, 0, 0, 1, 0, 10]

/-- A class file with a wide constant in the last of 65535 slots. It is the same 25 bytes over and over, since
every text takes the start that follows it. -/
def overfullClass : Bytes := (replicate 16384 (overfullStart ++ overfullConstants)).flatten

/-- What follows the first start, if there are as many starts after it as told. -/
def overfullPool (rounds : Nat) : Bytes :=
  (replicate rounds (overfullConstants ++ overfullStart)).flatten ++ overfullConstants

theorem overfull_split (rounds : Nat) : (replicate (rounds + 1) (overfullStart ++ overfullConstants)).flatten =
      overfullStart ++ overfullPool rounds := by
  induction rounds with
  | zero => rfl
  | succ rounds ih =>
    rw [replicate_succ, flatten_cons, ih, overfullPool, overfullPool, replicate_succ, flatten_cons]
    simp only [append_assoc]

/-- The constants before the last string and the wide constant after it. -/
def overfullRounds (rounds : Nat) : List Constant :=
  (replicate rounds [.string 0, .long 0, .utf8 overfullStart]).flatten

theorem overfullRounds_slots (rounds : Nat) : ((overfullRounds rounds).flatMap slotList).length = 4 * rounds := by
  induction rounds with
  | zero => rfl
  | succ rounds ih =>
    have group : (([.string 0, .long 0, .utf8 overfullStart] : List Constant).flatMap slotList).length = 4 := rfl
    rw [overfullRounds, replicate_succ, flatten_cons, flatMap_append, length_append, group, ← overfullRounds, ih]
    omega

theorem overfullRounds_bytes (rounds : Nat) : concatBytes Constant.toBytes (overfullRounds rounds) =
      .ok (replicate rounds (overfullConstants ++ overfullStart)).flatten := by
  induction rounds with
  | zero => rfl
  | succ rounds ih =>
    rw [overfullRounds, replicate_succ, flatten_cons, ← overfullRounds, replicate_succ, flatten_cons]
    simp only [cons_append, nil_append, concatBytes_cons_eq_ok]
    exact ⟨[8, 0, 0], _, rfl, ⟨[5, 0, 0, 0, 0, 0, 0, 0, 0], _, rfl,
      ⟨[1, 0, 10] ++ overfullStart, _, rfl, ih, rfl⟩, rfl⟩, rfl⟩

theorem overfullPool_reaches {count : UInt16} {rounds : Nat} (room : 4 * rounds + 2 ≤ count.toNat) :
    ∃ last, Reaches count (start (overfullPool rounds)) last ∧ last.index.toNat = 4 * rounds + 2 ∧
      Constant.read last.input = .ok (.long 0, [1, 0, 10]) := by
  have first : (start (overfullPool rounds)).index.toNat = 1 := rfl
  have fits : (start (overfullPool rounds)).index.toNat +
      ((overfullRounds rounds).flatMap slotList).length ≤ count.toNat := by
    rw [overfullRounds_slots, first]
    omega
  obtain ⟨between, reaches, left, place, -⟩ := reaches_of_constants (overfullRounds_bytes rounds) rfl fits
  rw [overfullRounds_slots, first] at place
  have bound : count.toNat < 65536 := count.toNat_lt
  have single : (string 0).slots = 1 := rfl
  have more : between.index.toNat + (string 0).slots < 65536 := by omega
  have string : Turn count between (between.next (.string 0) [5, 0, 0, 0, 0, 0, 0, 0, 0, 1, 0, 10]) :=
    .mk (UInt16.lt_iff_toNat_lt.mpr (by omega)) (by rw [left]; rfl) more
  refine ⟨_, reaches.tail string, ?_, rfl⟩
  rw [next_index more]
  omega

/-- A wide constant in the last of 65535 slots is not told as one that takes a slot too many. -/
theorem overfullClass_runs_over :
    (∃ last, Reaches 65535 (start (overfullPool 16383)) last ∧ last.index = 65534 ∧
      Constant.read last.input = .ok (.long 0, [1, 0, 10])) ∧
    overfullClass = overfullStart ++ overfullPool 16383 ∧
    ClassFile.read overfullClass = Outcome.fail .counterOverflow ∧
    ClassFile.read overfullClass ≠ Outcome.fail (.wideOverflow 65535) := by
  have room : 4 * 16383 + 2 ≤ (65535 : UInt16).toNat := by decide
  obtain ⟨last, reaches, reached, taken⟩ := overfullPool_reaches room
  have place : last.index = 65534 := UInt16.toNat_inj.mp reached
  have split : overfullClass = overfullStart ++ overfullPool 16383 := overfull_split 16383
  have pool : read (u16Bytes 65535 ++ overfullPool 16383) = Outcome.fail .counterOverflow :=
    read_eq_counterOverflow.mpr ⟨rfl, last, _, _, reaches, place, taken, rfl⟩
  have fails : ClassFile.read overfullClass = Outcome.fail .counterOverflow := by
    rw [split]
    exact ClassFile.read_of_pool_error 0 52 pool
  refine ⟨⟨last, reaches, place, taken⟩, split, fails, ?_⟩
  rw [fails]
  simp [Outcome.fail, Failure.of]

end ConstantPool

end JarRemap
