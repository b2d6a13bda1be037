import JarRemap.Proofs.ClassFileFormat
import JarRemap.Proofs.TextFormat

/-!
# The invariant of the constant pool

A pool is well formed if its slots are those of a list of constants, their number fits sixteen bits, and
its register only knows slots that hold what they are known for. Reading a pool, putting a constant and
replacing one keep this. A pool keeps the names of another if it has all texts and pairs in the same slots.
-/
namespace JarRemap

open List Reader Constant PoolReading ConstantPool

variable {first : Constant}

namespace Constant

theorem key_injective {second : Constant} (same : first.key = second.key) : first = second := by
  cases first <;> cases second <;>
    simp_all [key, tag, UInt8.toNat_inj, UInt16.toNat_inj, UInt32.toNat_inj, UInt64.toNat_inj, map_inj_right]

/-- Texts and pairs of name and descriptor, which other constants share. -/
def isName : Constant → Bool
  | .utf8 _ | .nameAndType .. => true
  | _ => false

end Constant

namespace ConstantPool

variable {pool after between : ConstantPool} {constant new old : Constant} {index : UInt16}
  {register : Std.TreeMap (List Nat) UInt16}

theorem constant?_eq_some :
    pool.constant? index = some constant ↔ pool.slots.toList[index.toNat]? = some (some constant) := by
  rw [constant?, ← Array.getElem?_toList]
  cases pool.slots.toList[index.toNat]? with
  | none => simp
  | some slot => simp [Option.join]

/-- The register is right about what it knows. -/
def Registered (pool : ConstantPool) : Prop :=
  ∀ constant index, pool.known? constant = some index → pool.constant? index = some constant

/-- The slots are laid out, their number fits, and the register is right. -/
structure WellFormed (pool : ConstantPool) : Prop where
  laidOut : ∃ constants, pool.LaidOut constants
  bounded : pool.count ≤ 65535
  registered : pool.Registered

theorem known?_insertIfNew {slots : Array (Option Constant)} {known : UInt16}
    (found : ({ slots, register := register.insertIfNew new.key index } : ConstantPool).known? constant = some known) :
    constant = new ∧ known = index ∨ register[constant.key]? = some known := by
  rw [known?, Std.TreeMap.getElem?_insertIfNew] at found
  split at found
  case isTrue same =>
    have equal : new.key = constant.key := Std.LawfulEqCmp.eq_of_compare same.1
    exact .inl ⟨key_injective equal.symm, (Option.some.inj found).symm⟩
  case isFalse => exact .inr found

theorem constant?_of_append {added : List (Option Constant)} (grown : after.slots.toList = pool.slots.toList ++ added)
    (held : pool.constant? index = some constant) : after.constant? index = some constant := by
  rw [constant?_eq_some] at held ⊢
  obtain ⟨inside, -⟩ := List.getElem?_eq_some_iff.mp held
  rw [grown, getElem?_append_left inside, held]

theorem constant?_appendSlots (place : index.toNat = pool.count) :
    ({ slots := appendSlots pool.slots constant, register } : ConstantPool).constant? index = some constant := by
  have first : constant.slotList[0]? = some (some constant) := by
    cases wide : constant.isWide <;> simp [slotList, wide]
  rw [constant?_eq_some, toList_appendSlots, getElem?_append_right (by simp [place, count]),
    Array.length_toList, place, count, Nat.sub_self, first]

/-- The register of a pool that is read is right. The counter agrees with the number of slots at every turn, so
that each constant is registered under its own slot. -/
theorem registered_of_reaches {count : UInt16} {input : Bytes} {last : PoolReading}
    (reaches : Reaches count (.start input) last) : last.pool.Registered := by
  induction reaches with
  | refl =>
    intro constant known found
    simp [start, known?, empty] at found
  | tail before turn ih =>
    obtain ⟨-, -, -⟩ := turn
    intro other known found
    rcases known?_insertIfNew found with ⟨rfl, rfl⟩ | earlier
    · exact constant?_appendSlots (Reaches.index_eq before rfl)
    · exact constant?_of_append (toList_appendSlots _ _) (ih other known earlier)

theorem read_wellFormed {input rest : Bytes} (taken : read input = .ok (pool, rest)) : pool.WellFormed := by
  obtain ⟨constants, -, laidOut, -⟩ := read_takes taken
  obtain ⟨count, _, last, rfl, reaches, -, full, rfl, rfl⟩ := read_eq_ok.mp taken
  have bounded : last.pool.count ≤ 65535 := full.trans_le (Nat.le_of_lt_succ count.toNat_lt)
  exact ⟨⟨constants, laidOut⟩, bounded, registered_of_reaches reaches⟩

theorem mem_constants (bounded : pool.count ≤ 65535) :
    (index, constant) ∈ pool.constants ↔ pool.constant? index = some constant := by
  simp only [constants, mem_filterMap, Prod.exists, mem_zipIdx_iff_getElem?,
    Option.map_eq_some_iff, Prod.mk.injEq, constant?_eq_some]
  constructor
  · rintro ⟨_, place, held, _, rfl, rfl, rfl⟩
    obtain ⟨inside, -⟩ := List.getElem?_eq_some_iff.mp held
    have small : place < 65536 := by
      rw [Array.length_toList] at inside
      exact lt_of_lt_of_le inside (by rw [← count]; omega)
    simpa [Nat.toUInt16, Nat.mod_eq_of_lt small] using held
  · intro held
    exact ⟨some constant, index.toNat, held, constant, rfl, by simp [Nat.toUInt16], rfl⟩

theorem constants_pairwise (bounded : pool.count ≤ 65535) :
    pool.constants.Pairwise fun first second => first.1 ≠ second.1 := by
  rw [constants, pairwise_filterMap]
  have distinct : pool.slots.toList.zipIdx.Pairwise fun first second => first.2 ≠ second.2 :=
    pairwise_map.mp (nodup_zipIdx_map_snd _)
  refine distinct.imp_of_mem ?_
  rintro ⟨firstSlot, first⟩ ⟨secondSlot, second⟩ firstMem secondMem different
  simp only [Option.map_eq_some_iff]
  rintro _ ⟨firstConstant, -, rfl⟩ _ ⟨secondConstant, -, rfl⟩ same
  have small {slot : Option Constant} {place : Nat} (mem : (slot, place) ∈ pool.slots.toList.zipIdx) :
      place % 65536 = place := by
    obtain ⟨inside, -⟩ := List.getElem?_eq_some_iff.mp (mem_zipIdx_iff_getElem?.mp mem)
    rw [Array.length_toList] at inside
    exact Nat.mod_eq_of_lt (lt_of_lt_of_le inside (by rw [← count]; omega))
  have values := congrArg UInt16.toNat same
  simp only [Nat.toUInt16, UInt16.toNat_ofNat', small firstMem, small secondMem] at values
  exact different values

section resolution

variable {spelled name descriptor : String}

@[simp] theorem get_eq_ok : pool.get index = .ok constant ↔ pool.constant? index = some constant := by
  unfold get
  split <;> simp_all

theorem text_eq_ok : pool.text index = .ok spelled ↔ ∃ bytes, pool.constant? index = some (.utf8 bytes) ∧
        ModifiedUtf8.decode bytes = .ok spelled := by
  simp only [text, Outcome.bind_eq_ok, get_eq_ok]
  constructor
  · rintro ⟨constant, held, decoded⟩
    split at decoded
    · exact ⟨_, held, decoded⟩
    · simp at decoded
  · rintro ⟨bytes, held, decoded⟩
    exact ⟨_, held, decoded⟩

theorem className_eq_ok : pool.className index = .ok name ↔
      ∃ slot, pool.constant? index = some (.classRef slot) ∧ pool.text slot = .ok name := by
  simp only [className, Outcome.bind_eq_ok, get_eq_ok]
  constructor
  · rintro ⟨constant, held, found⟩
    split at found
    · exact ⟨_, held, Outcome.within_eq_ok.mp found⟩
    · simp at found
  · rintro ⟨slot, held, found⟩
    exact ⟨_, held, Outcome.within_eq_ok.mpr found⟩

theorem nameAndType_eq_ok : pool.nameAndType index = .ok (name, descriptor) ↔
      ∃ nameSlot descriptorSlot, pool.constant? index = some (.nameAndType nameSlot descriptorSlot) ∧
        pool.text nameSlot = .ok name ∧ pool.text descriptorSlot = .ok descriptor := by
  simp only [nameAndType, Outcome.bind_eq_ok, get_eq_ok]
  constructor
  · rintro ⟨constant, held, found⟩
    split at found
    · simp only [Outcome.bind_eq_ok, Outcome.pure_eq_ok, Prod.mk.injEq] at found
      obtain ⟨_, nameRead, _, descriptorRead, rfl, rfl⟩ := found
      exact ⟨_, _, held, nameRead, descriptorRead⟩
    · simp at found
  · rintro ⟨nameSlot, descriptorSlot, held, nameRead, descriptorRead⟩
    exact ⟨_, held, by simp [nameRead, descriptorRead]⟩

/-- Every text and every pair of the first pool stands in the same slot of the second. -/
def KeepsNames (pool after : ConstantPool) : Prop :=
  ∀ index constant, constant.isName → pool.constant? index = some constant →
    after.constant? index = some constant

namespace KeepsNames

theorem refl (pool : ConstantPool) : pool.KeepsNames pool := fun _ _ _ held => held

theorem trans (first : pool.KeepsNames between) (second : between.KeepsNames after) : pool.KeepsNames after :=
  fun index constant name held => second index constant name (first index constant name held)

theorem text (keeps : pool.KeepsNames after) (found : pool.text index = .ok spelled) :
    after.text index = .ok spelled := by
  obtain ⟨bytes, held, decoded⟩ := text_eq_ok.mp found
  exact text_eq_ok.mpr ⟨bytes, keeps _ _ rfl held, decoded⟩

theorem nameAndType (keeps : pool.KeepsNames after) (found : pool.nameAndType index = .ok (name, descriptor)) :
    after.nameAndType index = .ok (name, descriptor) := by
  obtain ⟨nameSlot, descriptorSlot, held, nameRead, descriptorRead⟩ := nameAndType_eq_ok.mp found
  exact nameAndType_eq_ok.mpr
    ⟨nameSlot, descriptorSlot, keeps _ _ rfl held, keeps.text nameRead, keeps.text descriptorRead⟩

end KeepsNames

end resolution

/-- `after` is `pool` with some texts and pairs after its last slot, and as well formed as `pool`. -/
structure Grown (pool after : ConstantPool) : Prop where
  wellFormed : pool.WellFormed → after.WellFormed
  slots : ∃ added : List Constant, (∀ constant ∈ added, constant.isName) ∧
    after.slots.toList = pool.slots.toList ++ added.map some

namespace Grown

theorem refl (pool : ConstantPool) : pool.Grown pool := ⟨id, [], by simp, by simp⟩

theorem trans (first : pool.Grown between) (second : between.Grown after) : pool.Grown after := by
  obtain ⟨earlier, earlierNames, earlierSlots⟩ := first.slots
  obtain ⟨later, laterNames, laterSlots⟩ := second.slots
  refine ⟨second.wellFormed ∘ first.wellFormed, earlier ++ later, ?_, ?_⟩
  · intro constant added
    exact (mem_append.mp added).elim (earlierNames constant) (laterNames constant)
  · rw [laterSlots, earlierSlots, map_append, append_assoc]

theorem constant? (grown : pool.Grown after) (held : pool.constant? index = some constant) :
    after.constant? index = some constant := by
  obtain ⟨added, -, slots⟩ := grown.slots
  exact constant?_of_append slots held

theorem keepsNames (grown : pool.Grown after) : pool.KeepsNames after :=
  fun _ _ _ held => grown.constant? held

end Grown

theorem put_cases (given : (put constant).Gives pool index after) : pool.known? constant = some index ∧ after = pool ∨
      pool.count + constant.slots ≤ 65535 ∧ index.toNat = pool.count ∧
        after = { slots := appendSlots pool.slots constant
                  register := pool.register.insert constant.key index } := by
  unfold put PoolM.Gives at given
  beta_reduce at given
  split at given
  case h_1 known found =>
    cases given
    exact .inl ⟨found, rfl⟩
  case h_2 =>
    split at given
    case isTrue => cases given
    case isFalse =>
      split at given
      case isTrue => cases given
      case isFalse room =>
        cases given
        have fits : pool.count < 65536 := by omega
        exact .inr ⟨by omega, by simp [Nat.toUInt16, fits], rfl⟩

theorem put_holds (registered : pool.Registered) (given : (put constant).Gives pool index after) :
    after.constant? index = some constant := by
  rcases put_cases given with ⟨found, rfl⟩ | ⟨-, place, rfl⟩
  · exact registered constant index found
  · exact constant?_appendSlots place

theorem put_registered (registered : pool.Registered) (given : (put constant).Gives pool index after) :
    after.Registered := by
  rcases put_cases given with ⟨-, rfl⟩ | ⟨-, place, rfl⟩
  · exact registered
  · intro other known found
    rw [known?, Std.TreeMap.getElem?_insert] at found
    split at found
    case isTrue same =>
      have equal : constant.key = other.key := Std.LawfulEqCmp.eq_of_compare same
      obtain rfl := key_injective equal
      obtain rfl := Option.some.inj found
      exact constant?_appendSlots place
    case isFalse => exact constant?_of_append (toList_appendSlots _ _) (registered other known found)

theorem put_wellFormed (wellFormed : pool.WellFormed) (given : (put constant).Gives pool index after) :
    after.WellFormed := by
  have registered : after.Registered := put_registered wellFormed.registered given
  rcases put_cases given with ⟨-, rfl⟩ | ⟨room, -, rfl⟩
  · exact wellFormed
  · obtain ⟨constants, laidOut⟩ := wellFormed.laidOut
    refine ⟨⟨constants ++ [constant], ?_⟩, ?_, registered⟩
    · rw [LaidOut, toList_appendSlots, laidOut]
      simp
    · rw [count, size_appendSlots]
      exact room

theorem put_grown (name : constant.isName) (given : (put constant).Gives pool index after) : pool.Grown after := by
  refine ⟨fun wellFormed => put_wellFormed wellFormed given, ?_⟩
  rcases put_cases given with ⟨-, rfl⟩ | ⟨-, -, rfl⟩
  · exact ⟨[], by simp, by simp⟩
  · have narrow : constant.slotList = [some constant] := by
      cases constant <;> simp_all [isName, slotList, isWide]
    exact ⟨[constant], by simpa using name, by simp [narrow]⟩

theorem replace_cases (given : (replace index new).Gives pool () after) :
    ∃ old, pool.constant? index = some old ∧ old.isWide = new.isWide ∧ (old = new ∧ after = pool ∨ old ≠ new ∧
        after = { slots := pool.slots.setIfInBounds index.toNat (some new)
                  register := (if pool.known? old = some index then pool.register.erase old.key
                    else pool.register).insertIfNew new.key index }) := by
  unfold replace PoolM.Gives at given
  beta_reduce at given
  split at given
  case h_1 => cases given
  case h_2 => cases given
  case h_3 old found =>
    have held : pool.constant? index = some old := by simp [constant?, found]
    split at given
    case isTrue => cases given
    case isFalse widths =>
      have width : old.isWide = new.isWide := by simpa using widths
      split at given
      case isTrue same =>
        cases given
        exact ⟨old, held, width, .inl ⟨same, rfl⟩⟩
      case isFalse different =>
        cases given
        exact ⟨old, held, width, .inr ⟨different, rfl⟩⟩

theorem replace_holds (given : (replace index new).Gives pool () after) : after.constant? index = some new := by
  obtain ⟨old, held, -, ⟨rfl, rfl⟩ | ⟨-, rfl⟩⟩ := replace_cases given
  · exact held
  · rw [constant?_eq_some] at held ⊢
    obtain ⟨inside, -⟩ := List.getElem?_eq_some_iff.mp held
    rw [Array.toList_setIfInBounds, getElem?_set_self inside]

theorem replace_others (given : (replace index new).Gives pool () after) {other : UInt16}
    (different : index ≠ other) : after.constant? other = pool.constant? other := by
  obtain ⟨old, -, -, ⟨-, rfl⟩ | ⟨-, rfl⟩⟩ := replace_cases given
  · rfl
  · have places : index.toNat ≠ other.toNat := fun same => different (UInt16.toNat_inj.mp same)
    simp only [constant?, Array.getElem?_setIfInBounds_ne places]

theorem replace_count (given : (replace index new).Gives pool () after) : after.count = pool.count := by
  obtain ⟨old, -, -, ⟨-, rfl⟩ | ⟨-, rfl⟩⟩ := replace_cases given
  · rfl
  · simp [count]

theorem set_slotList (width : old.isWide = new.isWide) {place : Nat}
    (held : first.slotList[place]? = some (some old)) : first.slotList.set place (some new) = new.slotList := by
  obtain ⟨rfl, rfl⟩ : place = 0 ∧ first = old := by
    cases wide : first.isWide <;> rcases place with _ | _ | place <;> simp_all [slotList]
  cases wide : first.isWide <;> simp [slotList, ← width, wide]

theorem flatMap_slotList_set (width : old.isWide = new.isWide) (constants : List Constant)
    (place : Nat) (held : (constants.flatMap slotList)[place]? = some (some old)) :
    ∃ changed : List Constant, (constants.flatMap slotList).set place (some new) = changed.flatMap slotList := by
  induction constants generalizing place with
  | nil => simp at held
  | cons first others ih =>
    rw [flatMap_cons] at held ⊢
    by_cases early : place < first.slotList.length
    · rw [getElem?_append_left early] at held
      refine ⟨new :: others, ?_⟩
      rw [set_append_left _ _ early, set_slotList width held, flatMap_cons]
    · rw [getElem?_append_right (Nat.le_of_not_lt early)] at held
      obtain ⟨changed, same⟩ := ih _ held
      refine ⟨first :: changed, ?_⟩
      rw [set_append_right _ _ (Nat.le_of_not_lt early), same, flatMap_cons]

/-- The register stays right when a constant is replaced. -/
theorem replace_registered (registered : pool.Registered) (given : (replace index new).Gives pool () after) :
    after.Registered := by
  have holds : after.constant? index = some new := replace_holds given
  have others (other : UInt16) (different : index ≠ other) :
      after.constant? other = pool.constant? other := replace_others given different
  obtain ⟨old, held, -, ⟨-, rfl⟩ | ⟨-, rfl⟩⟩ := replace_cases given
  · exact registered
  intro constant known found
  rcases known?_insertIfNew found with ⟨rfl, rfl⟩ | before
  · exact holds
  -- The register forgot the old constant if it had this very slot for it.
  · have remembered : pool.known? constant = some known ∧ (known = index → constant ≠ old) := by
      split at before
      case isTrue forgets =>
        rw [Std.TreeMap.getElem?_erase] at before
        split at before
        case isTrue => cases before
        case isFalse distinct =>
          refine ⟨before, fun _ same => distinct ?_⟩
          rw [same]
          exact Std.ReflCmp.compare_self
      case isFalse remembers =>
        refine ⟨before, fun place same => remembers ?_⟩
        rw [← same, ← place]
        exact before
    have was : pool.constant? known = some constant := registered _ _ remembered.1
    have different : index ≠ known := by
      rintro rfl
      exact remembered.2 rfl (Option.mem_unique was held)
    rw [others known different, was]

theorem replace_wellFormed (wellFormed : pool.WellFormed) (given : (replace index new).Gives pool () after) :
    after.WellFormed := by
  have registered : after.Registered := replace_registered wellFormed.registered given
  obtain ⟨old, held, width, ⟨-, rfl⟩ | ⟨-, rfl⟩⟩ := replace_cases given
  · exact wellFormed
  · refine ⟨?_, by simpa [count] using wellFormed.bounded, registered⟩
    obtain ⟨constants, laidOut⟩ := wellFormed.laidOut
    rw [constant?_eq_some, laidOut] at held
    cases place : index.toNat with
    | zero => simp [place] at held
    | succ previous =>
      rw [place, getElem?_cons_succ] at held
      obtain ⟨changed, same⟩ := flatMap_slotList_set width constants previous held
      refine ⟨changed, ?_⟩
      rw [LaidOut, Array.toList_setIfInBounds, laidOut, set_cons_succ, same]

end ConstantPool

theorem ClassFile.read_wellFormed {bytes : Bytes} {file : ClassFile} (parsed : read bytes = .ok file) :
    file.pool.WellFormed := by
  have taken := read_eq_ok.mp parsed
  simp only [reader, bind_eq_ok, u32_eq_ok] at taken
  obtain ⟨found, _, -, taken⟩ := taken
  split at taken
  case isTrue => simp at taken
  case isFalse =>
    simp only [bind_eq_ok, pure_eq_ok] at taken
    obtain ⟨_, _, -, _, _, -, pool, _, takenPool, _, _, -, _, _, -, _, _, -, _, _, -, _, _, -, _, _, -,
      _, _, -, rfl, -⟩ := taken
    exact ConstantPool.read_wellFormed takenPool

end JarRemap
