import JarRemap.Proofs.BuiltFiles
import JarRemap.Proofs.SlotCounter

/-!
# Pools after any history

A pool starts empty or is read, and is then changed by any number of operations, some of which may fail.
After every such history the empty slots are the first one and those behind wide constants, and the register is
right about every slot it knows. But it may forget a constant that is replaced in one slot while another one holds
it, and then a copy is added.
-/
namespace JarRemap

open List ConstantPool Constant

variable {register : Std.TreeMap (List Nat) UInt16} {new : Constant} {slots : Array (Option Constant)}

namespace Constant

theorem isWide_iff {constant : Constant} :
    constant.isWide ↔ ∃ bits, constant = .long bits ∨ constant = .double bits := by
  cases constant <;> simp [isWide]

/-- In a row of constants a slot is empty exactly if the slot before it holds a wide constant. What stands
before the row is not wide. -/
theorem slotList_gap (constants : List Constant) {before : Option Constant}
    (narrow : ∀ constant, before = some constant → ¬ constant.isWide) (place : Nat) :
    (constants.flatMap slotList)[place]? = some none ↔
      ∃ wide, (before :: constants.flatMap slotList)[place]? = some (some wide) ∧ wide.isWide := by
  induction constants generalizing before place with
  | nil =>
    cases place with
    | zero => simpa using narrow
    | succ place => simp
  | cons constant others ih =>
    rw [flatMap_cons]
    cases wide : constant.isWide with
    | false =>
      have single : constant.slotList = [some constant] := by simp [slotList, wide]
      rw [single, singleton_append]
      cases place with
      | zero => simpa using narrow
      | succ place =>
        rw [getElem?_cons_succ, getElem?_cons_succ]
        exact ih (by rintro _ ⟨⟩; simp [wide]) place
    | true =>
      have double : constant.slotList = [some constant, none] := by simp [slotList, wide]
      rw [double, cons_append, singleton_append]
      rcases place with _ | _ | place
      · simpa using narrow
      · simp [wide]
      · simp only [getElem?_cons_succ]
        exact ih (by simp) place

end Constant

namespace ConstantPool

variable {pool after : ConstantPool} {constant : Constant} {index : UInt16}

/-- The pool started empty or was read, and was changed any number of times since. -/
inductive Built : ConstantPool → Prop
  | empty : Built .empty
  | read {input rest : Bytes} {pool : ConstantPool} (taken : read input = .ok (pool, rest)) :
    Built pool
  | edited {pool : ConstantPool} (built : Built pool) (edit : PoolEdit) : Built (edit.apply pool)

theorem Built.history (built : pool.Built) (edits : List PoolEdit) : (edits.foldl PoolEdit.apply pool).Built := by
  induction edits generalizing pool with
  | nil => exact built
  | cons edit edits ih => exact ih (built.edited edit)

/-- What holds of pools without a history and is kept by putting and replacing holds after any history. -/
theorem Built.keeps {Holds : ConstantPool → Prop} (empty : Holds .empty)
    (read : ∀ {input rest pool}, ConstantPool.read input = .ok (pool, rest) → Holds pool)
    (putKeeps : ∀ {pool constant index after}, Holds pool → (put constant).Gives pool index after → Holds after)
    (replaceKeeps : ∀ {pool new index after}, Holds pool → (replace index new).Gives pool () after → Holds after)
    (built : pool.Built) : Holds pool := by
  induction built with
  | empty => exact empty
  | read taken => exact read taken
  | edited built edit ih => exact edit.apply_keeps putKeeps replaceKeeps ih

/-- The slot holds a constant that takes two slots. -/
def WideAt (pool : ConstantPool) (place : Nat) : Prop :=
  ∃ bits, pool.slots[place]? = some (some (.long bits)) ∨ pool.slots[place]? = some (some (.double bits))

/-- What a pool keeps to. The slot behind a wide constant is there, and no other slot but the first is
empty. Everything in the register is the key of a constant, with a slot that holds it. -/
structure Regular (pool : ConstantPool) : Prop where
  first : pool.slots[0]? = some none
  gaps : ∀ place, pool.slots[place + 1]? = some none ↔ pool.WideAt place
  bounded : pool.count ≤ 65535
  registered : ∀ key index, pool.register[key]? = some index →
    ∃ constant : Constant, constant.key = key ∧ pool.get index = .ok constant

theorem wideAt_iff {place : Nat} : pool.WideAt place ↔ ∃ wide, pool.slots[place]? = some (some wide) ∧ wide.isWide := by
  simp only [WideAt, isWide_iff]
  constructor
  · rintro ⟨bits, held | held⟩
    · exact ⟨_, held, bits, .inl rfl⟩
    · exact ⟨_, held, bits, .inr rfl⟩
  · rintro ⟨_, held, bits, rfl | rfl⟩
    · exact ⟨bits, .inl held⟩
    · exact ⟨bits, .inr held⟩

/-- Every key of the register is that of a constant. -/
def Keyed (pool : ConstantPool) : Prop :=
  ∀ key index, pool.register[key]? = some index → ∃ constant : Constant, constant.key = key

theorem Keyed.insertIfNew (keyed : ∀ key index, register[key]? = some index → ∃ constant : Constant, constant.key = key)
    (new : Constant) (index : UInt16) : Keyed { slots, register := register.insertIfNew new.key index } := by
  intro key known found
  rw [Std.TreeMap.getElem?_insertIfNew] at found
  split at found
  case isTrue same => exact ⟨new, Std.LawfulEqCmp.eq_of_compare same.1⟩
  case isFalse => exact keyed key known found

theorem put_keyed (keyed : pool.Keyed) (given : (put constant).Gives pool index after) : after.Keyed := by
  rcases put_cases given with ⟨-, rfl⟩ | ⟨-, -, rfl⟩
  · exact keyed
  · intro key known found
    rw [Std.TreeMap.getElem?_insert] at found
    split at found
    case isTrue same => exact ⟨constant, Std.LawfulEqCmp.eq_of_compare same⟩
    case isFalse => exact keyed key known found

theorem replace_keyed (keyed : pool.Keyed) (given : (replace index new).Gives pool () after) : after.Keyed := by
  obtain ⟨old, -, -, ⟨-, rfl⟩ | ⟨-, rfl⟩⟩ := replace_cases given
  · exact keyed
  · refine Keyed.insertIfNew (fun key known found => ?_) new index
    split at found
    · rw [Std.TreeMap.getElem?_erase] at found
      split at found
      · cases found
      · exact keyed key known found
    · exact keyed key known found

theorem empty_keyed : empty.Keyed := by
  intro key index found
  simp [empty] at found

theorem Built.keyed (built : pool.Built) : pool.Keyed :=
  built.keeps empty_keyed (fun taken => PoolReading.read_keeps empty_keyed
    (fun _ constant _ keyed => Keyed.insertIfNew keyed constant _) taken) put_keyed replace_keyed

theorem Built.wellFormed (built : pool.Built) : pool.WellFormed :=
  built.keeps empty_wellFormed read_wellFormed put_wellFormed replace_wellFormed

theorem Built.regular (built : pool.Built) : pool.Regular := by
  obtain ⟨⟨constants, laidOut⟩, bounded, registered⟩ := built.wellFormed
  have slots (place : Nat) : pool.slots[place]? = (none :: constants.flatMap slotList)[place]? := by
    rw [← Array.getElem?_toList, laidOut]
  refine ⟨slots 0, fun place => ?_, bounded, fun key index found => ?_⟩
  · rw [wideAt_iff, slots, slots, getElem?_cons_succ]
    exact slotList_gap constants (by simp) place
  · obtain ⟨constant, rfl⟩ := built.keyed key index found
    exact ⟨constant, rfl, get_eq_ok.mpr (registered constant index found)⟩

theorem put_known (known : pool.known? constant = some index) : (put constant).Gives pool index pool := by
  simp [PoolM.Gives, put, known]

theorem put_succeeds : (∃ index after, (put constant).Gives pool index after) ↔
      (∃ known, pool.known? constant = some known) ∨ pool.count + constant.slots ≤ 65535 := by
  constructor
  · rintro ⟨index, after, given⟩
    rcases put_cases given with ⟨known, -⟩ | ⟨room, -, -⟩
    · exact .inl ⟨index, known⟩
    · exact .inr room
  · intro able
    cases found : pool.known? constant with
    | some known => exact ⟨known, pool, put_known found⟩
    | none =>
      have room : pool.count + constant.slots ≤ 65535 := by simpa [found] using able
      have counted : ¬ pool.count > 65535 := by omega
      simp only [PoolM.Gives, put, found, counted, gt_iff_lt, Nat.not_lt.mpr room, if_false]
      exact ⟨_, _, rfl⟩

theorem put_others (given : (put constant).Gives pool index after) {place : Nat}
    (inside : place < pool.count) : after.slots[place]? = pool.slots[place]? := by
  rcases put_cases given with ⟨-, rfl⟩ | ⟨-, -, rfl⟩
  · rfl
  · rw [← Array.getElem?_toList, toList_appendSlots, getElem?_append_left
      (Array.length_toList.symm ▸ inside), Array.getElem?_toList]

theorem replace_succeeds : (∃ after, (replace index new).Gives pool () after) ↔
      ∃ old, pool.constant? index = some old ∧ old.isWide = new.isWide := by
  constructor
  · rintro ⟨after, given⟩
    obtain ⟨old, held, width, -⟩ := replace_cases given
    exact ⟨old, held, width⟩
  · rintro ⟨old, held, width⟩
    have slot : pool.slots[index.toNat]? = some (some old) := by
      rw [← Array.getElem?_toList, constant?_eq_some.mp held]
    simp only [PoolM.Gives, replace, slot, width]
    split
    · simp_all
    · split
      · exact ⟨pool, rfl⟩
      · exact ⟨_, rfl⟩

theorem replace_slots (given : (replace index new).Gives pool () after) : after.slots[index.toNat]? = some (some new) ∧
      ∀ place, place ≠ index.toNat → after.slots[place]? = pool.slots[place]? := by
  constructor
  · rw [← Array.getElem?_toList]
    exact constant?_eq_some.mp (replace_holds given)
  · intro place different
    obtain ⟨old, -, -, ⟨-, rfl⟩ | ⟨-, rfl⟩⟩ := replace_cases given
    · rfl
    · exact Array.getElem?_setIfInBounds_ne different.symm

/-- The pool after any history of operations, some of which may have failed.

It is regular. A constant that is put stands in the slot that is given for it, and all slots before stay;
this succeeds exactly if the constant is known or its slots can still be counted. A replacement changes its
own slot only, and succeeds exactly if the slot holds a constant of the same width. An operation of either
kind that fails leaves the pool as it was. -/
theorem operations_keep_regular (built : pool.Built) :
    pool.Regular ∧
    (∀ constant,
      ((∃ index after, (put constant).Gives pool index after) ↔
        (∃ known, pool.known? constant = some known) ∨ pool.count + constant.slots ≤ 65535) ∧
      (∀ index after, (put constant).Gives pool index after →
        after.Regular ∧ after.get index = .ok constant ∧
          ∀ place < pool.count, after.slots[place]? = pool.slots[place]?) ∧
      ∀ failure after, put constant pool = (.error failure, after) → after = pool) ∧
    ∀ index new,
      ((∃ after, (replace index new).Gives pool () after) ↔
        ∃ old, pool.get index = .ok old ∧ old.isWide = new.isWide) ∧
      (∀ after, (replace index new).Gives pool () after →
        after.Regular ∧ after.slots[index.toNat]? = some (some new) ∧
          ∀ place, place ≠ index.toNat → after.slots[place]? = pool.slots[place]?) ∧
      ∀ failure after, replace index new pool = (.error failure, after) → after = pool := by
  refine ⟨built.regular, fun constant => ⟨put_succeeds, ?_, fun _ _ => put_failed⟩, fun index new =>
    ⟨?_, ?_, fun _ _ => replace_failed⟩⟩
  · intro index after given
    have same : (PoolEdit.put constant).apply pool = after := congrArg Prod.snd given
    refine ⟨same ▸ (built.edited (.put constant)).regular, ?_, fun place => put_others given⟩
    exact get_eq_ok.mpr (put_holds built.wellFormed.registered given)
  · simp only [get_eq_ok]
    exact replace_succeeds
  · intro after given
    have same : (PoolEdit.replace index new).apply pool = after := congrArg Prod.snd given
    exact ⟨same ▸ (built.edited (.replace index new)).regular, replace_slots given⟩

/-- A wide constant is put and then replaced, a narrow one does not fit its slot, and a reference to a class
is put with all that it needs. -/
def wideHistory : List PoolEdit := [.put (.long 9), .replace 1 (.double 9), .replace 1 (.string 3),
  .putMember .fieldRef "A" "f" "I"]

theorem operations_keep_regular_wideHistory :
    (wideHistory.foldl PoolEdit.apply .empty).Built ∧
    (wideHistory.foldl PoolEdit.apply .empty).Regular ∧
    (wideHistory.foldl PoolEdit.apply .empty).count = 9 ∧
    (∃ index after, (put (.long 7)).Gives (wideHistory.foldl PoolEdit.apply .empty) index after ∧
      after.Regular ∧ after.get index = .ok (.long 7)) ∧
    ∃ after, (replace 3 (.string 1)).Gives (wideHistory.foldl PoolEdit.apply .empty) () after ∧
      after.Regular ∧ after.slots[3]? = some (some (.string 1)) := by
  have built : (wideHistory.foldl PoolEdit.apply .empty).Built := Built.empty.history _
  have facts : (wideHistory.foldl PoolEdit.apply .empty).count = 9 ∧
      (wideHistory.foldl PoolEdit.apply .empty).constant? 3 = some (.utf8 [65]) := by decide +kernel
  obtain ⟨regular, puts, replaces⟩ := operations_keep_regular built
  obtain ⟨index, after, given⟩ := (puts (.long 7)).1.mpr (.inr (by rw [facts.1]; decide))
  obtain ⟨changed, replaced⟩ :=
    (replaces 3 (.string 1)).1.mpr ⟨.utf8 [65], get_eq_ok.mpr facts.2, rfl⟩
  obtain ⟨putRegular, held, -⟩ := (puts (.long 7)).2.1 index after given
  obtain ⟨replacedRegular, slot, -⟩ := (replaces 3 (.string 1)).2.1 changed replaced
  exact ⟨built, regular, facts.1, ⟨index, after, given, putRegular, held⟩, changed, replaced,
    replacedRegular, slot⟩

end ConstantPool

/-- A replacement that takes a constant from the slot that the register has for it, while the same constant
stands in another slot. The operations that only put constants never do this. -/
def PoolEdit.Forgets (pool : ConstantPool) : PoolEdit → Prop
  | .replace index new => ∃ old other, pool.constant? index = some old ∧ old.isWide = new.isWide ∧
    old ≠ new ∧ pool.known? old = some index ∧ other ≠ index ∧ pool.constant? other = some old
  | _ => False

namespace ConstantPool

variable {pool after : ConstantPool} {constant : Constant} {index : UInt16}

/-- Putting what a slot holds gives a slot that holds it and adds nothing. -/
def Reuses (pool : ConstantPool) : Prop :=
  ∀ constant index, pool.constant? index = some constant → ∃ known after,
    (put constant).Gives pool known after ∧ after.get known = .ok constant ∧ after.count = pool.count

/-- The register knows a slot for everything that is held. -/
def Complete (pool : ConstantPool) : Prop :=
  ∀ constant index, pool.constant? index = some constant → ∃ known, pool.known? constant = some known

theorem exists_known? : (∃ known, pool.known? constant = some known) ↔ constant.key ∈ pool.register := by
  rw [known?, ← Option.isSome_iff_exists, Std.TreeMap.mem_iff_isSome_getElem?]

theorem reuses_iff_complete (wellFormed : pool.WellFormed) : pool.Reuses ↔ pool.Complete := by
  constructor
  · intro reuses constant index held
    obtain ⟨known, after, given, -, same⟩ := reuses constant index held
    rcases put_cases given with ⟨found, -⟩ | ⟨-, -, rfl⟩
    · exact ⟨known, found⟩
    · rw [count, size_appendSlots, count] at same
      split at same <;> omega
  · intro complete constant index held
    obtain ⟨known, found⟩ := complete constant index held
    exact ⟨known, pool, put_known found, get_eq_ok.mpr (wellFormed.registered _ _ found), rfl⟩

theorem held_of_appendSlots {held : Constant}
    (found : ({ slots := appendSlots pool.slots constant, register } : ConstantPool).constant? index = some held) :
    pool.constant? index = some held ∨ held = constant := by
  rw [constant?_eq_some, toList_appendSlots, getElem?_append] at found
  split at found
  · exact .inl (constant?_eq_some.mpr found)
  · have listed : some held ∈ constant.slotList := mem_of_getElem? found
    right
    cases wide : constant.isWide <;> simpa [slotList, wide] using listed

theorem Complete.appendSlots (complete : pool.Complete) (new : constant.key ∈ register)
    (kept : ∀ key, key ∈ pool.register → key ∈ register) :
    Complete { slots := appendSlots pool.slots constant, register } := by
  intro held index found
  rw [exists_known?]
  rcases held_of_appendSlots found with before | rfl
  · exact kept _ (exists_known?.mp (complete held index before))
  · exact new

theorem put_complete (complete : pool.Complete) (given : (put constant).Gives pool index after) : after.Complete := by
  rcases put_cases given with ⟨-, rfl⟩ | ⟨-, -, rfl⟩
  · exact complete
  · exact complete.appendSlots (by simp) fun key listed => by simp [listed]

theorem empty_complete : empty.Complete := by
  intro constant index held
  have : index.toNat ≠ 0 := by
    intro zero
    simp [constant?, empty, zero] at held
  simp [constant?, empty, this] at held

theorem read_complete {input rest : Bytes} (taken : read input = .ok (pool, rest)) : pool.Complete :=
  PoolReading.read_keeps empty_complete (fun _ _ _ complete =>
    complete.appendSlots (by simp) fun key listed => by simp [listed]) taken

/-- A replacement makes the register forget at most the old constant, and that only if it had this slot. -/
theorem exists_known?_replaced {old : Constant} :
    (∃ known, ({ slots, register := (if pool.known? old = some index then pool.register.erase old.key
        else pool.register).insertIfNew new.key index } : ConstantPool).known? constant = some known) ↔
      constant = new ∨ (∃ known, pool.known? constant = some known) ∧
        ¬ (constant = old ∧ pool.known? old = some index) := by
  have same (other : Constant) : compare other.key constant.key = .eq ↔ constant = other := by
    rw [Std.LawfulEqCmp.compare_eq_iff_eq]
    exact ⟨fun equal => (key_injective equal).symm, fun equal => equal ▸ rfl⟩
  rw [exists_known?, exists_known?, Std.TreeMap.mem_insertIfNew, same]
  split
  case isTrue forgets =>
    rw [Std.TreeMap.mem_erase, ne_eq, same]
    tauto
  case isFalse remembers => tauto

/-- A replacement leaves a register that misses nothing exactly if it does not forget a constant that is
still held. -/
theorem replace_complete_iff (complete : pool.Complete) (given : (replace index new).Gives pool () after) :
    after.Complete ↔ ¬ (PoolEdit.replace index new).Forgets pool := by
  have holds : after.constant? index = some new := replace_holds given
  have others (other : UInt16) (different : other ≠ index) :
      after.constant? other = pool.constant? other := replace_others given different.symm
  obtain ⟨old, held, width, ⟨same, rfl⟩ | ⟨different, rfl⟩⟩ := replace_cases given
  · refine iff_of_true complete ?_
    rintro ⟨_, _, was, -, changes, -⟩
    exact changes (Option.mem_unique was holds)
  · constructor
    · rintro completeAfter ⟨_, other, was, -, -, known, elsewhere, copy⟩
      obtain rfl := Option.mem_unique held was
      have still := completeAfter old other ((others other elsewhere).trans copy)
      rcases exists_known?_replaced.mp still with rfl | ⟨-, remembered⟩
      · exact different rfl
      · exact remembered ⟨rfl, known⟩
    · intro remembers constant place found
      apply exists_known?_replaced.mpr
      by_cases here : place = index
      · subst here
        exact .inl (Option.mem_unique found holds)
      · have before : pool.constant? place = some constant := (others place here).symm.trans found
        refine .inr ⟨complete constant place before, ?_⟩
        rintro ⟨rfl, known⟩
        exact remembers ⟨constant, place, held, width, different, known, here, before⟩

theorem apply_complete_iff (complete : pool.Complete) (edit : PoolEdit) :
    (edit.apply pool).Complete ↔ ¬ edit.Forgets pool := by
  by_cases forgets : edit.Forgets pool
  · cases edit with
    | replace index new =>
      obtain ⟨old, -, held, width, -⟩ := forgets
      obtain ⟨changed, given⟩ := replace_succeeds.mpr ⟨old, held, width⟩
      have same : (PoolEdit.replace index new).apply pool = changed := congrArg Prod.snd given
      exact same ▸ replace_complete_iff complete given
    | _ => exact forgets.elim
  · rcases edit.apply_cases pool with puts | ⟨index, new, rfl, given⟩
    · exact iff_of_true (keeps_of_puts put_complete puts complete) forgets
    · exact replace_complete_iff complete given

/-- The pool was built by operations none of which made the register forget something that is held. -/
inductive Remembering : ConstantPool → Prop
  | empty : Remembering .empty
  | read {input rest : Bytes} {pool : ConstantPool} (taken : read input = .ok (pool, rest)) :
    Remembering pool
  | edited {pool : ConstantPool} (remembering : Remembering pool) (edit : PoolEdit)
    (remembers : ¬ edit.Forgets pool) : Remembering (edit.apply pool)

theorem Remembering.complete (remembering : pool.Remembering) : pool.Complete := by
  induction remembering with
  | empty => exact empty_complete
  | read taken => exact read_complete taken
  | edited _ edit remembers ih =>
    exact (apply_complete_iff ih edit).mpr remembers

/-- When putting a constant that is held adds nothing.

After any history of operations none of which forgot, putting what a slot holds gives a slot that holds it
and adds nothing. And whatever the history, as long as the pool does this, it goes on doing it after one
more operation exactly if that operation does not forget. -/
theorem put_reuses_held (built : pool.Built) :
    (pool.Remembering → pool.Reuses) ∧
      (pool.Reuses → ∀ edit : PoolEdit, (edit.apply pool).Reuses ↔ ¬ edit.Forgets pool) := by
  have wellFormed : pool.WellFormed := built.wellFormed
  refine ⟨fun remembering => (reuses_iff_complete wellFormed).mpr remembering.complete, ?_⟩
  intro reuses edit
  rw [reuses_iff_complete (built.edited edit).wellFormed]
  exact apply_complete_iff ((reuses_iff_complete wellFormed).mp reuses) edit

/-- A pool with the same string twice. -/
def copiedString : Bytes := [0, 3, 8, 0, 0, 8, 0, 0]

/-- Its second copy can be replaced, but not the first one, which the register knows. -/
theorem put_reuses_held_copiedString :
    ∃ pool, read copiedString = .ok (pool, []) ∧ pool.Reuses ∧
      ((PoolEdit.replace 2 (.string 5)).apply pool).Reuses ∧
      ¬ ((PoolEdit.replace 1 (.string 5)).apply pool).Reuses := by
  have run : (read copiedString).isOk := by decide +kernel
  obtain ⟨⟨pool, rest⟩, taken⟩ := Outcome.exists_of_isOk run
  have facts : ((read copiedString).map fun taken => (taken.2, taken.1.constant? 1, taken.1.constant? 2,
      taken.1.known? (.string 0))).toOption =
        some ([], some (.string 0), some (.string 0), some 1) := by decide +kernel
  rw [taken] at facts
  obtain ⟨rfl, first, second, known⟩ : rest = [] ∧ pool.constant? 1 = some (.string 0) ∧
      pool.constant? 2 = some (.string 0) ∧ pool.known? (.string 0) = some 1 := by
    simpa [Except.map, Except.toOption] using facts
  have reuses : pool.Reuses := (put_reuses_held (.read taken)).1 (.read taken)
  have step := (put_reuses_held (.read taken)).2 reuses
  refine ⟨pool, taken, reuses, (step _).mpr ?_, fun still => (step _).mp still ?_⟩
  · rintro ⟨old, _, held, -, -, here, -⟩
    obtain rfl := Option.some.inj (second.symm.trans held)
    exact absurd (known.symm.trans here) (by decide)
  · exact ⟨.string 0, 2, first, rfl, by decide, known, by decide, second⟩

/-- Two classes are renamed, the first to a new name and the second to the old name of the first, and the
second is renamed before the first. -/
def swappedClasses : ConstantPool :=
  [PoolEdit.putClass "A", .putClass "java/lang/Object", .putClass "B", .putText "C",
    .replace 6 (.classRef 1), .replace 2 (.classRef 7)].foldl PoolEdit.apply .empty

/-- The class that is held in slot 6 is added once more. -/
theorem swappedClasses_grow :
    swappedClasses.Built ∧ swappedClasses.constant? 6 = some (.classRef 1) ∧
      ¬ ∃ known after, (put (.classRef 1)).Gives swappedClasses known after ∧
        after.get known = .ok (.classRef 1) ∧ after.count = swappedClasses.count := by
  have facts : swappedClasses.constant? 6 = some (.classRef 1) ∧ swappedClasses.count = 8 ∧
      (put (.classRef 1) swappedClasses).2.count = 9 := by decide +kernel
  obtain ⟨held, small, large⟩ := facts
  refine ⟨Built.empty.history _, held, ?_⟩
  rintro ⟨known, after, given, -, same⟩
  rw [PoolM.Gives] at given
  rw [given] at large
  exact absurd (large.symm.trans (same.trans small)) (by decide)

end ConstantPool

end JarRemap
