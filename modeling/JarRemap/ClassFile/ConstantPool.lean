import JarRemap.Bytes.Reader
import JarRemap.Bytes.Writer
import JarRemap.ClassFile.ModifiedUtf8
import Std.Data.TreeMap

/-!
# The constant pool

Slots are counted from zero. The slot at zero is empty, and so is the slot after a constant that takes
two. A register remembers a slot for every constant that was put into the pool, so that putting a
constant again gives back its slot. Replacing a constant forgets the slot of the old one only if the
register had that very slot.

Putting or replacing one constant either succeeds or leaves the pool as it was. An operation of several
steps may leave the constants of its first steps behind.
-/
namespace JarRemap

open Reader

namespace Constant

def readBody (tag : UInt8) : Reader Constant :=
  match tag with
  | 1 => do
    let length ← u16
    return .utf8 (← block length.toNat)
  | 3 => return .integer (← u32)
  | 4 => return .float (← u32)
  | 5 => return .long (← u64)
  | 6 => return .double (← u64)
  | 7 => return .classRef (← u16)
  | 8 => return .string (← u16)
  | 9 => return .fieldRef (← u16) (← u16)
  | 10 => return .methodRef (← u16) (← u16)
  | 11 => return .interfaceMethodRef (← u16) (← u16)
  | 12 => return .nameAndType (← u16) (← u16)
  | 15 => return .methodHandle (← u8) (← u16)
  | 16 => return .methodType (← u16)
  | 17 => return .dynamic (← u16) (← u16)
  | 18 => return .invokeDynamic (← u16) (← u16)
  | 19 => return .moduleRef (← u16)
  | 20 => return .packageRef (← u16)
  | tag => fail (.unknownTag tag)

def read : Reader Constant := do readBody (← u8)

def bodyBytes : Constant → Outcome Bytes
  | .utf8 bytes => do return (← lengthBytes16 bytes.length) ++ bytes
  | .integer bits | .float bits => .ok (u32Bytes bits)
  | .long bits | .double bits => .ok (u64Bytes bits)
  | .classRef index | .string index | .methodType index | .moduleRef index | .packageRef index =>
    .ok (u16Bytes index)
  | .fieldRef a b | .methodRef a b | .interfaceMethodRef a b | .nameAndType a b | .dynamic a b
  | .invokeDynamic a b => .ok (u16Bytes a ++ u16Bytes b)
  | .methodHandle kind reference => .ok (u8Bytes kind ++ u16Bytes reference)

def toBytes (constant : Constant) : Outcome Bytes := do
  return constant.tag :: (← constant.bodyBytes)

end Constant

/-- The constants of a class file, with a register of known slots. -/
structure ConstantPool where
  slots : Array (Option Constant)
  register : Std.TreeMap (List Nat) UInt16

namespace ConstantPool

def empty : ConstantPool := { slots := #[none], register := ∅ }

/-- A pool without even the empty slot at zero, so that its first constant is put there. -/
def bare : ConstantPool := { slots := #[], register := ∅ }

def count (pool : ConstantPool) : Nat := pool.slots.size

def constant? (pool : ConstantPool) (index : UInt16) : Option Constant :=
  (pool.slots[index.toNat]?).join

def constants (pool : ConstantPool) : List (UInt16 × Constant) :=
  pool.slots.toList.zipIdx.filterMap fun (slot, index) => slot.map fun c => (index.toUInt16, c)

def known? (pool : ConstantPool) (constant : Constant) : Option UInt16 :=
  pool.register[constant.key]?

/-- The slots with one more constant after the last one. -/
def appendSlots (slots : Array (Option Constant)) (constant : Constant) : Array (Option Constant) :=
  if constant.isWide then (slots.push (some constant)).push none else slots.push (some constant)

/-- Reads constants while `index` is below `count`. The index is a word of sixteen bits, and reading stops
where it would run over. Every constant takes at least one byte, so `fuel` need not exceed the number of bytes. -/
def readSlots (count : UInt16) : (fuel : Nat) → UInt16 → ConstantPool → Reader ConstantPool
  | 0, index, pool =>
    if index < count then within (.poolEntry index) (fail (.endOfData 1)) else pure pool
  | fuel + 1, index, pool =>
    if index < count then do
      let constant ← within (.poolEntry index) Constant.read
      let next := index.toNat + constant.slots
      if next < 65536 then
        readSlots count fuel next.toUInt16
          { slots := appendSlots pool.slots constant
            register := pool.register.insertIfNew constant.key index }
      else fail .counterOverflow
    else pure pool

def read : Reader ConstantPool := do
  let count ← u16
  let fuel := (← get).length
  let pool ← readSlots count fuel 1 empty
  if pool.count = count.toNat then return pool else fail (.wideOverflow count)

def toBytes (pool : ConstantPool) : Outcome Bytes := do
  let length ← lengthBytes16 pool.count
  let content ← concatBytes Constant.toBytes (pool.slots.toList.filterMap id)
  return length ++ content

def get (pool : ConstantPool) (index : UInt16) : Outcome Constant :=
  match pool.constant? index with
  | some constant => .ok constant
  | none => Outcome.fail (.noConstant index pool.count)

def text (pool : ConstantPool) (index : UInt16) : Outcome String := do
  match ← pool.get index with
  | .utf8 bytes => ModifiedUtf8.decode bytes
  | constant => Outcome.fail (.notText index constant)

def className (pool : ConstantPool) (index : UInt16) : Outcome String := do
  match ← pool.get index with
  | .classRef name => Outcome.within (.nameOfClassEntry index) (pool.text name)
  | constant => Outcome.fail (.notClass index constant)

/-- The name of the class constant at an index, where index zero stands for no class. -/
def className? (pool : ConstantPool) (index : UInt16) : Outcome (Option String) :=
  if index = 0 then .ok none else some <$> pool.className index

/-- The texts of the name-and-type constant at an index. -/
def nameAndType (pool : ConstantPool) (index : UInt16) : Outcome (String × String) := do
  match ← pool.get index with
  | .nameAndType name descriptor => return (← pool.text name, ← pool.text descriptor)
  | constant => Outcome.fail (.notNameAndType index constant)

end ConstantPool

/-- An operation on a pool. What it put there stays, also when a later step fails. -/
abbrev PoolM := ExceptT Failure (StateM ConstantPool)

namespace PoolM

variable {α : Type}

def fail (cause : Cause) : PoolM α := fun pool => (Outcome.fail cause, pool)

def within (context : Context) (act : PoolM α) : PoolM α := fun pool =>
  let (outcome, after) := act pool
  (Outcome.within context outcome, after)

def ofOutcome (outcome : Outcome α) : PoolM α := fun pool => (outcome, pool)

end PoolM

namespace ConstantPool

/-- Puts another constant into a slot that holds one. Only a constant of the same width fits. -/
def replace (index : UInt16) (new : Constant) : PoolM Unit := fun pool =>
  match pool.slots[index.toNat]? with
  | none => (Outcome.fail (.indexOutOfBounds index), pool)
  | some none => (Outcome.fail (.emptySlot index), pool)
  | some (some old) =>
    if old.isWide != new.isWide then (Outcome.fail (.slotMismatch old new), pool)
    else if old = new then (.ok (), pool)
    else
      let forgets := pool.known? old = some index
      let register := if forgets then pool.register.erase old.key else pool.register
      (.ok (), { slots := pool.slots.setIfInBounds index.toNat (some new)
                 register := register.insertIfNew new.key index })

/-- The slot of a constant, which is added at the end if the register does not know it. -/
def put (constant : Constant) : PoolM UInt16 := fun pool =>
  match pool.known? constant with
  | some index => (.ok index, pool)
  | none =>
    if pool.count > 65535 then (Outcome.fail .poolFull, pool)
    else if pool.count + constant.slots > 65535 then (Outcome.fail (.poolFullFor constant), pool)
    else
      let index := pool.count.toUInt16
      (.ok index, { slots := appendSlots pool.slots constant
                    register := pool.register.insert constant.key index })

def putText (text : String) : PoolM UInt16 := put (.utf8 (ModifiedUtf8.encode text))

def putClass (name : String) : PoolM UInt16 := do put (.classRef (← putText name))

def putString (text : String) : PoolM UInt16 := do put (.string (← putText text))

def putNameAndType (name descriptor : String) : PoolM UInt16 := do
  let nameSlot ← putText name
  let descriptorSlot ← putText descriptor
  put (.nameAndType nameSlot descriptorSlot)

/-- The slot of a reference to a member of `owner`, of the kind that `refer` makes. -/
def putMember (refer : UInt16 → UInt16 → Constant) (owner name descriptor : String) :
    PoolM UInt16 := do
  let ownerSlot ← putClass owner
  let pairSlot ← putNameAndType name descriptor
  put (refer ownerSlot pairSlot)

end ConstantPool

end JarRemap
