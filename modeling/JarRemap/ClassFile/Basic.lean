import JarRemap.ClassFile.ConstantPool

/-!
# Class files

A class file keeps all its references as pool indices and all its attributes as the bytes they are stored
in. Reading loses nothing, so writing what was read gives the same bytes.
-/
namespace JarRemap

open Reader ConstantPool

structure Attribute where
  name : UInt16
  info : Bytes
deriving DecidableEq

structure Member where
  access : UInt16
  name : UInt16
  descriptor : UInt16
  attributes : List Attribute
deriving DecidableEq

/-- A class file. The super class is zero for the root of all classes and for module descriptions. -/
structure ClassFile where
  minor : UInt16
  major : UInt16
  pool : ConstantPool
  access : UInt16
  thisClass : UInt16
  superClass : UInt16
  interfaces : List UInt16
  fields : List Member
  methods : List Member
  attributes : List Attribute

namespace Attribute

def read : Reader Attribute := do
  let name ← u16
  let length ← u32
  let info ← block length.toNat
  return { name, info }

def toBytes (item : Attribute) : Outcome Bytes := do
  return u16Bytes item.name ++ (← lengthBytes32 item.info.length) ++ item.info

end Attribute

namespace Member

def read : Reader Member := do
  let access ← u16
  let name ← u16
  let descriptor ← u16
  let attributes ← list Attribute.read
  return { access, name, descriptor, attributes }

def toBytes (member : Member) : Outcome Bytes := do
  return u16Bytes member.access ++ u16Bytes member.name ++ u16Bytes member.descriptor ++
    (← listBytes Attribute.toBytes member.attributes)

def create (access : UInt16) (name descriptor : String) : PoolM Member := do
  let name ← putText name
  let descriptor ← putText descriptor
  return { access, name, descriptor, attributes := [] }

end Member

namespace ClassFile

def magic : UInt32 := 0xCAFEBABE

def reader : Reader ClassFile := do
  let found ← u32
  if found ≠ magic then fail (.badMagic found)
  else
    let minor ← u16
    let major ← u16
    let pool ← read
    let access ← u16
    let thisClass ← u16
    let superClass ← u16
    let interfaces ← list u16
    let fields ← within .readFields (list Member.read)
    let methods ← within .readMethods (list Member.read)
    let attributes ← within .readClassAttributes (list Attribute.read)
    return { minor, major, pool, access, thisClass, superClass, interfaces, fields, methods, attributes }

def read (bytes : Bytes) : Outcome ClassFile := do
  let (file, rest) ← reader bytes
  if rest.isEmpty then return file else Outcome.fail (.classTrailingBytes rest.length)

def toBytes (file : ClassFile) : Outcome Bytes := do
  let pool ← file.pool.toBytes
  let interfaces ← listBytes (fun index => .ok (u16Bytes index)) file.interfaces
  let fields ← listBytes Member.toBytes file.fields
  let methods ← listBytes Member.toBytes file.methods
  let attributes ← listBytes Attribute.toBytes file.attributes
  return u32Bytes magic ++ u16Bytes file.minor ++ u16Bytes file.major ++ pool ++
    u16Bytes file.access ++ u16Bytes file.thisClass ++ u16Bytes file.superClass ++
    interfaces ++ fields ++ methods ++ attributes

def name (file : ClassFile) : Outcome String := file.pool.className file.thisClass

def superName? (file : ClassFile) : Outcome (Option String) := file.pool.className? file.superClass

def interfaceNames (file : ClassFile) : Outcome (List String) :=
  file.interfaces.mapM file.pool.className

def findAttribute? (pool : ConstantPool) (name : String) : List Attribute → Outcome (Option Attribute)
  | [] => .ok none
  | item :: rest => do
    if (← pool.text item.name) = name then return some item
    else findAttribute? pool name rest

end ClassFile

end JarRemap
