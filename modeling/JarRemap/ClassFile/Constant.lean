import JarRemap.Text.Quoted

/-!
# Constants

A constant is one entry of the constant pool of a class file. Constants refer to each other by pool
index. The bytes of a text constant stay as they are stored; numbers keep their bits.
-/
namespace JarRemap

abbrev Bytes := List UInt8

/-- One entry of a constant pool. Every `UInt16` is the pool index of another entry, apart from
`bootstrap`, which counts the entries of the attribute that lists the bootstrap methods. -/
inductive Constant where
  | utf8 (bytes : Bytes)
  | integer (bits : UInt32)
  | float (bits : UInt32)
  | long (bits : UInt64)
  | double (bits : UInt64)
  | classRef (name : UInt16)
  | string (text : UInt16)
  | fieldRef (owner nameAndType : UInt16)
  | methodRef (owner nameAndType : UInt16)
  | interfaceMethodRef (owner nameAndType : UInt16)
  | nameAndType (name descriptor : UInt16)
  | methodHandle (kind : UInt8) (reference : UInt16)
  | methodType (descriptor : UInt16)
  | dynamic (bootstrap nameAndType : UInt16)
  | invokeDynamic (bootstrap nameAndType : UInt16)
  | moduleRef (name : UInt16)
  | packageRef (name : UInt16)
deriving DecidableEq

namespace Constant

def isWide : Constant → Bool
  | .long _ | .double _ => true
  | _ => false

def slots (constant : Constant) : Nat := if constant.isWide then 2 else 1

/-- The tag that stands before the constant in a class file. -/
def tag : Constant → UInt8
  | .utf8 _ => 1
  | .integer _ => 3
  | .float _ => 4
  | .long _ => 5
  | .double _ => 6
  | .classRef _ => 7
  | .string _ => 8
  | .fieldRef .. => 9
  | .methodRef .. => 10
  | .interfaceMethodRef .. => 11
  | .nameAndType .. => 12
  | .methodHandle .. => 15
  | .methodType _ => 16
  | .dynamic .. => 17
  | .invokeDynamic .. => 18
  | .moduleRef _ => 19
  | .packageRef _ => 20

/-- A key under which the constant can be looked up: its tag, then its parts. Different constants have
different keys. -/
def key (constant : Constant) : List Nat :=
  constant.tag.toNat :: match constant with
    | .utf8 bytes => bytes.map UInt8.toNat
    | .integer bits | .float bits => [bits.toNat]
    | .long bits | .double bits => [bits.toNat]
    | .classRef index | .string index | .methodType index | .moduleRef index | .packageRef index =>
      [index.toNat]
    | .fieldRef a b | .methodRef a b | .interfaceMethodRef a b | .nameAndType a b | .dynamic a b
    | .invokeDynamic a b => [a.toNat, b.toNat]
    | .methodHandle kind reference => [kind.toNat, reference.toNat]

def kindName : Constant → String
  | .utf8 _ => "Utf8"
  | .integer _ => "Integer"
  | .float _ => "Float"
  | .long _ => "Long"
  | .double _ => "Double"
  | .classRef _ => "Class"
  | .string _ => "String"
  | .fieldRef .. => "FieldRef"
  | .methodRef .. => "MethodRef"
  | .interfaceMethodRef .. => "InterfaceMethodRef"
  | .nameAndType .. => "NameAndType"
  | .methodHandle .. => "MethodHandle"
  | .methodType _ => "MethodType"
  | .dynamic .. => "Dynamic"
  | .invokeDynamic .. => "InvokeDynamic"
  | .moduleRef _ => "Module"
  | .packageRef _ => "Package"

/-- The parts of the constant with their names, as messages show them. -/
def shownParts : Constant → List (String × String)
  | .utf8 bytes => [("bytes", Text.bracketed (bytes.map fun b => toString b.toNat))]
  | .integer bits | .float bits => [("bytes", toString bits.toNat)]
  | .long bits | .double bits => [("bytes", toString bits.toNat)]
  | .classRef name | .moduleRef name | .packageRef name => [("name_index", toString name.toNat)]
  | .string text => [("string_index", toString text.toNat)]
  | .fieldRef owner pair | .methodRef owner pair | .interfaceMethodRef owner pair =>
    [("class_index", toString owner.toNat), ("name_and_type_index", toString pair.toNat)]
  | .nameAndType name descriptor =>
    [("name_index", toString name.toNat), ("descriptor_index", toString descriptor.toNat)]
  | .methodHandle kind target =>
    [("reference_kind", toString kind.toNat), ("reference_index", toString target.toNat)]
  | .methodType descriptor => [("descriptor_index", toString descriptor.toNat)]
  | .dynamic bootstrap pair | .invokeDynamic bootstrap pair =>
    [("bootstrap_method_attr_index", toString bootstrap.toNat),
      ("name_and_type_index", toString pair.toNat)]

def shown (constant : Constant) : String :=
  let parts := constant.shownParts.map fun (name, value) => name ++ ": " ++ value
  constant.kindName ++ " \x7b " ++ ", ".intercalate parts ++ " \x7d"

end Constant

end JarRemap
