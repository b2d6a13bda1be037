import JarRemap.ClassFile.Basic

/-!
# Building class files

Class files are built by adding to their pool and their lists. A step that fails may have added to the pool
already; it never leaves half a member or half an attribute.
-/
namespace JarRemap

open ConstantPool

abbrev BuildM := ExceptT Failure (StateM ClassFile)

namespace BuildM

variable {α : Type}

def onPool (act : PoolM α) : BuildM α := fun file =>
  let pool := file.pool
  let file := { file with pool := .empty }
  let (outcome, pool) := act pool
  (outcome, { file with pool })

end BuildM

namespace ClassFile

def rootClass : String := "java/lang/Object"

def create (major access : UInt16) (name : String) (superName : Option String) : Outcome ClassFile :=
  let slots : PoolM (UInt16 × UInt16) := do
    let thisClass ← putClass name
    let superClass ← putClass (superName.getD rootClass)
    return (thisClass, superClass)
  let (outcome, pool) := slots empty
  outcome.map fun (thisClass, superClass) =>
    { minor := 0, major, pool, access, thisClass, superClass,
      interfaces := [], fields := [], methods := [], attributes := [] }

def addInterface (name : String) : BuildM (List UInt16) := do
  let index ← BuildM.onPool (putClass name)
  modify fun file => { file with interfaces := file.interfaces ++ [index] }
  return (← get).interfaces

def addField (access : UInt16) (name descriptor : String) : BuildM Member := do
  let member ← BuildM.onPool (Member.create access name descriptor)
  modify fun file => { file with fields := file.fields ++ [member] }
  return member

def addMethod (access : UInt16) (name descriptor : String) : BuildM Member := do
  let member ← BuildM.onPool (Member.create access name descriptor)
  modify fun file => { file with methods := file.methods ++ [member] }
  return member

def addAttribute (name : String) (info : Bytes) : BuildM Attribute := do
  let name ← BuildM.onPool (putText name)
  modify fun file => { file with attributes := file.attributes ++ [{ name, info }] }
  return { name, info }

end ClassFile

end JarRemap
