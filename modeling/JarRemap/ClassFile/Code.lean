import JarRemap.ClassFile.Basic

/-!
# Code

The content of a code attribute. The instructions refer to the pool only by index and stay as bytes.
Bytes after the attribute table are not part of the code, and reading leaves them out.
-/
namespace JarRemap

open Reader

structure ExceptionHandler where
  start : UInt16
  finish : UInt16
  handler : UInt16
  catchType : UInt16
deriving DecidableEq

namespace ExceptionHandler

def read : Reader ExceptionHandler := do
  let start ← u16
  let finish ← u16
  let handler ← u16
  let catchType ← u16
  return { start, finish, handler, catchType }

def toBytes (entry : ExceptionHandler) : Bytes :=
  u16Bytes entry.start ++ u16Bytes entry.finish ++ u16Bytes entry.handler ++ u16Bytes entry.catchType

end ExceptionHandler

structure Code where
  maxStack : UInt16
  maxLocals : UInt16
  instructions : Bytes
  handlers : List ExceptionHandler
  attributes : List Attribute
deriving DecidableEq

namespace Code

def reader : Reader Code := do
  let maxStack ← u16
  let maxLocals ← u16
  let length ← u32
  let instructions ← block length.toNat
  let handlers ← list ExceptionHandler.read
  let attributes ← list Attribute.read
  return { maxStack, maxLocals, instructions, handlers, attributes }

def read (info : Bytes) : Outcome Code := (·.1) <$> reader info

def toBytes (code : Code) : Outcome Bytes := do
  let length ← lengthBytes32 code.instructions.length
  let handlers ← listBytes (fun entry => .ok entry.toBytes) code.handlers
  let attributes ← listBytes Attribute.toBytes code.attributes
  return u16Bytes code.maxStack ++ u16Bytes code.maxLocals ++ length ++ code.instructions ++
    handlers ++ attributes

end Code

end JarRemap
