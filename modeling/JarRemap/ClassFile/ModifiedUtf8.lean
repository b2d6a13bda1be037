import JarRemap.Failure

/-!
# Modified UTF-8

Text constants write the null character as two bytes and a character beyond the basic plane as a pair of
surrogates of three bytes each. Reading is lenient: bytes that are plain UTF-8 are read as such, null
bytes and sequences of four bytes included. A surrogate without its partner is a value of this
encoding, but no text.
-/
namespace JarRemap.ModifiedUtf8

open Text (Utf8Fault isContinuation payload decodeUtf8)

/-- A unit of the encoding: a character, or a surrogate that stands alone. -/
inductive Symbol where
  | char (c : Char)
  | surrogate (value : Nat)
deriving DecidableEq

/-- The symbol with the given code, which is below the end of the basic plane. -/
def Symbol.ofCode (code : Nat) : Symbol :=
  if 0xD800 ≤ code && code < 0xE000 then .surrogate code else .char (Char.ofNat code)

def joinSurrogates (high low : Nat) : Char :=
  Char.ofNat (0x10000 + (high - 0xD800) * 1024 + (low - 0xDC00))

/-- The low surrogate at the front of the bytes, if there is one. -/
def lowSurrogate? : Bytes → Option Nat
  | 0xED :: b :: c :: _ =>
    if 0xB0 ≤ b && b ≤ 0xBF && isContinuation c then
      some (0xD000 + payload b * 64 + payload c)
    else none
  | _ => none

/-- The symbol at the front of the bytes, with the number of bytes it takes. A failure carries the number
of bytes that were fine, or nothing if the data ended. -/
def firstSymbol : Bytes → Except (Option Nat) (Symbol × Nat)
  | [] => .error none
  | a :: rest =>
    if a = 0 then .error (some 1)
    else if a < 0x80 then .ok (.char (Char.ofNat a.toNat), 1)
    else if a = 0xC0 then
      match rest with
      | [] => .error none
      | 0x80 :: _ => .ok (.char (Char.ofNat 0), 2)
      | _ :: _ => .error (some 1)
    else
      match rest with
      | [] => .error none
      | b :: rest =>
        if !isContinuation b then .error (some 1)
        else if 0xC2 ≤ a && a ≤ 0xDF then
          .ok (.char (Char.ofNat (a.toNat % 32 * 64 + payload b)), 2)
        else if 0xE0 ≤ a && a ≤ 0xEF then
          match rest with
          | [] => .error none
          | c :: rest =>
            if !isContinuation c then .error (some 2)
            else if a = 0xE0 && b < 0xA0 then .error (some 1)
            else
              let code := a.toNat % 16 * 4096 + payload b * 64 + payload c
              if 0xD800 ≤ code && code < 0xDC00 then
                match lowSurrogate? rest with
                | some low => .ok (.char (joinSurrogates code low), 6)
                | none => .ok (.surrogate code, 3)
              else .ok (Symbol.ofCode code, 3)
        else .error (some 1)

/-- Reads symbols until the bytes are used up. `skip` counts the bytes of the last symbol that are still
in front, `index` is the offset of the front, and `symbols` holds what was read, latest first. -/
def symbolsFrom (skip index : Nat) (symbols : List Symbol) : Bytes → Except Utf8Fault (List Symbol)
  | [] => .ok symbols.reverse
  | byte :: rest =>
    match skip with
    | skip + 1 => symbolsFrom skip (index + 1) symbols rest
    | 0 =>
      match firstSymbol (byte :: rest) with
      | .ok (symbol, size) => symbolsFrom (size - 1) (index + 1) (symbol :: symbols) rest
      | .error (some length) => .error (.invalid index length)
      | .error none => .error (.incomplete index)

/-- The characters of the symbols, if no surrogate stands alone. -/
def chars? (symbols : List Symbol) : Option (List Char) :=
  symbols.mapM fun
    | .char c => some c
    | .surrogate _ => none

def decode (bytes : Bytes) : Outcome String :=
  match decodeUtf8 bytes with
  | .ok text => .ok text
  | .error _ =>
    match symbolsFrom 0 0 [] bytes with
    | .error fault => .error ⟨[.modifiedUtf8 bytes], .invalidUtf8 fault⟩
    | .ok symbols =>
      match chars? symbols with
      | some chars => .ok (String.ofList chars)
      | none => Outcome.fail (.unpairedSurrogates bytes)

/-- The three bytes of a code of the basic plane that needs as many. -/
def threeBytes (code : Nat) : Bytes :=
  [(0xE0 + code / 4096).toUInt8, (0x80 + code / 64 % 64).toUInt8, (0x80 + code % 64).toUInt8]

def encodeChar (c : Char) : Bytes :=
  let code := c.toNat
  if code = 0 then [0xC0, 0x80]
  else if code < 0x80 then [code.toUInt8]
  else if code < 0x800 then [(0xC0 + code / 64).toUInt8, (0x80 + code % 64).toUInt8]
  else if code < 0x10000 then threeBytes code
  else
    let offset := code - 0x10000
    threeBytes (0xD800 + offset / 1024) ++ threeBytes (0xDC00 + offset % 1024)

def encode (text : String) : Bytes := text.toList.flatMap encodeChar

end JarRemap.ModifiedUtf8
