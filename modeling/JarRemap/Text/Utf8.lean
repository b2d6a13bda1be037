/-!
# UTF-8

Reading stops at the first byte that no continuation of the text so far could explain. The fault tells
where the broken sequence starts and how many of its bytes were fine; a sequence that is broken only
because the data ends has no such length.
-/
namespace JarRemap.Text

/-- Why a sequence of bytes is not UTF-8. -/
inductive Utf8Fault where
  /-- The `length` bytes at `index` start no character. -/
  | invalid (index length : Nat)
  /-- The data ends inside the character that starts at `index`. -/
  | incomplete (index : Nat)
deriving DecidableEq

/-- Whether the byte can follow the first byte of a sequence. -/
def isContinuation (byte : UInt8) : Bool := 0x80 ≤ byte && byte ≤ 0xBF

def payload (byte : UInt8) : Nat := byte.toNat % 64

/-- Whether `second` can follow the first byte `first` of a sequence of three bytes. Overlong forms
and surrogates are excluded. -/
def secondOfThree (first second : UInt8) : Bool :=
  if first = 0xE0 then 0xA0 ≤ second && second ≤ 0xBF
  else if first = 0xED then 0x80 ≤ second && second ≤ 0x9F
  else isContinuation second

/-- Whether `second` can follow the first byte `first` of a sequence of four bytes. Overlong forms and
values beyond the last code point are excluded. -/
def secondOfFour (first second : UInt8) : Bool :=
  if first = 0xF0 then 0x90 ≤ second && second ≤ 0xBF
  else if first = 0xF4 then 0x80 ≤ second && second ≤ 0x8F
  else isContinuation second

/-- The character at the front of the bytes, with the number of bytes it takes. A failure carries the
number of bytes that were fine, or nothing if the data ended. -/
def firstChar : List UInt8 → Except (Option Nat) (Char × Nat)
  | [] => .error none
  | a :: rest =>
    if a < 0x80 then .ok (Char.ofNat a.toNat, 1)
    else if 0xC2 ≤ a && a ≤ 0xDF then
      match rest with
      | [] => .error none
      | b :: _ =>
        if isContinuation b then .ok (Char.ofNat (a.toNat % 32 * 64 + payload b), 2)
        else .error (some 1)
    else if 0xE0 ≤ a && a ≤ 0xEF then
      match rest with
      | [] => .error none
      | b :: rest =>
        if !secondOfThree a b then .error (some 1)
        else
          match rest with
          | [] => .error none
          | c :: _ =>
            if isContinuation c then
              .ok (Char.ofNat (a.toNat % 16 * 4096 + payload b * 64 + payload c), 3)
            else .error (some 2)
    else if 0xF0 ≤ a && a ≤ 0xF4 then
      match rest with
      | [] => .error none
      | b :: rest =>
        if !secondOfFour a b then .error (some 1)
        else
          match rest with
          | [] => .error none
          | c :: rest =>
            if !isContinuation c then .error (some 2)
            else
              match rest with
              | [] => .error none
              | d :: _ =>
                if isContinuation d then
                  .ok (Char.ofNat
                    (a.toNat % 8 * 262144 + payload b * 4096 + payload c * 64 + payload d), 4)
                else .error (some 3)
    else .error (some 1)

/-- Reads characters until the bytes are used up. `skip` counts the bytes of the last character that
are still in front, `index` is the offset of the front, and `chars` holds what was read, latest first. -/
def decodeFrom (skip index : Nat) (chars : List Char) : List UInt8 → Except Utf8Fault (List Char)
  | [] => .ok chars.reverse
  | byte :: rest =>
    match skip with
    | skip + 1 => decodeFrom skip (index + 1) chars rest
    | 0 =>
      match firstChar (byte :: rest) with
      | .ok (c, size) => decodeFrom (size - 1) (index + 1) (c :: chars) rest
      | .error (some length) => .error (.invalid index length)
      | .error none => .error (.incomplete index)

def decodeUtf8 (bytes : List UInt8) : Except Utf8Fault String :=
  (decodeFrom 0 0 [] bytes).map String.ofList

def encodeUtf8 (text : String) : List UInt8 := text.toList.flatMap String.utf8EncodeChar

end JarRemap.Text
