import JarRemap.Bytes.LittleEndian

/-!
# Compressed entries

Compressed data is a sequence of bits, the least significant bit of each byte first. It consists of
blocks; a block is stored as it is, or it is a sequence of symbols for single bytes and for repetitions of
what came before. Symbols are written in a prefix code, which is either fixed or told at the start of the
block by the lengths of its words.

Every symbol and every block takes at least one bit, so the number of bits bounds both.
-/
namespace JarRemap.Inflate

open List

/-- Bits that are still to be read: what is left of the byte that was begun, and the bytes after it. -/
structure BitSource where
  begun : List Bool
  rest : Bytes

/-- Reads bits; there is no result if they end too early or make no sense. -/
abbrev BitM := StateT BitSource Option

/-- The bits of a byte, the least significant one first. -/
def byteBits (byte : UInt8) : List Bool := (range 8).map byte.toNat.testBit

def bit : BitM Bool := fun source =>
  match source.begun, source.rest with
  | first :: begun, rest => some (first, ⟨begun, rest⟩)
  | [], byte :: rest =>
    match byteBits byte with
    | first :: begun => some (first, ⟨begun, rest⟩)
    | [] => none
  | [], [] => none

/-- Reads a number of `width` bits, the least significant one first. -/
def number : (width : Nat) → BitM Nat
  | 0 => return 0
  | width + 1 => do
    let first ← bit
    let later ← number width
    return first.toNat + 2 * later

/-- Reads a block of `size` bytes, after the rest of the byte that was begun is dropped. -/
def block (size : Nat) : BitM Bytes := fun source =>
  let taken := source.rest.take size
  if taken.length < size then none else some (taken, ⟨[], source.rest.drop size⟩)

/-- A prefix code: the words that lead to the symbols, bit by bit. -/
inductive PrefixCode where
  | unused
  | symbol (value : Nat)
  | branch (zero one : PrefixCode)

namespace PrefixCode

def pairs : List PrefixCode → List PrefixCode
  | first :: second :: rest => .branch first second :: pairs rest
  | [last] => [.branch last .unused]
  | [] => []

/-- All words of `length` bits: those that are symbols, in order, and then those that go on. `longer` are
the words of one more bit. -/
def level (lengths : List Nat) (longer : List PrefixCode) (length : Nat) : List PrefixCode :=
  (lengths.zipIdx.filter (·.1 = length)).map (fun (_, value) => .symbol value) ++ pairs longer

/-- The code in which each symbol has a word of the given length, none if that is zero. Shorter words come
before longer ones, and words of one length are in the order of their symbols. -/
def ofLengths (lengths : List Nat) : Option PrefixCode :=
  let words := ((range 15).map (15 - ·)).foldl (level lengths) []
  match pairs words with
  | [] => some .unused
  | [code] => some code
  | _ => none

def read : PrefixCode → BitM Nat
  | .unused => fun _ => none
  | .symbol value => return value
  | .branch zero one => do if ← bit then one.read else zero.read

end PrefixCode

/-- The ranges of numbers that symbols stand for: each starts where the one before it ends, and has as many
numbers as fit the given number of bits. -/
def ranges : (start : Nat) → (widths : List Nat) → List (Nat × Nat)
  | _, [] => []
  | start, width :: rest => (start, width) :: ranges (start + Nat.pow 2 width) rest

/-- The lengths of repetitions. The longest one has a symbol of its own. -/
def lengthRanges : List (Nat × Nat) :=
  ranges 3 [0, 0, 0, 0, 0, 0, 0, 0, 1, 1, 1, 1, 2, 2, 2, 2, 3, 3, 3, 3, 4, 4, 4, 4, 5, 5, 5, 5] ++ [(258, 0)]

def distanceRanges : List (Nat × Nat) :=
  ranges 1 [0, 0, 0, 0, 1, 1, 2, 2, 3, 3, 4, 4, 5, 5, 6, 6, 7, 7, 8, 8, 9, 9, 10, 10, 11, 11, 12, 12, 13, 13]

/-- Reads a number in the range that a symbol stands for. -/
def inRange (table : List (Nat × Nat)) (symbol : Nat) : BitM Nat := do
  let (start, width) ← table[symbol]?
  let offset ← number width
  return start + offset

/-- Repeats `count` bytes that start `distance` bytes before the end. -/
def repeated (distance : Nat) : (count : Nat) → Array UInt8 → Option (Array UInt8)
  | 0, output => some output
  | count + 1, output => do
    if output.size < distance then none
    else repeated distance count (output.push (← output[output.size - distance]?))

/-- The codes of a block: for bytes and lengths of repetitions, and for distances. -/
structure BlockCodes where
  literals : PrefixCode
  distances : PrefixCode

def symbols (codes : BlockCodes) : (fuel : Nat) → Array UInt8 → BitM (Array UInt8)
  | 0, _ => fun _ => none
  | fuel + 1, output => do
    let symbol ← codes.literals.read
    if symbol < 256 then symbols codes fuel (output.push symbol.toUInt8)
    else if symbol = 256 then return output
    else
      let count ← inRange lengthRanges (symbol - 257)
      let distance ← inRange distanceRanges (← codes.distances.read)
      symbols codes fuel (← repeated distance count output)

/-- Reads a block that is stored as it is. Its length stands before it, once more with all bits inverted. -/
def stored (output : Array UInt8) : BitM (Array UInt8) := do
  let length := littleEndian (← block 2)
  let inverted := littleEndian (← block 2)
  if length + inverted = 65535 then return output ++ (← block length)
  else fun _ => none

def fixedCodes : Option BlockCodes := do
  let literals ← PrefixCode.ofLengths (replicate 144 8 ++ replicate 112 9 ++
    replicate 24 7 ++ replicate 8 8)
  let distances ← PrefixCode.ofLengths (replicate 30 5)
  return { literals, distances }

/-- The symbols of the code for lengths, in the order in which the lengths of their own words are told. -/
def lengthOrder : List Nat := [16, 17, 18, 0, 8, 7, 9, 6, 10, 5, 11, 4, 12, 3, 13, 2, 14, 1, 15]

def shortLengths : (count : Nat) → BitM (List Nat)
  | 0 => return []
  | count + 1 => do
    let first ← number 3
    let later ← shortLengths count
    return first :: later

/-- Reads lengths of words until there are `total` of them. Those in `done` are held latest first. -/
def wordLengths (code : PrefixCode) (total : Nat) : (fuel : Nat) → (done : List Nat) → BitM (List Nat)
  | 0, _ => fun _ => none
  | fuel + 1, done => do
    if done.length = total then return done.reverse
    else if total < done.length then fun _ => none
    else
      let symbol ← code.read
      if symbol < 16 then wordLengths code total fuel (symbol :: done)
      else if symbol = 16 then
        let last ← done.head?
        let count ← number 2
        wordLengths code total fuel (replicate (count + 3) last ++ done)
      else if symbol = 17 then
        let count ← number 3
        wordLengths code total fuel (replicate (count + 3) 0 ++ done)
      else
        let count ← number 7
        wordLengths code total fuel (replicate (count + 11) 0 ++ done)

def toldCodes : BitM BlockCodes := do
  let literalCount := (← number 5) + 257
  let distanceCount := (← number 5) + 1
  let told ← shortLengths ((← number 4) + 4)
  let lengths := (range 19).map fun symbol => ((lengthOrder.zip told).lookup symbol).getD 0
  let total := literalCount + distanceCount
  let words ← wordLengths (← PrefixCode.ofLengths lengths) total (total + 1) []
  let literals ← PrefixCode.ofLengths (words.take literalCount)
  let distances ← PrefixCode.ofLengths (words.drop literalCount)
  return { literals, distances }

def blocks (bitCount : Nat) : (fuel : Nat) → Array UInt8 → BitM (Array UInt8)
  | 0, _ => fun _ => none
  | fuel + 1, output => do
    let isLast ← bit
    let output ← match ← number 2 with
      | 0 => stored output
      | 1 => do symbols (← fixedCodes) bitCount output
      | 2 => do symbols (← toldCodes) bitCount output
      | _ => fun _ => none
    if isLast then return output else blocks bitCount fuel output

/-- The data that was compressed to the given bytes, if they are such. -/
def data? (bytes : Bytes) : Option Bytes := do
  let bitCount := 8 * bytes.length + 1
  let (output, _) ← blocks bitCount bitCount #[] ⟨[], bytes⟩
  return output.toList

end JarRemap.Inflate
