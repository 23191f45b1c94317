/-!
# Packed bytes

What archives are read with. They hold numbers and parts of known size at known places, and keep a
checksum of each member: the remainder of the bytes, read as a polynomial over bits, by a fixed
polynomial.

Deflated data are blocks; a block holds bytes as they are, or codes that stand for bytes and for
repetitions of what came out before. A block's two codes are fixed or stand at its head, given by the
lengths of their words.
-/

namespace GraphDoc.Bytes

/-- The number of `count` bytes, the lowest first, at a place of a byte string. -/
def numberAt (data : ByteArray) (start : Nat) : (count : Nat) → Option Nat
  | 0 => some 0
  | count + 1 => do
    let low ← data.data[start]?
    return low.toNat + 256 * (← numberAt data (start + 1) count)

/-- The bytes of a part of a byte string, if it is there. -/
def part? (data : ByteArray) (start count : Nat) : Option ByteArray :=
  if start + count ≤ data.size then some (data.extract start (start + count)) else none

end GraphDoc.Bytes

namespace GraphDoc.Crc32

/-- The divisor, its lowest power in the highest bit. -/
def divisor : UInt32 := 0xedb88320

/-- Divides by one power more, `n` times. -/
def divide : (n : Nat) → UInt32 → UInt32
  | 0, rest => rest
  | n + 1, rest => divide n (if rest &&& 1 = 1 then (rest >>> 1) ^^^ divisor else rest >>> 1)

/-- The remainder after one byte more. -/
def step (rest : UInt32) (byte : UInt8) : UInt32 := divide 8 (rest ^^^ byte.toUInt32)

/-- The checksum of a byte string. -/
def checksum (data : ByteArray) : UInt32 := ~~~data.foldl step 0xffffffff

end GraphDoc.Crc32

namespace GraphDoc.Deflate

/-! ## Bits -/

/-- A byte string and a place in it, counted in bits. The bits of a byte are taken from the lowest
up. -/
structure BitTape where
  bytes : ByteArray
  position : Nat := 0

/-- A reader of bits, which may fail. -/
abbrev Reader := StateT BitTape Option

/-- Reads a bit. -/
def bit : Reader Nat := fun t =>
  if h : t.position / 8 < t.bytes.size then
    some (t.bytes[t.position / 8].toNat / Nat.pow 2 (t.position % 8) % 2,
      { t with position := t.position + 1 })
  else none

/-- Reads a number of `n` bits, its lowest bit first. -/
def number : (n : Nat) → Reader Nat
  | 0 => return 0
  | n + 1 => do
    let low ← bit
    return low + 2 * (← number n)

/-- Goes on to the next whole byte. -/
def align : Reader Unit := modify fun t => { t with position := (t.position + 7) / 8 * 8 }

/-- Takes `n` whole bytes. -/
def take (n : Nat) : Reader ByteArray := do
  let t ← get
  let start := t.position / 8
  if t.bytes.size < start + n then failure
  set { t with position := (start + n) * 8 }
  return t.bytes.extract start (start + n)

/-! ## Codes -/

/-- A code whose words are ordered by length, and among words of one length by the symbols they stand
for: for each length, from one bit up, the symbols with words of that length. -/
structure Code where
  levels : List (Array Nat)

/-- The code with words of the given lengths; a length of zero means that the symbol has no word. -/
def Code.ofLengths (lengths : List Nat) : Code :=
  ⟨(List.range 15).map fun n =>
    ((lengths.zipIdx.filter (·.1 = n + 1)).map (·.2)).toArray⟩

/-- Reads the rest of a word. The bits read so far start longer words; among the bit strings of their
length that do so, `offset` come before them. -/
def readWord : (levels : List (Array Nat)) → (offset : Nat) → Reader Nat
  | [], _ => failure
  | level :: longer, offset => do
    let place := 2 * offset + (← bit)
    match level[place]? with
    | some symbol => return symbol
    | none => readWord longer (place - level.size)

/-- Reads a word and gives its symbol. -/
def Code.symbol (code : Code) : Reader Nat := readWord code.levels 0

/-- The fixed code for bytes and lengths. -/
def fixedBytes : Code :=
  .ofLengths (List.replicate 144 8 ++ List.replicate 112 9 ++ List.replicate 24 7 ++
    List.replicate 8 8)

/-- The fixed code for distances. -/
def fixedDistances : Code := .ofLengths (List.replicate 30 5)

/-- Reads lengths of words until there are `total`, in the code for lengths: a length, the last length
again, or a run of zeros. -/
def readLengths (code : Code) (total : Nat) : (fuel : Nat) → (lengths : Array Nat) →
    Reader (Array Nat)
  | 0, lengths => return lengths
  | fuel + 1, lengths =>
    if total ≤ lengths.size then return lengths
    else do
      match ← code.symbol with
      | 16 =>
        let some last := lengths.back? | failure
        let count ← number 2
        readLengths code total fuel (lengths ++ Array.replicate (count + 3) last)
      | 17 =>
        let count ← number 3
        readLengths code total fuel (lengths ++ Array.replicate (count + 3) 0)
      | 18 =>
        let count ← number 7
        readLengths code total fuel (lengths ++ Array.replicate (count + 11) 0)
      | length => readLengths code total fuel (lengths.push length)

/-- The symbols of the code for lengths, in the order in which its own lengths are written. -/
def lengthOrder : List Nat := [16, 17, 18, 0, 8, 7, 9, 6, 10, 5, 11, 4, 12, 3, 13, 2, 14, 1, 15]

/-- Reads the codes at the head of a block. -/
def readCodes : Reader (Code × Code) := do
  let byteCount := (← number 5) + 257
  let distanceCount := (← number 5) + 1
  let written := lengthOrder.take ((← number 4) + 4)
  let lengths ← written.mapM fun symbol => return (symbol, ← number 3)
  let code := Code.ofLengths ((List.range 19).map fun symbol => (lengths.lookup symbol).getD 0)
  let total := byteCount + distanceCount
  let lengths ← readLengths code total total #[]
  if lengths.size ≠ total then failure
  return (.ofLengths (lengths.toList.take byteCount), .ofLengths (lengths.toList.drop byteCount))

/-! ## Blocks -/

/-- A symbol that stands for a range of numbers: the first of them, and the bits that follow to tell
which. -/
abbrev Range := Nat × Nat

/-- The lengths of repetitions. -/
def lengthRanges : Array Range := #[
  (3, 0), (4, 0), (5, 0), (6, 0), (7, 0), (8, 0), (9, 0), (10, 0), (11, 1), (13, 1), (15, 1),
  (17, 1), (19, 2), (23, 2), (27, 2), (31, 2), (35, 3), (43, 3), (51, 3), (59, 3), (67, 4), (83, 4),
  (99, 4), (115, 4), (131, 5), (163, 5), (195, 5), (227, 5), (258, 0)]

/-- The distances of repetitions. -/
def distanceRanges : Array Range := #[
  (1, 0), (2, 0), (3, 0), (4, 0), (5, 1), (7, 1), (9, 2), (13, 2), (17, 3), (25, 3), (33, 4),
  (49, 4), (65, 5), (97, 5), (129, 6), (193, 6), (257, 7), (385, 7), (513, 8), (769, 8), (1025, 9),
  (1537, 9), (2049, 10), (3073, 10), (4097, 11), (6145, 11), (8193, 12), (12289, 12), (16385, 13),
  (24577, 13)]

/-- Reads which number of the range of a symbol is meant. -/
def readRange (ranges : Array Range) (symbol : Nat) : Reader Nat := do
  let some (first, width) := ranges[symbol]? | failure
  return first + (← number width)

/-- Repeats `n` bytes from the given distance back, which may reach into the repetition itself. -/
def repeatBytes (distance : Nat) : (n : Nat) → ByteArray → ByteArray
  | 0, out => out
  | n + 1, out => repeatBytes distance n (out.push (out.data.getD (out.size - distance) 0))

/-- Reads the symbols of a block up to its end. Every symbol takes a bit at least. -/
def readSymbols (bytes distances : Code) : (fuel : Nat) → ByteArray → Reader ByteArray
  | 0, _ => failure
  | fuel + 1, out => do
    let symbol ← bytes.symbol
    if symbol < 256 then readSymbols bytes distances fuel (out.push symbol.toUInt8)
    else if symbol = 256 then return out
    else
      let length ← readRange lengthRanges (symbol - 257)
      let distance ← readRange distanceRanges (← distances.symbol)
      if out.size < distance then failure
      readSymbols bytes distances fuel (repeatBytes distance length out)

/-- Reads a block of bytes as they are: their count, its complement, and the bytes. -/
def readStored (out : ByteArray) : Reader ByteArray := do
  align
  let count ← number 16
  if (← number 16) + count ≠ 0xffff then failure
  return out ++ (← take count)

/-- Reads blocks up to the last. -/
def readBlocks : (fuel : Nat) → ByteArray → Reader ByteArray
  | 0, _ => failure
  | fuel + 1, out => do
    let last ← bit
    let symbols := 8 * (← get).bytes.size
    let out ← match ← number 2 with
      | 0 => readStored out
      | 1 => readSymbols fixedBytes fixedDistances symbols out
      | 2 => do
        let (bytes, distances) ← readCodes
        readSymbols bytes distances symbols out
      | _ => failure
    if last = 1 then return out else readBlocks fuel out

/-- The data that stand deflated from the given place on, and the place of the first byte behind. -/
def inflate? (bytes : ByteArray) (start : Nat) : Option (ByteArray × Nat) := do
  let (out, t) ← (readBlocks (8 * bytes.size) .empty).run { bytes, position := 8 * start }
  return (out, (t.position + 7) / 8)

end GraphDoc.Deflate
