import GraphDoc.Deflate
import GraphDoc.Disk.Basic

/-!
# Tarballs

A tarball is compressed as a whole. Inside, each member is a head of one block, with its name, kind
and size, and its bytes, filled up to whole blocks.
-/

namespace GraphDoc.Tarball

open GraphDoc.Bytes

/-! ## The compressed file -/

/-- The place behind the text that starts at the given one and ends with a zero byte. -/
def skipText? (data : ByteArray) (start : Nat) : Option Nat :=
  (((data.extract start data.size).toList).findIdx? (· = 0)).map (start + · + 1)

/-- The place behind the head of a compressed stream. Its flags tell which optional parts it has. -/
def skipHead? (data : ByteArray) (start : Nat) : Option Nat := do
  guard ((← numberAt data start 3) = 0x088b1f)
  let flags ← numberAt data (start + 3) 1
  let place := start + 10
  let place ← if flags.testBit 2 then return place + 2 + (← numberAt data place 2) else pure place
  let place ← if flags.testBit 3 then skipText? data place else pure place
  let place ← if flags.testBit 4 then skipText? data place else pure place
  return if flags.testBit 1 then place + 2 else place

/-- The data of the compressed streams from the given place on, one behind the other and perhaps with
zeros after them. -/
def inflateAll? (data : ByteArray) : (fuel : Nat) → (start : Nat) → (out : ByteArray) →
    Option ByteArray
  | 0, _, out => some out
  | fuel + 1, start, out => do
    let (piece, place) ← Deflate.inflate? data (← skipHead? data start)
    guard ((← numberAt data place 4) = (Crc32.checksum piece).toNat)
    guard ((← numberAt data (place + 4) 4) = piece.size % Nat.pow 2 32)
    let rest := (data.extract (place + 8) data.size).toList
    let zeros := (rest.takeWhile (· = 0)).length
    if zeros = rest.length then return out ++ piece
    inflateAll? data fuel (place + 8 + zeros) (out ++ piece)

/-! ## The members -/

/-- The size of a block. -/
def blockSize : Nat := 512

/-- The text of a field of a head, up to its first zero byte. -/
def textAt? (head : ByteArray) (start count : Nat) : Option String :=
  String.fromUTF8? ⟨((head.extract start (start + count)).toList.takeWhile (· ≠ 0)).toArray⟩

/-- The number that a field of a head holds, in octal digits with blanks around them. -/
def octalAt? (head : ByteArray) (start count : Nat) : Option Nat := do
  let text ← textAt? head start count
  let digits := (text.toList.dropWhile (· = ' ')).reverse.dropWhile (· = ' ')
  digits.foldrM (fun c n => if '0' ≤ c ∧ c ≤ '7' then some (8 * n + (c.toNat - 48)) else none) 0

/-- The sum of the bytes of a head, with blanks in place of the sum itself. -/
def headSum (head : ByteArray) : Nat :=
  let sum (start stop : Nat) : Nat :=
    (head.extract start stop).toList.foldl (fun n byte => n + byte.toNat) 0
  sum 0 148 + 8 * 32 + sum 156 blockSize

/-- The name that a list of extra records gives to the next member. A record is its own length, a
blank, a key, an equals sign, a value and a line break. -/
def pathRecord? : (fuel : Nat) → List Char → Option String
  | 0, _ => none
  | fuel + 1, records => do
    let digits := records.takeWhile Char.isDigit
    let length := digits.foldl (fun n c => 10 * n + (c.toNat - 48)) 0
    guard (digits.length < length)
    -- The length counts bytes, so the record is cut out of the bytes.
    let bytes := (String.ofList records).toUTF8
    let record ← String.fromUTF8? (bytes.extract 0 length)
    let rest ← String.fromUTF8? (bytes.extract length bytes.size)
    let entry := (record.toList.drop (digits.length + 1)).dropLast
    if entry.takeWhile (· ≠ '=') = "path".toList then
      return String.ofList ((entry.dropWhile (· ≠ '=')).drop 1)
    else pathRecord? fuel rest.toList

/-- A member as it stands in a tarball. -/
structure Record where
  path : String
  kind : UInt8
  bytes : ByteArray
  /-- Whether the tarball ends before the bytes do. -/
  isCut : Bool

/-- What the blocks at a place hold. -/
inductive Block
  | record (r : Record) (next : Nat)
  /-- A block of zeros ends the members. -/
  | finish
  | damaged

/-- Reads the member at a place. -/
def blockAt (data : ByteArray) (start : Nat) : Block :=
  match part? data start blockSize with
  | none => .damaged
  | some head =>
    if head.toList.all (· = 0) then .finish
    else
      let record : Option (Record × Nat) := do
        guard ((← octalAt? head 148 8) = headSum head)
        let size ← octalAt? head 124 12
        let name ← textAt? head 0 100
        let folder ← textAt? head 345 155
        let kind ← head.data[156]?
        let isExtended := (← textAt? head 257 5) = "ustar" && (← numberAt head 262 1) = 0
        let path := if isExtended && folder ≠ "" then folder ++ "/" ++ name else name
        let bytes := data.extract (start + blockSize) (start + blockSize + size)
        let next := start + blockSize + (size + blockSize - 1) / blockSize * blockSize
        return ({ path, kind, bytes, isCut := bytes.size < size }, next)
      match record with
      | some (r, next) => .record r next
      | none => .damaged

/-- The bytes of a file are copied in pieces of this size, and none that is cut. -/
def pieceSize : Nat := 16384

/-- What stands for a place where the extraction fails without a file. -/
def breakOff : Member := { path := "", bytes? := none, breaks := true }

/-- The member that a record is, if it is a file, a folder, or of a kind that is refused. -/
def Record.member? (r : Record) (path : String) : Option Member :=
  match Char.ofNat r.kind.toNat with
  | '0' | '\x00' =>
    if path.toList.getLast? = some '/' then some { path, bytes? := none }
    else if r.isCut then
      some { path, bytes? := some (r.bytes.extract 0 (r.bytes.size / pieceSize * pieceSize)), breaks := true }
    else some { path, bytes? := some r.bytes }
  | '5' => some { path, bytes? := none }
  | '3' | '4' | '6' => some breakOff
  | _ => none

/-- The members from a place on. A record may give a name to the member behind it, if that is too long
for a head; then there must be one. Otherwise, whatever is no member ends them. -/
def membersFrom (data : ByteArray) : (fuel : Nat) → (start : Nat) → (given : Option String) →
    (awaited : Bool) → List Member
  | 0, _, _, _ => []
  | fuel + 1, start, given, awaited =>
    match blockAt data start with
    | .finish | .damaged => if awaited then [breakOff] else []
    | .record r next =>
      match Char.ofNat r.kind.toNat with
      | 'L' => membersFrom data fuel next (textAt? r.bytes 0 r.bytes.size) true
      | 'x' =>
        let records := ((String.fromUTF8? r.bytes).getD "").toList
        membersFrom data fuel next (pathRecord? records.length records <|> given) true
      | 'g' => membersFrom data fuel next given true
      | _ =>
        (r.member? (given.getD r.path)).toList ++ membersFrom data fuel next none false

/-- The members of a tarball. -/
def members? (data : ByteArray) : Option (List Member) := do
  let plain ← inflateAll? data data.size 0 .empty
  match blockAt plain 0 with
  | .damaged => none
  | _ => return membersFrom plain plain.size 0 none false

end GraphDoc.Tarball
