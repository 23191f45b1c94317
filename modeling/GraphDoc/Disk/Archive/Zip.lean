import GraphDoc.Deflate
import GraphDoc.Disk.Basic

/-!
# Zip archives

A zip archive ends with a directory of its members. Each entry tells where the member stands, how it
is compressed, and the checksum of its bytes.
-/

namespace GraphDoc.Zip

open GraphDoc.Bytes

/-- The size of the record that ends an archive, without the comment behind it. -/
def endSize : Nat := 22

/-- The place of the record that ends the archive: the last one that may be followed by a comment. -/
def endPlace? (data : ByteArray) : Option Nat :=
  if data.size < endSize then none
  else
    let last := data.size - endSize
    ((List.range (min last 0xffff + 1)).map (last - ·)).find? fun place =>
      numberAt data place 4 == some 0x06054b50

/-- The bytes of a member, which are stored as they are or deflated. -/
def contentAt? (data : ByteArray) (start size method : Nat) : Option ByteArray := do
  let packed ← part? data start size
  match method with
  | 0 => return packed
  | 8 => return (← Deflate.inflate? packed 0).1
  | _ => none

/-- The bytes of the member whose head is at a place, unless they are damaged. -/
def bytesAt? (data : ByteArray) (start size method checksum : Nat) : Option ByteArray := do
  let headSize := 30 + (← numberAt data (start + 26) 2) + (← numberAt data (start + 28) 2)
  let bytes ← contentAt? data (start + headSize) size method
  guard ((Crc32.checksum bytes).toNat = checksum)
  return bytes

/-- The member that an entry of the directory tells of, and the size of the entry. The places in the
archive are counted from `base`. Where there is no head of the member, the archive breaks before the
member's file is made; where the bytes are damaged, while the file is still empty. -/
def memberAt? (data : ByteArray) (base entry : Nat) : Option (Member × Nat) := do
  guard ((← numberAt data entry 4) = 0x02014b50)
  let method ← numberAt data (entry + 10) 2
  let checksum ← numberAt data (entry + 16) 4
  let size ← numberAt data (entry + 20) 4
  let nameSize ← numberAt data (entry + 28) 2
  let extraSize ← numberAt data (entry + 30) 2
  let commentSize ← numberAt data (entry + 32) 2
  let start := base + (← numberAt data (entry + 42) 4)
  let path ← String.fromUTF8? (← part? data (entry + 46) nameSize)
  let entrySize := 46 + nameSize + extraSize + commentSize
  let member : Member :=
    if path.toList.getLast? = some '/' then { path, bytes? := none }
    else if numberAt data start 4 ≠ some 0x04034b50 then { path := "", bytes? := none, breaks := true }
    else
      match bytesAt? data start size method checksum with
      | some bytes => { path, bytes? := some bytes }
      | none => { path, bytes? := some .empty, breaks := true }
  return (member, entrySize)

/-- The members that the directory tells of, from one of its entries up to its end. Every entry takes
bytes, so `fuel` need not be more than their number. -/
def membersFrom? (data : ByteArray) (base stop : Nat) : (fuel : Nat) → (entry : Nat) →
    Option (List Member)
  | 0, _ => none
  | fuel + 1, entry =>
    if stop ≤ entry then some []
    else do
      let (member, size) ← memberAt? data base entry
      return member :: (← membersFrom? data base stop fuel (entry + size))

/-- The members of a zip archive. What stands in front of the archive does not matter. -/
def members? (data : ByteArray) : Option (List Member) := do
  let stop ← endPlace? data
  let size ← numberAt data (stop + 12) 4
  let offset ← numberAt data (stop + 16) 4
  guard (size + offset ≤ stop)
  membersFrom? data (stop - size - offset) stop (size + 1) (stop - size)

end GraphDoc.Zip
