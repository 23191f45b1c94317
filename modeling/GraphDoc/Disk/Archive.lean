import GraphDoc.Disk.Basic
import GraphDoc.Text.Parts

/-!
# Archives

The ending of its name says what kind of archive a file ought to be. The members of an archive are
extracted one after the other into a folder of their own; where that fails, some of them may stand
there already.
-/

namespace GraphDoc

/-- The kind of archive that a file name announces. -/
def ArchiveFormat.ofName? (name : String) : Option ArchiveFormat :=
  if Text.endsWithSmall name ".zip" then some .zip
  else if Text.endsWithSmall name ".tar.gz" || Text.endsWithSmall name ".tgz" then some .tarball
  else none

/-- Why an archive is not unpacked, or not all of it. What stops an extraction midway is not told
apart. -/
inductive ArchiveError
  /-- No zip archive, or one that cannot be extracted to its end. -/
  | badZip
  /-- No tarball, or one that cannot be extracted to its end. -/
  | badTarball
  | unknownFormat (suffix : String)
deriving DecidableEq

/-- What a message says of the failure, if anything. -/
def ArchiveError.message? : ArchiveError → Option String
  | .badZip | .badTarball => none
  | .unknownFormat suffix => some ("Unsupported archive format: " ++ suffix)

/-- The ending of a file name: its last point and what follows, unless the point is the first or the
last character. -/
def suffix (name : String) : String :=
  let cs := name.toList
  let ending := (cs.reverse.takeWhile (· ≠ '.')).reverse
  if ending.isEmpty || cs.length ≤ ending.length + 1 then "" else String.ofList ('.' :: ending)

/-- What is wrong with a file that cannot be extracted in its announced format. -/
def ArchiveFormat.damaged : ArchiveFormat → ArchiveError
  | .zip => .badZip
  | .tarball => .badTarball

/-- Where a member stands below the folder that its archive is unpacked into. Parts that lead nowhere
do not count. -/
def Member.place (m : Member) : Path := (Path.parts m.path).filter fun part => part ≠ "" && part ≠ "."

/-- Where parts lead from a place below a folder, unless they lead out of the folder. -/
def Path.inside? (here : Path) : List String → Option Path
  | [] => some here
  | part :: rest =>
    if part ≠ ".." then inside? (here ++ [part]) rest
    else if here.isEmpty then none
    else inside? here.dropLast rest

/-- Where an archive puts a member. Parts that lead up do not count in a zip archive; in a tarball they
do, but they may not lead out of the folder. -/
def ArchiveFormat.place? (format : ArchiveFormat) (m : Member) : Option Path :=
  match format with
  | .zip => some (m.place.filter (· ≠ ".."))
  | .tarball => Path.inside? [] m.place

namespace Disk

/-- The folder with one more member of an archive in it, seen from the folder. A member is refused
where a file is in its way, or where it has a folder in its place. -/
def extractMember? (format : ArchiveFormat) (d : Disk) (m : Member) : Option Disk := do
  let place ← format.place? m
  match m.bytes? with
  | some data => (d.save place (.bytes data)).toOption
  | none => (d.makeFolder place).toOption

/-- Puts members of an archive into a folder, up to the first that is refused or damaged. What was put
there until then stays. -/
def extract (format : ArchiveFormat) : List Member → Disk → Except ArchiveError Unit × Disk
  | [], d => (.ok (), d)
  | m :: rest, d =>
    match d.extractMember? format m with
    | none => (.error format.damaged, d)
    | some d => if m.breaks then (.error format.damaged, d) else extract format rest d

/-- The disk with a folder at a path, and in the folder what stands on another disk. -/
def graft (d : Disk) (folder : Path) (inner : Disk) : Disk :=
  inner.entries.foldr (fun (p, entry) d => if p = [] then d else d.put (folder ++ p) entry)
    (d.put folder .folder)

end Disk

/-- Extracts a file as an archive of the announced format into an empty folder: what comes of it, and
what stands in the folder then, seen from there. -/
def ArchiveFormat.extract (format : ArchiveFormat) (content : FileContent) :
    Except ArchiveError Unit × Disk :=
  let folder : Disk := ⟨[([], .folder)]⟩
  match content with
  | .archive actual members =>
    if actual = format then folder.extract format members else (.error format.damaged, folder)
  | .bytes _ => (.error format.damaged, folder)

end GraphDoc
