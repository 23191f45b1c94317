import GraphDoc.Disk.Path
import GraphDoc.Text.Parts
import GraphDoc.Tree.Entries

/-!
# Disks

A disk is a list of files and folders with their paths, in any order. An archive is a file whose
members are known; as text it is unreadable. Reading a text decodes it strictly and writes its line
breaks in one way.
-/

namespace GraphDoc

/-- Byte strings are compared byte by byte. -/
instance instDecidableEqBytes : DecidableEq ByteArray := ByteArray.instDecidableEq

/-- The two kinds of archives. -/
inductive ArchiveFormat
  | zip
  | tarball
deriving DecidableEq

/-- A member of an archive: a file with its bytes, or a folder. -/
structure Member where
  path : String
  bytes? : Option ByteArray
  /-- Whether the archive is damaged here, so that nothing can be read behind these bytes. -/
  breaks : Bool := false
deriving DecidableEq

/-- What a file holds. -/
inductive FileContent
  | bytes (data : ByteArray)
  | archive (format : ArchiveFormat) (members : List Member)
deriving DecidableEq

/-- What stands at a path. -/
inductive DiskEntry
  | folder
  | file (content : FileContent)
deriving DecidableEq

/-- Why a disk refuses a change. -/
inductive DiskError
  /-- There is a file where a folder is wanted. -/
  | fileExists
  /-- A path leads through a file. -/
  | notAFolder
  /-- There is a folder where a file is wanted. -/
  | isAFolder
deriving DecidableEq

/-- Files and folders with their paths. -/
structure Disk where
  entries : List (Path × DiskEntry) := []
deriving DecidableEq

namespace Disk

/-- What stands at a path. -/
def entry? (d : Disk) (p : Path) : Option DiskEntry := d.entries.lookup p

/-- Whether a folder stands at a path. -/
def isFolder (d : Disk) (p : Path) : Bool := d.entry? p == some .folder

/-- What the file at a path holds. -/
def file? (d : Disk) (p : Path) : Option FileContent :=
  match d.entry? p with
  | some (.file content) => some content
  | _ => none

/-- Whether a file stands at a path. -/
def isFile (d : Disk) (p : Path) : Bool := (d.file? p).isSome

/-- Whether the parts of a written path lead somewhere, each but the last through a folder. -/
def leads (d : Disk) (here : Path) : List String → Bool
  | [] => (d.entry? here).isSome
  | part :: rest => d.isFolder here && d.leads (here.step part) rest

/-- Whether a path written in the given folder leads somewhere. -/
def reaches (d : Disk) (folder : Path) (written : String) : Bool :=
  written ≠ "" && d.leads (Path.start folder written) (Path.parts written)

/-- The files below a path. -/
def filesBelow (d : Disk) (p : Path) : List (Path × FileContent) :=
  d.entries.filterMap fun (q, entry) =>
    match entry with
    | .file content => if p.isPrefixOf q && p ≠ q then some (q, content) else none
    | .folder => none

/-- The disk with the given entry at a path. -/
def put (d : Disk) (p : Path) (entry : DiskEntry) : Disk :=
  ⟨putEntry (· == ·) p entry d.entries⟩

/-- The disk without what stands at a path and below it. -/
def remove (d : Disk) (p : Path) : Disk := ⟨d.entries.filter fun (q, _) => !p.isPrefixOf q⟩

/-- The paths on the way to a path, the outermost first, and the path itself. -/
def way (p : Path) : List Path := (List.range p.length).map fun n => p.take (n + 1)

/-- The disk with folders at the given paths. -/
def putFolders (d : Disk) (ps : List Path) : Disk :=
  ps.foldl (fun d p => if d.isFolder p then d else d.put p .folder) d

/-- Makes a folder, and the folders on the way to it. -/
def makeFolder (d : Disk) (p : Path) : Except DiskError Disk :=
  if d.isFile p then .error .fileExists
  else if (way p).any d.isFile then .error .notAFolder
  else .ok (d.putFolders (way p))

/-- Writes a file into a folder that is there. -/
def write (d : Disk) (p : Path) (content : FileContent) : Except DiskError Disk :=
  if d.isFolder p then .error .isAFolder else .ok (d.put p (.file content))

/-- Writes a file, and makes the folders on the way to it. -/
def save (d : Disk) (p : Path) (content : FileContent) : Except DiskError Disk := do
  let d ← d.makeFolder p.dropLast
  d.write p content

/-- What stands on a disk and did not stand there before. -/
def changes (before after : Disk) : List (Path × DiskEntry) :=
  after.entries.filter fun (p, entry) => before.entry? p ≠ some entry

end Disk

/-- The text that a file holds, if it is one. -/
def FileContent.text? : FileContent → Option String
  | .bytes data => (String.fromUTF8? data).map fun s => String.ofList (Text.unifyBreaks s.toList)
  | .archive .. => none

/-- The file that holds the given text. -/
def FileContent.ofText (text : String) : FileContent := .bytes text.toUTF8

end GraphDoc
