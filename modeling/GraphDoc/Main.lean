import GraphDoc.Command.Basic
import GraphDoc.Disk.Archive.Tarball
import GraphDoc.Disk.Archive.Zip

/-!
# The program

Reads from the file system what the command line speaks of, runs the command on it, and carries out
what the command changed. Only a file whose name announces an archive is read as one. If its bytes
are no such archive, they are all that is known of it.
-/

namespace GraphDoc

/-- The members of an archive of the given format, if the bytes are one. -/
def ArchiveFormat.read? : ArchiveFormat → ByteArray → Option (List Member)
  | .zip, data => Zip.members? data
  | .tarball, data => Tarball.members? data

/-- What a file with the given name and bytes holds. -/
def FileContent.ofBytes (name : String) (data : ByteArray) : FileContent :=
  let archive : Option FileContent := do
    let format ← ArchiveFormat.ofName? name
    return .archive format (← format.read? data)
  archive.getD (.bytes data)

namespace Program

/-- What stands at a path of the file system. The bytes of a file are read only if they are wanted. -/
def lookAt (p : Path) (wanted : Bool) : IO (Option DiskEntry) := do
  let place := (← IO.currentDir) / ("/" ++ p.text)
  if ← place.isDir then return some .folder
  if !(← place.pathExists) then return none
  let data ← if wanted then IO.FS.readBinFile place else pure .empty
  return some (.file (.ofBytes p.name data))

/-- What stands at the given paths of the file system. -/
def lookAtAll (paths : List Path) : IO Disk := do
  let found ← paths.mapM fun p => return (← lookAt p true).map (p, ·)
  return ⟨found.filterMap id⟩

/-- What stands below a folder of the file system, down to the given depth. Only documents are read. -/
def readBelow : (depth : Nat) → Path → IO (List (Path × DiskEntry))
  | 0, _ => return []
  | depth + 1, p => do
    let names := (← ((← IO.currentDir) / ("/" ++ p.text)).readDir).toList.map (·.fileName)
    let found ← names.mapM fun name => do
      let q := p ++ [name]
      match ← lookAt q (isDocumentName name) with
      | none => return []
      | some .folder => return (q, .folder) :: (← readBelow depth q)
      | some entry => return [(q, entry)]
    return found.flatten

/-- How deep folders may be: the file system takes no path of more parts. -/
def maxDepth : Nat := 2048

/-- The part of the file system that the written paths speak of. -/
def survey (folder : Path) (written : List String) : IO Disk := do
  let visited := written.flatMap fun w => (Path.start folder w).visited (Path.parts w)
  let disk ← lookAtAll ([""] :: (folder :: visited).flatMap Disk.way).eraseDups
  let below ← (written.take 1).mapM fun w => do
    let p := Path.resolve folder w
    if disk.isFolder p then readBelow maxDepth p else return []
  return ⟨disk.entries ++ below.flatten⟩

/-- Carries out a change on the file system. -/
def carryOut : Path × DiskEntry → IO Unit
  | (p, .folder) => IO.FS.createDirAll ("/" ++ p.text)
  | (p, .file (.bytes data)) => IO.FS.writeBinFile ("/" ++ p.text) data
  | (_, .file (.archive ..)) => return ()

/-- Runs the program in the file system. -/
def run (args : List String) : IO UInt32 := do
  let folder := Path.resolve [""] (← IO.currentDir).toString
  let stamp ← IO.monoNanosNow
  let scratch := ["", "tmp", s!"graphdoc-{stamp}"]
  let disk ← survey folder (Command.mentioned args)
  let _ : Host :=
    { (inferInstance : Host) with
      outIsTerminal := ← (← IO.getStdout).isTty, errIsTerminal := ← (← IO.getStderr).isTty }
  let outcome := Command.run { folder, scratch } disk args
  (disk.changes outcome.disk).forM carryOut
  IO.print outcome.stdout
  IO.eprint outcome.stderr
  return outcome.exitCode.toUInt32

end Program

end GraphDoc

/-- Runs the program with the arguments of its command line. -/
def main (args : List String) : IO UInt32 := GraphDoc.Program.run args
