import GraphDoc.Disk.Archive

/-!
# Hosts

What the commands leave to the system that they run on: the extraction of archives, the characters
that can be written, and what the two streams show. Extraction puts nothing outside of its folder.
-/

namespace GraphDoc

/-- A system that commands run on. -/
class Host where
  /-- Extracts a file as an archive of the given format into an empty folder: what comes of it, and
  what stands in the folder then, seen from there. -/
  extract : ArchiveFormat → FileContent → Except ArchiveError Unit × Disk
  /-- Whether a character stands for a byte of an argument that belongs to no character. It cannot be
  written into a file. -/
  isStray : Char → Bool
  /-- Whether the encoding of the output stream has a character. -/
  outHas : Char → Bool
  /-- Whether the output stream is a terminal. -/
  outIsTerminal : Bool
  /-- Whether the error stream is a terminal. -/
  errIsTerminal : Bool

/-- The usual host: all arguments are texts, and the streams are recorded. -/
instance : Host where
  extract := ArchiveFormat.extract
  isStray _ := false
  outHas _ := true
  outIsTerminal := false
  errIsTerminal := false

variable [Host]

namespace Host

/-- Whether a text can be written into a file. -/
def encodes (text : String) : Bool := text.toList.all (!isStray ·)

/-- What the output stream shows of a text: colours are for terminals. -/
def onOut (text : String) : String := if outIsTerminal then text else Text.uncoloured text

/-- Whether the output stream can show a text. -/
def canShow (text : String) : Bool := (onOut text).toList.all outHas

/-- What the error stream shows of a text. -/
def onErr (text : String) : String := if errIsTerminal then text else Text.uncoloured text

end Host

/-- Unpacks the file at a path into the scratch folder, which is made first. If that fails, the folder
stays with whatever stands in it by then; only a file that announces no format leaves nothing. -/
def Disk.unpack (d : Disk) (scratch source : Path) (content : FileContent) :
    Except ArchiveError Unit × Disk :=
  match ArchiveFormat.ofName? source.name with
  | none => (.error (.unknownFormat (suffix source.name)), (d.put scratch .folder).remove scratch)
  | some format =>
    let (result, inner) := Host.extract format content
    (result, d.graft scratch inner)

end GraphDoc
