import GraphDoc.Disk.Basic
import GraphDoc.Document
import GraphDoc.Text.Parts

/-!
# Loading documents

A loader reads all document files at a path, in the order of their whole paths, into one document. It
keeps a log, and remembers the files of its last run and the file it looked at last. The first file
that cannot be read ends the run without a document.
-/

namespace GraphDoc

/-- How much a log entry matters. -/
inductive LogLevel
  | debug
  | warning
  | error
deriving DecidableEq

/-- The level as a log shows it. -/
def LogLevel.label : LogLevel → String
  | .debug => "DEBUG"
  | .warning => "WARNING"
  | .error => "ERROR"

/-- A line of a log. -/
structure LogEntry where
  level : LogLevel
  message : String
deriving DecidableEq

/-- Why a file gives no document. -/
inductive LoadError
  /-- Its bytes are not a text. -/
  | undecodable
  /-- Its text is not a document. -/
  | parse (source : String) (error : ParseError)
deriving DecidableEq

/-- A loader, with what its last run left in it. -/
structure Loader where
  path : Path
  files : List Path := []
  currentFile : String := ""
deriving DecidableEq

/-- The endings of document files. -/
def documentEndings : List String := [".graphql", ".graphqls", ".gql"]

/-- Whether a file name is that of a document. -/
def isDocumentName (name : String) : Bool := documentEndings.any (Text.endsWithSmall name)

/-- What a run of a loader comes to. -/
structure Load where
  document : Except LoadError Tree
  loader : Loader
  log : List LogEntry

namespace Loader

/-- Orders paths by their written form. -/
def precedes (p q : Path) : Bool := decide (p.text ≤ q.text)

/-- The document files at a path: the file itself, or all below a folder, in order. -/
def collect (d : Disk) (p : Path) : List Path :=
  if d.isFile p then (if isDocumentName p.text then [p] else [])
  else
    (((d.filesBelow p).map (·.1)).filter fun q => isDocumentName q.name).mergeSort precedes

/-- What reading files comes to: the definitions, the file looked at last, and the log. -/
structure Progress where
  definitions : Except LoadError (List Tree)
  currentFile : String
  log : List LogEntry

/-- The progress with one more entry in front of its log. -/
def Progress.logFirst (entry : LogEntry) (p : Progress) : Progress := { p with log := entry :: p.log }

/-- The progress with more definitions in front, if there are any at all. -/
def Progress.define (definitions : List Tree) (p : Progress) : Progress :=
  { p with definitions := p.definitions.map (definitions ++ ·) }

/-- Reads files in order up to the first that fails. -/
def readFiles (d : Disk) (currentFile : String) : List Path → Progress
  | [] => ⟨.ok [], currentFile, []⟩
  | p :: rest =>
    Progress.logFirst ⟨.debug, "Parsing " ++ p.text⟩ <|
      match (d.file? p).bind FileContent.text? with
      | none => ⟨.error .undecodable, p.name, []⟩
      | some source =>
        match parseDocument source with
        | .error e =>
          ⟨.error (.parse source e), p.name,
            [⟨.error, "Error parsing " ++ p.name ++ ": " ++ e.report source⟩]⟩
        | .ok t => (readFiles d p.name rest).define t.definitions

/-- Loads all document files at the loader's path into one document. -/
def load (l : Loader) (d : Disk) : Load :=
  let files := collect d l.path
  let warning : List LogEntry :=
    if files.isEmpty then [⟨.warning, "No GraphQL files found at " ++ l.path.text⟩] else []
  let progress := readFiles d l.currentFile files
  { document := progress.definitions.map fun definitions => .document (.tuple definitions)
    loader := { l with files, currentFile := progress.currentFile }
    log := warning ++ progress.log }

end Loader

end GraphDoc
