import GraphDoc.Command.Arguments
import GraphDoc.Hook
import GraphDoc.Host
import GraphDoc.Loader

/-!
# Sessions

A command runs in a session: it reads and changes the disk and writes to two streams. It may stop
early, because of its arguments, with a message, or with a failure that nobody catches; what it did
until then stays done.
-/

namespace GraphDoc

/-- Where a command runs. -/
structure Setting where
  /-- The working folder. -/
  folder : Path
  /-- A path where nothing stands yet, for unpacking an archive. -/
  scratch : Path

/-- What a command reads and changes. -/
structure Session where
  disk : Disk
  stdout : String := ""
  stderr : String := ""

/-- A failure that no command catches. -/
inductive Escape
  | integer (fault : IntegerFault)
  /-- Bytes that are no text, or a text that has no bytes. -/
  | undecodable
  | archive (error : ArchiveError)
  | disk (error : DiskError)
  | hook (error : HookError)
deriving DecidableEq

/-- Why a command stops early. -/
inductive Stop
  /-- Nothing is left to do. -/
  | finished
  /-- The arguments are wrong; the text goes to the error stream as it is. -/
  | usage (text : String)
  /-- The command gives up with a message. -/
  | refused (message : String)
  | escaped (failure : Escape)
deriving DecidableEq

/-- A piece of a command. -/
abbrev Action := ExceptT Stop (StateM Session)

variable [Host]

namespace Action

/-- Writes a line to the error stream. -/
def report (line : String) : Action Unit :=
  modify fun s => { s with stderr := s.stderr ++ Host.onErr (line ++ "\n") }

/-- Writes a line to the error stream as it is. -/
def log (line : String) : Action Unit := modify fun s => { s with stderr := s.stderr ++ line ++ "\n" }

/-- Gives up with a message. -/
def refuse {α : Type} (message : String) : Action α := throw (.refused message)

/-- Stops with a failure that nobody catches. -/
def escape {α : Type} (failure : Escape) : Action α := throw (.escaped failure)

/-- Writes a line to the output stream, or stops if it cannot be shown. -/
def print (line : String) : Action Unit := do
  if !Host.canShow (line ++ "\n") then escape .undecodable
  modify fun s => { s with stdout := s.stdout ++ Host.onOut (line ++ "\n") }

/-- Changes the disk, or stops if that is refused. -/
def changeDisk (change : Disk → Except DiskError Disk) : Action Unit := do
  match change (← get).disk with
  | .ok disk => modify fun s => { s with disk }
  | .error e => escape (.disk e)

/-- Writes a text into a file, which is emptied first. A text that cannot be written leaves it empty. -/
def saveText (path : Path) (text : String) : Action Unit := do
  changeDisk fun disk => disk.save path (.ofText "")
  if !Host.encodes text then escape .undecodable
  changeDisk fun disk => disk.write path (.ofText text)

end Action

/-- What a command comes to. -/
structure Outcome where
  exitCode : Nat
  stdout : String
  stderr : String
  escape : Option Escape := none
  disk : Disk

/-- Runs a command on a disk. -/
def Action.run (action : Action Unit) (disk : Disk) : Outcome :=
  let (result, s) := (ExceptT.run action).run { disk }
  let outcome : Outcome :=
    { exitCode := 0, stdout := s.stdout, stderr := s.stderr, disk := s.disk }
  match result with
  | .ok () | .error .finished => outcome
  | .error (.usage text) => { outcome with exitCode := 2, stderr := s.stderr ++ Host.onErr text }
  | .error (.refused message) =>
    { outcome with exitCode := 1, stderr := s.stderr ++ Host.onErr ("Error: " ++ message ++ "\n") }
  | .error (.escaped failure) => { outcome with exitCode := 1, escape := some failure }

end GraphDoc
