import GraphDoc.Command.Help
import GraphDoc.Command.Session
import GraphDoc.Signature
import GraphDoc.Tree.Equality

/-!
# Commands

`print` prints a file, folder or archive of documents in canonical form, `check` makes sure that the
printed text reads back as the same document, and `signature` prints the digest of the text. `run`
takes the arguments of the whole command line.
-/

namespace GraphDoc.Command

open GraphDoc.Action

variable [Host]

/-! ## Loading -/

/-- The name under which a loader writes its log. -/
def logName : String := "gql_printer.core.parser"

/-- Writes the entries of a log that are wanted. -/
def writeLog (debug : Bool) (log : List LogEntry) : Action Unit :=
  (log.filter fun entry => debug || entry.level ≠ .debug).forM fun entry =>
    Action.log (entry.level.label ++ " " ++ logName ++ ": " ++ entry.message)

/-- Why a command stops if a file gives no document. Faults of a source are told under the name of the file. -/
def stopOf (currentFile : String) : LoadError → Stop
  | .undecodable => .escaped .undecodable
  | .parse _ (.conversion (.badInteger fault)) => .escaped (.integer fault)
  | .parse source e => .refused (currentFile ++ ": " ++ e.report source)

/-- Loads all documents at a path. -/
def loadFrom (debug verbose : Bool) (sourceName : String) (path : Path) : Action Tree := do
  if verbose then report ("Source: " ++ path.text)
  let load := Loader.load { path } (← get).disk
  writeLog debug load.log
  match load.document with
  | .error e => throw (stopOf load.loader.currentFile e)
  | .ok document =>
    if load.loader.files.isEmpty then refuse ("No GraphQL files found in " ++ sourceName)
    if verbose then report s!"  Definitions: {document.definitions.length}"
    return document

/-- Loads the documents of an archive, which is unpacked into the scratch folder. The folder is removed
whatever comes of the loading. -/
def loadArchive (setting : Setting) (debug verbose : Bool) (source : Path) (content : FileContent) :
    Action Tree := do
  report ("Extracting archive " ++ source.name ++ "...")
  let (unpacked, disk) := (← get).disk.unpack setting.scratch source content
  modify fun s => { s with disk }
  match unpacked with
  | .error e => escape (.archive e)
  | .ok () =>
    try
      if verbose then report ("  Extracted to: " ++ setting.scratch.text)
      loadFrom debug verbose source.name setting.scratch
    finally
      modify fun s => { s with disk := s.disk.remove setting.scratch }

/-- Loads a file, folder or archive into one document. -/
def load (setting : Setting) (debug verbose : Bool) (source : String) : Action Tree := do
  let path := Path.resolve setting.folder source
  match (← get).disk.file? path with
  | some content =>
    if (ArchiveFormat.ofName? path.name).isSome then loadArchive setting debug verbose path content
    else loadFrom debug verbose path.name path
  | none => loadFrom debug verbose path.name path

/-! ## The three commands -/

/-- What is wanted of a printing. -/
structure PrintOptions where
  output : Option String := none
  header : Option String := none
  excludePrefix : Option String := none
  verbose : Bool := false

/-- The hooks that a printing asks for. -/
def PrintOptions.pipeline (o : PrintOptions) : Pipeline :=
  { before := ((NameFilter.criterion? o.excludePrefix).map fun start =>
      Hook.filter { excludePrefix := some start }).toList
    after := ((NameFilter.criterion? o.header).map Hook.header).toList }

/-- Gives the result of a printing, or stops. -/
def orEscape {α : Type} (result : Except HookError α) : Action α :=
  match result with
  | .ok a => return a
  | .error e => escape (.hook e)

/-- The text of a tree, or stops. -/
def textOf (t : Tree) : Action String := orEscape ((t.render "").mapError .render)

/-- Prints a document in canonical form, to the output stream or to a file. -/
def print (setting : Setting) (debug : Bool) (source : String) (o : PrintOptions) : Action Unit := do
  let document ← load setting debug o.verbose source
  let text ← orEscape (o.pipeline.print document)
  match o.output with
  | none => Action.print text
  | some output =>
    let path := Path.resolve setting.folder output
    saveText path (text ++ "\n")
    if o.verbose then report s!"  Lines: {Text.countLines text.toList}"
    report ("Done! Wrote " ++ path.text)

/-- Checks that a printed document reads back as the same document and prints as the same text.
Definitions that print as nothing are not expected back. -/
def check (setting : Setting) (debug verbose : Bool) (source : String) : Action Unit := do
  let document ← load setting debug verbose source
  let text ← textOf document
  match parseDocument text with
  | .error (.conversion (.badInteger fault)) => escape (.integer fault)
  | .error e => refuse ("Printed document does not parse: " ++ e.report text)
  | .ok reread =>
    let expected := document.filterDefinitions fun t => !t.isSilent
    if !reread.same expected then refuse "Round trip mismatch: reparsed document differs"
    if (← textOf reread) ≠ text then refuse "Printing is not idempotent"
    if verbose then Action.print ("  Signature: " ++ Sha256.hex text)
    Action.print s!"OK: {expected.definitions.length} definitions round-trip"

/-- Prints the signature of a document. -/
def signature (setting : Setting) (debug : Bool) (source : String) : Action Unit := do
  let document ← load setting debug false source
  Action.print (Sha256.hex (← textOf document))

/-! ## The command line -/

/-- The name of the program. -/
def program : String := "gql-printer"

/-- The line that the version option prints. -/
def versionLine : String := program ++ ", version 0.1.0"

/-- The commands by name. -/
inductive Name
  | print
  | check
  | signature
deriving DecidableEq

/-- The word for a command. -/
def Name.word : Name → String
  | .print => "print"
  | .check => "check"
  | .signature => "signature"

/-- The command that a word names. -/
def Name.ofWord? (word : String) : Option Name := [Name.print, .check, .signature].find? (·.word == word)

/-- The option that asks for more output. -/
def verboseOption : OptionSpec :=
  { long := "--verbose", letter := some 'v', help := "Enable verbose output." }

/-- The option that asks for help. -/
def helpOption : OptionSpec := { long := "--help", help := "Show this message and exit." }

/-- The options of a command. -/
def Name.options : Name → List OptionSpec
  | .print =>
    [{ long := "--output", letter := some 'o', value? := some "PATH",
       help := "Write the printed document to this file instead of stdout." },
      { long := "--header", value? := some "TEXT",
        help := "Header line to put above the printed document (e.g. a # comment)." },
      { long := "--exclude-prefix", value? := some "TEXT",
        help := "Drop definitions whose names start with this prefix (e.g. __)." },
      verboseOption, helpOption]
  | .check => [verboseOption, helpOption]
  | .signature => [helpOption]

/-- The options in front of the command. -/
def programOptions : List OptionSpec :=
  [{ long := "--version", help := "Show the version and exit." },
    { long := "--debug", help := "Enable debug logging." }, helpOption]

/-- What a command does, in a sentence. -/
def Name.summary : Name → String
  | .print => "Print a GraphQL file, directory or archive in canonical form."
  | .check => "Check that printing round-trips through the parser."
  | .signature => "Print the query signature (SHA-256 of the printed document)."

/-- What else there is to say of a command. -/
def Name.details : Name → List (Nat × String)
  | .print =>
    [(2, "Examples:"), (6, "gql-printer print ./schema.graphqls"),
      (6, "gql-printer print ./schema --exclude-prefix __ -o ./dump.graphql"),
      (6, "gql-printer print ./queries.tgz --header \"# Generated - do not edit\"")]
  | .check =>
    [(2, "The printed document must parse back to the same tree, and printing that tree again must " ++
      "give the same text.")]
  | .signature => []

/-- How the program, or one of its commands, is used. -/
def usageLine : Option Name → String
  | none => "Usage: " ++ program ++ " [OPTIONS] COMMAND [ARGS]..."
  | some name => "Usage: " ++ program ++ " " ++ name.word ++ " [OPTIONS] SOURCE"

/-- The help page of the program, or of one of its commands. -/
def helpPage : Option Name → String
  | none =>
    HelpPage.text {
      usage := usageLine none
      paragraphs := [(2, "Print GraphQL documents from their AST."),
        (2, "Parse GraphQL sources and print them back in canonical form.")]
      options := programOptions
      commands := [Name.check, .print, .signature].map fun name => (name.word, name.summary) }
  | some name =>
    HelpPage.text {
      usage := usageLine (some name)
      paragraphs := (2, name.summary) :: name.details
      options := name.options }

/-- Where help on the program, or one of its commands, is found. -/
def helpHint (name : Option Name) : String :=
  let words := program ++ (name.map (" " ++ ·.word)).getD ""
  "Try '" ++ words ++ " --help' for help."

/-- Stops because of wrong arguments. -/
def misuse {α : Type} (name : Option Name) (message : String) : Action α :=
  throw (.usage (usageLine name ++ "\n" ++ helpHint name ++ "\n\nError: " ++ message ++ "\n"))

/-- Sorts arguments, or stops. A wrong value of an option is told without the usage. -/
def sortArguments (name : Option Name) (specs : List OptionSpec) (mixed : Bool)
    (args : List String) : Action Arguments :=
  match Arguments.parse specs mixed args with
  | .ok sorted => return sorted
  | .error (.noSuchOption option) => misuse name (ArgumentError.noSuchOption option).message
  | .error e => throw (.usage ("Error: " ++ e.message ++ "\n"))

/-- The source that a command is given, which must be there and the only one. -/
def sourceOf (setting : Setting) (name : Name) (rest : List String) : Action String := do
  match rest with
  | [] => misuse (some name) "Missing argument 'SOURCE'."
  | source :: others =>
    if !(← get).disk.reaches setting.folder source then
      misuse (some name)
        ("Invalid value for 'SOURCE': Path " ++ Text.display source ++ " does not exist.")
    if !others.isEmpty then
      let noun := if others.length = 1 then "argument" else "arguments"
      misuse (some name) ("Got unexpected extra " ++ noun ++ " (" ++ " ".intercalate others ++ ")")
    return source

/-- Runs a command with its own arguments. -/
def runNamed (setting : Setting) (debug : Bool) (name : Name) (args : List String) :
    Action Unit := do
  let sorted ← sortArguments (some name) name.options true args
  if sorted.has "--help" then
    Action.print (helpPage (some name))
    throw .finished
  let source ← sourceOf setting name sorted.rest
  let verbose := sorted.has "--verbose"
  match name with
  | .print =>
    print setting debug source
      { output := sorted.value? "--output", header := sorted.value? "--header",
        excludePrefix := sorted.value? "--exclude-prefix", verbose }
  | .check => check setting debug verbose source
  | .signature => signature setting debug source

/-- The answer to arguments that ask about the program itself: its version or its help page, whichever
they ask for first. -/
def programAnswer? (sorted : Arguments) : Option String :=
  sorted.options.findSome? fun option =>
    if option.1 = "--version" then some versionLine
    else if option.1 = "--help" then some (helpPage none)
    else none

/-- Sorts the arguments in front of the command, and answers at once if they ask about the program
itself. -/
def sortProgramArguments (args : List String) : Action Arguments := do
  let sorted ← sortArguments none programOptions false args
  match programAnswer? sorted with
  | some answer =>
    Action.print answer
    throw .finished
  | none => return sorted

/-- Runs the program with the arguments of its command line. Without any, its help page is shown. What
stands in place of a command and looks like an option is judged as an option first. -/
def runLine (setting : Setting) (args : List String) : Action Unit := do
  if args.isEmpty then throw (.usage (helpPage none ++ "\n"))
  let sorted ← sortProgramArguments args
  match sorted.rest with
  | [] => misuse none "Missing command."
  | word :: args =>
    match Name.ofWord? word with
    | some name => runNamed setting (sorted.has "--debug") name args
    | none =>
      let _ ← sortProgramArguments (word :: args)
      misuse none ("No such command " ++ Text.display word ++ ".")

/-- The paths, as written, that the arguments of the command line speak of: the source and the output. -/
def mentioned (args : List String) : List String :=
  let found : Except ArgumentError (List String) := do
    match (← Arguments.parse programOptions false args).rest with
    | [] => return []
    | word :: args =>
      match Name.ofWord? word with
      | none => return []
      | some name =>
        let sorted ← Arguments.parse name.options true args
        return sorted.rest.take 1 ++ (sorted.value? "--output").toList
  found.toOption.getD []

/-- What the program comes to on a disk, given the arguments of its command line. -/
def run (setting : Setting) (disk : Disk) (args : List String) : Outcome :=
  (runLine setting args).run disk

end GraphDoc.Command
