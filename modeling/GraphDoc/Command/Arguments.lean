import GraphDoc.Text.Quoted

/-!
# Command-line arguments

Options have a long name, and some a letter; they are flags or take a value. A long option's value
follows an equals sign or is the next argument; letters may be put together behind one dash, and the
value of the last may follow it at once. Two dashes end the options.
-/

namespace GraphDoc

/-- An option of a command. -/
structure OptionSpec where
  long : String
  letter : Option Char := none
  /-- What the value is called, if the option takes one. -/
  value? : Option String := none
  help : String

/-- Whether an option takes a value. -/
def OptionSpec.takesValue (o : OptionSpec) : Bool := o.value?.isSome

/-- How an option is shown on a help page. -/
def OptionSpec.shown (o : OptionSpec) : String :=
  (o.letter.map fun c => String.ofList ['-', c] ++ ", ").getD "" ++ o.long ++ (o.value?.map (" " ++ ·)).getD ""

/-- What is wrong with the arguments of a command. -/
inductive ArgumentError
  | noSuchOption (name : String)
  | valueMissing (name : String)
  | valueRefused (name : String)
deriving DecidableEq

/-- What a message says of the fault. -/
def ArgumentError.message : ArgumentError → String
  | .noSuchOption name => "No such option " ++ Text.display name ++ "."
  | .valueMissing name => "Option " ++ Text.display name ++ " requires an argument."
  | .valueRefused name => "Option " ++ Text.display name ++ " does not take a value."

/-- The arguments of a command, sorted: the options by their long names, in order and each with its
value, and what remains. -/
structure Arguments where
  options : List (String × String) := []
  rest : List String := []
deriving DecidableEq

namespace Arguments

/-- Whether an option is given. -/
def has (a : Arguments) (long : String) : Bool := (a.options.lookup long).isSome

/-- The value of an option; that of its last use if there are several. -/
def value? (a : Arguments) (long : String) : Option String := a.options.reverse.lookup long

/-- The arguments with options in front. -/
def withOptions (options : List (String × String)) (a : Arguments) : Arguments :=
  { a with options := options ++ a.options }

/-- What one argument says: the options it holds, and the option that wants the next argument as its
value, by the name it was given and its long name. -/
structure Reading where
  options : List (String × String) := []
  pending : Option (String × String) := none

/-- Reads letters put together behind one dash. -/
def readLetters (specs : List OptionSpec) : List Char → Except ArgumentError Reading
  | [] => .ok {}
  | c :: cs =>
    let name := String.ofList ['-', c]
    match specs.find? (·.letter == some c) with
    | none => .error (.noSuchOption name)
    | some spec =>
      if spec.takesValue then
        if cs.isEmpty then .ok { pending := some (name, spec.long) }
        else .ok { options := [(spec.long, String.ofList cs)] }
      else do
        let reading ← readLetters specs cs
        return { reading with options := (spec.long, "") :: reading.options }

/-- Reads an argument that starts with a dash. -/
def readOption (specs : List OptionSpec) (arg : List Char) : Except ArgumentError Reading :=
  let name := String.ofList (arg.takeWhile (· ≠ '='))
  let given : Option String :=
    match arg.dropWhile (· ≠ '=') with
    | [] => none
    | _ :: value => some (String.ofList value)
  match specs.find? (·.long == name) with
  | some spec =>
    match spec.takesValue, given with
    | true, some value => .ok { options := [(spec.long, value)] }
    | true, none => .ok { pending := some (name, spec.long) }
    | false, some _ => .error (.valueRefused name)
    | false, none => .ok { options := [(spec.long, "")] }
  | none =>
    if ['-', '-'].isPrefixOf arg then .error (.noSuchOption name)
    else readLetters specs (arg.drop 1)

/-- Whether an argument is read as an option. -/
def isOption (arg : List Char) : Bool := arg.head? == some '-' && 1 < arg.length

/-- Sorts the arguments of a command. Where options may not be mixed with other arguments, the first
of the others ends the options. -/
def parse (specs : List OptionSpec) (mixed : Bool) : List String → Except ArgumentError Arguments
  | [] => .ok {}
  | arg :: rest =>
    if arg = "--" then .ok { rest }
    else if isOption arg.toList then do
      let reading ← readOption specs arg.toList
      match reading.pending with
      | none => withOptions reading.options <$> parse specs mixed rest
      | some (name, long) =>
        match rest with
        | [] => throw (.valueMissing name)
        | value :: rest => withOptions (reading.options ++ [(long, value)]) <$> parse specs mixed rest
    else if mixed then do
      let others ← parse specs mixed rest
      return { others with rest := arg :: others.rest }
    else .ok { rest := arg :: rest }

end Arguments

end GraphDoc
