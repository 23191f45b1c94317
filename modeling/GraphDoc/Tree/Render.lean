import GraphDoc.Number.Integer
import GraphDoc.Number.Shortest
import GraphDoc.Text.Quoted
import GraphDoc.Text.UpperCase
import GraphDoc.Tree.Entries

/-!
# Printing trees

`Tree.render` turns a tree into document text. The indent reaches selections and the definitions that
hold them; values, types and the type system are printed without it.

Printing stops at the first fault it meets. Parts are visited in the order of the text, with three
exceptions: a default is visited before the type it follows, the values of an enum before its
directives, and the names of a union's members before its directives.
-/

namespace GraphDoc

/-- Why a tree has no text. -/
inductive RenderError
  /-- A thing of unknown kind. -/
  | unsupported (kind display : String)
  /-- An infinity or a NaN. -/
  | notFinite
  /-- An integer of more digits than may be written. -/
  | tooManyDigits
  /-- A child lacks the part that is printed of it. -/
  | missingPart (kind part : String)
  /-- A union member whose name is left empty. -/
  | unnamedMember (index : Nat)
deriving DecidableEq

/-- The outcome of printing. -/
abbrev Rendered := Except RenderError

/-- What printing depends on besides the tree. -/
class Surroundings where
  /-- The most decimal digits an integer may have in print; zero lifts the limit. -/
  limit : Nat

/-- The usual surroundings. -/
instance : Surroundings where
  limit := digitLimit

namespace Surroundings

/-- Whether the integer has more digits than may be written. -/
def isTooLong [Surroundings] (n : Int) : Bool :=
  0 < limit && limit < (Nat.toDigits 10 n.natAbs).length

end Surroundings

section

variable [Surroundings]

/-- What a message says of the fault. -/
def RenderError.message : RenderError → String
  | .unsupported kind display => "Cannot render node of type " ++ kind ++ ": " ++ display
  | .notFinite => "Out of range float values are not JSON compliant"
  | .tooManyDigits =>
    s!"Exceeds the limit ({Surroundings.limit} digits) for integer string conversion; " ++
      "use sys.set_int_max_str_digits() to increase the limit"
  | .missingPart kind part =>
    "'" ++ kind ++ "' object has no attribute '" ++ part ++ "'"
  | .unnamedMember index => s!"sequence item {index}: expected str instance, NoneType found"

namespace Layout

/-- What one level of nesting adds to the indent. -/
def step : String := "  "

/-- Items in a row. -/
def commaList (items : List String) : String := ", ".intercalate items

/-- A parenthesised row, left out when there are no items. -/
def parens (items : List String) : String :=
  if items.isEmpty then "" else "(" ++ commaList items ++ ")"

/-- Directives, each behind a space. -/
def directives (items : List String) : String := String.join (items.map (" " ++ ·))

/-- Selections in braces, a line each, left out when there are none. -/
def selections (indent : String) (items : List String) : String :=
  if items.isEmpty then ""
  else " \x7b\n" ++ String.join (items.map (· ++ "\n")) ++ indent ++ "\x7d"

/-- The block of a type definition, a line for each field. -/
def fields (items : List String) : String :=
  " \x7b\n" ++ String.join (items.map (step ++ · ++ "\n")) ++ "\x7d"

/-- An object literal. -/
def object (entries : List String) : String := "\x7b" ++ commaList entries ++ "\x7d"

/-- A type condition. -/
def condition (type : String) : String := " on " ++ type

/-- A default value. -/
def default (value : String) : String := " = " ++ value

/-- The root types of a schema whose names go without saying. -/
def defaultRoots : List String := ["Query", "Mutation", "Subscription"]

/-- A schema block. It is left out when every root is absent or has its default name. -/
def schema (query mutation subscription : Option String) : String :=
  let roots := [query, mutation, subscription]
  if (roots.zip defaultRoots).all fun (root, usual) => root.isNone || root == some usual then ""
  else
    let line (operation : String) (root : Option String) : String :=
      match root with
      | none => ""
      | some type => if type = "" then "" else step ++ operation ++ ": " ++ type ++ "\n"
    "schema \x7b\n" ++ line "query" query ++ line "mutation" mutation ++
      line "subscription" subscription ++ "\x7d"

/-- Definitions with a blank line between them; those without text leave no gap. -/
def document (definitions : List String) : String :=
  "\n\n".intercalate (definitions.filter (· ≠ ""))

end Layout

namespace Key

/-- The text of a key. -/
def text : Key → Rendered String
  | .none => .ok "None"
  | .bool b => .ok (if b then "True" else "False")
  | .int n => if Surroundings.isTooLong n then .error .tooManyDigits else .ok (Integer.text n)
  | .float x => .ok x.text
  | .str s => .ok s

end Key

namespace Tree

/-- The name that a union prints for one of its members. -/
def memberName (t : Tree) : Rendered (Option String) :=
  match t.nameSlot with
  | some name => .ok name
  | Option.none => .error (.missingPart t.kindName "name")

/-- The names that a union prints for its members. All are read before an empty one is refused. -/
def memberNames (members : List Tree) : Rendered (List String) := do
  let names ← members.mapM memberName
  names.zipIdx.mapM fun (name, index) =>
    match name with
    | some name => .ok name
    | Option.none => .error (.unnamedMember index)

/-- The entries of a map in print. -/
def entryTexts (entries : List (Key × Rendered String)) : Rendered (List String) :=
  (mergeEntries Key.same entries).mapM fun (key, value) => do
    let key ← key.text
    return key ++ ": " ++ (← value)

mutual

/-- The text of a tree. The indent stands in front of a selection, an operation or a fragment, and
in front of the selections inside them. -/
def render : Tree → String → Rendered String
  | .none, _ | .nullValue, _ => return "null"
  | .bool b, _ => return if b then "true" else "false"
  | .int n, _ =>
    if Surroundings.isTooLong n then throw .tooManyDigits else return Integer.text n
  | .float x, _ => if x.isFinite then return x.text else throw .notFinite
  | .str s, _ => return Text.quote s
  | .seq ⟨_, items⟩, _ => return "[" ++ Layout.commaList (← renderAll items "") ++ "]"
  | .map entries, _ => return Layout.object (← entryTexts (renderEntries entries))
  | .symbol _ member, _ => return Text.capitalize member.name
  | .foreign kind thing, _ => throw (.unsupported kind thing.display)
  | .derived derivation of, indent =>
    match of.base with
    | .foreign _ thing => throw (.unsupported derivation.name thing.display)
    | _ => render of indent
  | .floatValue text, _ => return text
  | .enumValue name, _ => return name
  | .variable name, _ => return "$" ++ name
  | .argument name value, _ => return name ++ ": " ++ (← render value "")
  | .inputObject ⟨_, arguments⟩, _ => do
    let entries ← renderArguments arguments
    return Layout.object (← entryTexts entries)
  | .directive name ⟨_, arguments⟩, _ =>
    return "@" ++ name ++ Layout.parens (← renderAll arguments "")
  | .typeName name, _ => return name
  | .listType of, _ => return "[" ++ (← render of "") ++ "]"
  | .nonNullType of, _ => return (← render of "") ++ "!"
  | .field name aliasName ⟨_, arguments⟩ ⟨_, directives⟩ ⟨_, selections⟩, indent => do
    let arguments ← renderAll arguments ""
    let directives ← renderAll directives ""
    let selections ← renderAll selections (indent ++ Layout.step)
    let aliasName := match aliasName with
      | some aliasName => if aliasName = "" then "" else aliasName ++ ": "
      | Option.none => ""
    return indent ++ aliasName ++ name ++ Layout.parens arguments ++ Layout.directives directives ++
      Layout.selections indent selections
  | .fragmentSpread name ⟨_, directives⟩, indent =>
    return indent ++ "..." ++ name ++ Layout.directives (← renderAll directives "")
  | .inlineFragment type ⟨_, directives⟩ ⟨_, selections⟩, indent => do
    let condition ← if type.isGiven then Layout.condition <$> render type "" else pure ""
    let directives ← renderAll directives ""
    let selections ← renderAll selections (indent ++ Layout.step)
    return indent ++ "..." ++ condition ++ Layout.directives directives ++
      Layout.selections indent selections
  | .variableDefinition name type default, _ => do
    let default ← match default with
      | .none => pure ""
      | default => Layout.default <$> render default ""
    return "$" ++ name ++ ": " ++ (← render type "") ++ default
  | .operation kind name ⟨_, vars⟩ ⟨_, directives⟩ ⟨_, selections⟩, indent => do
    let vars ← renderAll vars ""
    let directives ← renderAll directives ""
    let selections ← renderAll selections (indent ++ Layout.step)
    let name := match name with
      | some name => if name = "" then "" else " " ++ name
      | Option.none => ""
    return indent ++ kind ++ name ++ Layout.parens vars ++ Layout.directives directives ++
      Layout.selections indent selections
  | .fragment name type ⟨_, directives⟩ ⟨_, selections⟩, indent => do
    let condition ← if type.isGiven then Layout.condition <$> render type "" else pure ""
    let directives ← renderAll directives ""
    let selections ← renderAll selections (indent ++ Layout.step)
    return indent ++ "fragment " ++ name ++ condition ++ Layout.directives directives ++
      Layout.selections indent selections
  | .schema query mutation subscription _, _ => return Layout.schema query mutation subscription
  | .inputValue name type default ⟨_, directives⟩ _, _ => do
    let default ← match default with
      | .none => pure ""
      | default => Layout.default <$> render default ""
    let type ← render type ""
    return name ++ ": " ++ type ++ default ++ Layout.directives (← renderAll directives "")
  | .fieldDefinition name type ⟨_, arguments⟩ ⟨_, directives⟩ _, _ => do
    let arguments ← renderAll arguments ""
    let type ← render type ""
    return name ++ Layout.parens arguments ++ ": " ++ type ++
      Layout.directives (← renderAll directives "")
  | .scalarType name ⟨_, directives⟩ _, _ =>
    return "scalar " ++ name ++ Layout.directives (← renderAll directives "")
  | .objectType name ⟨_, fields⟩ ⟨_, interfaces⟩ ⟨_, directives⟩ _, _ => do
    let directives ← renderAll directives ""
    let fields ← renderAll fields ""
    let implements :=
      if interfaces.isEmpty then "" else " implements " ++ Layout.commaList interfaces
    return "type " ++ name ++ Layout.directives directives ++ implements ++ Layout.fields fields
  | .interfaceType name ⟨_, fields⟩ ⟨_, directives⟩ _, _ => do
    let directives ← renderAll directives ""
    return "interface " ++ name ++ Layout.directives directives ++
      Layout.fields (← renderAll fields "")
  | .unionType name ⟨_, members⟩ ⟨_, directives⟩ _, _ => do
    let members ← memberNames members
    return "union " ++ name ++ Layout.directives (← renderAll directives "") ++ " = " ++
      " | ".intercalate members
  | .enumValueDefinition name ⟨_, directives⟩ _, _ =>
    return Layout.step ++ name ++ Layout.directives (← renderAll directives "") ++ "\n"
  | .enumType name ⟨_, values⟩ ⟨_, directives⟩ _, _ => do
    let values ← renderAll values ""
    return "enum " ++ name ++ Layout.directives (← renderAll directives "") ++ " \x7b\n" ++
      String.join values ++ "\x7d"
  | .inputType name ⟨_, fields⟩ ⟨_, directives⟩ _, _ => do
    let directives ← renderAll directives ""
    return "input " ++ name ++ Layout.directives directives ++
      Layout.fields (← renderAll fields "")
  | .directiveDefinition name ⟨_, locations⟩ ⟨_, arguments⟩ _, _ =>
    return "directive @" ++ name ++ Layout.parens (← renderAll arguments "") ++ " on " ++
      " | ".intercalate locations
  | .document ⟨_, definitions⟩, indent =>
    return Layout.document (← renderAll definitions indent)

/-- The texts of trees, in order. -/
def renderAll : List Tree → String → Rendered (List String)
  | [], _ => return []
  | t :: rest, indent => do
    let text ← render t indent
    return text :: (← renderAll rest indent)

/-- The entries of a map with the outcome of printing each value. -/
def renderEntries : List (Key × Tree) → List (Key × Rendered String)
  | [] => []
  | (key, value) :: rest => (key, render value "") :: renderEntries rest

/-- The name of an argument with the outcome of printing its value. Whatever has both will do. -/
def renderArgument : Tree → Rendered (Key × Rendered String)
  | .argument name value => return (.str name, render value "")
  | .symbol _ ⟨name, _, value⟩ => return (.str name, render value "")
  | .foreign _ ⟨_, _, some name, some value⟩ => return (Key.ofName name, render value "")
  | .derived derivation of =>
    match of.argument? with
    | some _ => renderArgument of
    | Option.none =>
      throw (.missingPart derivation.name (if of.nameSlot.isSome then "value" else "name"))
  | t => throw (.missingPart t.kindName (if t.nameSlot.isSome then "value" else "name"))

/-- The names of arguments with the outcome of printing each value. -/
def renderArguments : List Tree → Rendered (List (Key × Rendered String))
  | [] => return []
  | t :: rest => do
    let entry ← renderArgument t
    return entry :: (← renderArguments rest)

end

/-- Directives in print, each behind a space. -/
def renderDirectives (directives : List Tree) : Rendered String :=
  Layout.directives <$> renderAll directives ""

/-- A selection set in print, at the given indent. -/
def renderSelections (selections : List Tree) (indent : String) : Rendered String :=
  Layout.selections indent <$> renderAll selections (indent ++ Layout.step)

/-- The block of a type definition in print. -/
def renderFields (fields : List Tree) : Rendered String :=
  Layout.fields <$> renderAll fields ""

/-- The description of a node in print: descriptions are never printed. -/
def renderDescription (_ : Tree) : String := ""

/-- Whether the tree prints as nothing, as a schema block with default roots does. -/
def isSilent (t : Tree) : Bool :=
  match t.render "" with
  | .ok text => text == ""
  | .error _ => false

end Tree

end

end GraphDoc
