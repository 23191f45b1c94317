import GraphDoc.Syntax.Basic
import GraphDoc.Syntax.Parser

/-!
# The grammar of documents

One parser for each phrase of the language. Selection sets, list and object values and list types may
nest `maxDepth` levels deep, all kinds taken together; the phrases that nest take the number of levels
they may still open.
-/

namespace GraphDoc.Syntax

open GraphDoc.Parser

/-- How deep a document may nest. -/
def maxDepth : Nat := 200

/-! ## Types and values -/

/-- A type reference, given the parser for what stands between brackets. -/
def typeRefWith (inner : Parser TypeRef) : Parser TypeRef := do
  let bare ← do
    if ← skip .bracketL then
      let of ← inner
      expect .bracketR
      pure (TypeRef.list of)
    else TypeRef.named <$> name
  if ← skip .bang then return .nonNull bare else return bare

/-- A type reference. -/
def typeRef : (depth : Nat) → Parser TypeRef
  | 0 => typeRefWith tooDeep
  | depth + 1 => typeRefWith (typeRef depth)

/-- The value that a name stands for. -/
def valueOfName (word : String) : Value :=
  if word = "true" then .boolean true
  else if word = "false" then .boolean false
  else if word = "null" then .null
  else .enum word

/-- A variable where one is allowed. -/
def variableName : Parser String := do
  expect .dollar
  name

/-- Refuses the variable in front. -/
def refuseVariable : Parser Value := do
  let (_, place) ← head
  advance
  match ← peek with
  | .name text => fail place (.variableInConstant text)
  | _ => fail place (.unexpected (.punct .dollar))

/-- A field of an object value. -/
def objectField (inner : Parser Value) : Parser (String × Value) := do
  let key ← name
  expect .colon
  let value ← inner
  return (key, value)

/-- A value, given the parser for what stands inside lists and objects, unless the depth is used
up. -/
def valueWith (isConst : Bool) (inner : Option (Parser Value)) : Parser Value := do
  match ← peek with
  | .punct .bracketL =>
    match inner with
    | some inner => Value.list <$> any .bracketL inner .bracketR
    | none => tooDeep
  | .punct .braceL =>
    match inner with
    | some inner => Value.object <$> any .braceL (objectField inner) .braceR
    | none => tooDeep
  | .int text =>
    advance
    return .int text
  | .float text =>
    advance
    return .float text
  | .string value =>
    advance
    return .string ⟨value, false⟩
  | .blockString value =>
    advance
    return .string ⟨value, true⟩
  | .name word =>
    advance
    return valueOfName word
  | .punct .dollar => if isConst then refuseVariable else Value.variable <$> variableName
  | _ => unexpected

/-- A value. A constant holds no variable. -/
def value (isConst : Bool) : (depth : Nat) → Parser Value
  | 0 => valueWith isConst none
  | depth + 1 => valueWith isConst (some (value isConst depth))

/-! ## Arguments and directives -/

/-- An argument. -/
def argument (isConst : Bool) (depth : Nat) : Parser Argument := do
  let name ← name
  expect .colon
  let value ← value isConst depth
  return { name, value }

/-- The arguments in parentheses, if any. -/
def arguments (isConst : Bool) (depth : Nat) : Parser (List Argument) :=
  optionalMany .parenL (argument isConst depth) .parenR

/-- A directive. -/
def directive (isConst : Bool) (depth : Nat) : Parser Directive := do
  expect .at
  let name ← name
  let arguments ← arguments isConst depth
  return { name, arguments }

/-- The directives in front, if any. -/
def directives (isConst : Bool) (depth : Nat) : Parser (List Directive) :=
  itemsWhile (· = .punct .at) (directive isConst depth)

/-! ## Selections -/

/-- The name of a fragment, which is not the word `on`. -/
def fragmentName : Parser String := do
  if (← peek).value? = some "on" then unexpected else name

/-- A field, given the parser for its selection set. -/
def field (depth : Nat) (nested : Parser (List Selection)) : Parser Selection := do
  let first ← name
  let second ← do if ← skip .colon then some <$> name else pure none
  let arguments ← arguments false depth
  let directives ← directives false depth
  let selections ← do if (← peek) = .punct .braceL then some <$> nested else pure none
  match second with
  | some name => return .field (some first) name arguments directives selections
  | none => return .field none first arguments directives selections

/-- A fragment spread or an inline fragment, given the parser for selection sets. -/
def spread (depth : Nat) (nested : Parser (List Selection)) : Parser Selection := do
  expect .spread
  if ← skipKeyword "on" then
    let type ← name
    let directives ← directives false depth
    let selections ← nested
    return .inline (some type) directives (some selections)
  else
    match ← peek with
    | .name _ =>
      let name ← fragmentName
      let directives ← directives false depth
      return .spread name directives
    | _ =>
      let directives ← directives false depth
      let selections ← nested
      return .inline none directives (some selections)

/-- A selection, given the parser for selection sets. -/
def selection (depth : Nat) (nested : Parser (List Selection)) : Parser Selection := do
  if (← peek) = .punct .spread then spread depth nested else field depth nested

/-- A selection set. It may be empty. -/
def selectionSet : (depth : Nat) → Parser (List Selection)
  | 0 => tooDeep
  | depth + 1 => any .braceL (selection depth (selectionSet depth)) .braceR

/-! ## Parts shared by definitions -/

/-- The description in front, if any. -/
def description : Parser (Option StringLiteral) := do
  match ← peek with
  | .string value =>
    advance
    return some ⟨value, false⟩
  | .blockString value =>
    advance
    return some ⟨value, true⟩
  | _ => return none

/-- The default value behind an equals sign, if any. -/
def defaultValue : Parser (Option Value) := do
  if ← skip .equals then some <$> value true maxDepth else return none

/-- The directives of a definition in the type system. -/
def constDirectives : Parser (List Directive) := directives true maxDepth

/-- The kind of an operation. The token behind it is read before the word is judged. -/
def operationKind : Parser OperationKind := do
  let (_, place) ← head
  let word ← name
  let _ ← peek
  match OperationKind.ofKeyword? word with
  | some kind => return kind
  | none => fail place (.unexpected (.name word))

/-- A variable of an operation. -/
def variableDefinition : Parser VariableDefinition := do
  let description ← description
  let name ← variableName
  expect .colon
  let type ← typeRef maxDepth
  let default ← defaultValue
  let directives ← constDirectives
  return { description, name, type, default, directives }

/-- An argument of a field or directive definition, or a field of an input type. -/
def inputValue : Parser InputValue := do
  let description ← description
  let name ← name
  expect .colon
  let type ← typeRef maxDepth
  let default ← defaultValue
  let directives ← constDirectives
  return { description, name, type, default, directives }

/-- The arguments of a field or directive definition, if any. -/
def argumentDefinitions : Parser (List InputValue) := optionalMany .parenL inputValue .parenR

/-- A field of an object or interface type. -/
def fieldDefinition : Parser FieldDefinition := do
  let description ← description
  let name ← name
  let arguments ← argumentDefinitions
  expect .colon
  let type ← typeRef maxDepth
  let directives ← constDirectives
  return { description, name, arguments, type, directives }

/-- The fields of an object or interface type, if any. -/
def fieldDefinitions : Parser (List FieldDefinition) := optionalMany .braceL fieldDefinition .braceR

/-- The name of an enum value, which is none of `true`, `false` and `null`. -/
def enumValueName : Parser String := do
  if (← peek).value?.any (· ∈ ["true", "false", "null"]) then failHere .reservedName else name

/-- A value of an enum type. -/
def enumValueDefinition : Parser EnumValueDefinition := do
  let description ← description
  let name ← enumValueName
  let directives ← constDirectives
  return { description, name, directives }

/-- The values of an enum type, if any. -/
def enumValues : Parser (List EnumValueDefinition) :=
  optionalMany .braceL enumValueDefinition .braceR

/-- The interfaces of a type, if any. -/
def interfaces : Parser (List String) := do
  if ← skipKeyword "implements" then separated .amp name else return []

/-- The members of a union, if any. -/
def members : Parser (List String) := do
  if ← skip .equals then separated .pipe name else return []

/-- The fields of an input type, if any. -/
def inputFields : Parser (List InputValue) := optionalMany .braceL inputValue .braceR

/-- A root of a schema. -/
def root : Parser (OperationKind × String) := do
  let kind ← operationKind
  expect .colon
  let type ← name
  return (kind, type)

/-- The places where a directive may be used. -/
def locationNames : List String :=
  ["QUERY", "MUTATION", "SUBSCRIPTION", "FIELD", "FRAGMENT_DEFINITION", "FRAGMENT_SPREAD",
    "INLINE_FRAGMENT", "VARIABLE_DEFINITION", "FRAGMENT_VARIABLE_DEFINITION", "SCHEMA", "SCALAR",
    "OBJECT", "FIELD_DEFINITION", "ARGUMENT_DEFINITION", "INTERFACE", "UNION", "ENUM", "ENUM_VALUE",
    "INPUT_OBJECT", "INPUT_FIELD_DEFINITION", "DIRECTIVE_DEFINITION"]

/-- A place where a directive may be used. The token behind it is read before the word is judged. -/
def location : Parser String := do
  let (_, place) ← head
  let word ← name
  let _ ← peek
  if word ∈ locationNames then return word else fail place (.unexpected (.name word))

/-! ## Definitions -/

/-- A query that is only a selection set. -/
def shorthand : Parser Definition := do
  let selections ← selectionSet maxDepth
  return .operation { kind := .query, selections := some selections }

/-- An operation behind its description. -/
def operation (description : Option StringLiteral) : Parser Definition := do
  let kind ← operationKind
  let name ← do
    match ← peek with
    | .name _ => some <$> name
    | _ => pure none
  let vars ← optionalMany .parenL variableDefinition .parenR
  let directives ← directives false maxDepth
  let selections ← selectionSet maxDepth
  return .operation { description, kind, name, vars, directives, selections := some selections }

/-- A fragment behind its description. -/
def fragment (description : Option StringLiteral) : Parser Definition := do
  keyword "fragment"
  let name ← fragmentName
  keyword "on"
  let type ← Parser.name
  let directives ← directives false maxDepth
  let selections ← selectionSet maxDepth
  return .fragment { description, name, type := some type, directives, selections := some selections }

/-- A schema block behind its description. -/
def schema (description : Option StringLiteral) : Parser Definition := do
  keyword "schema"
  let directives ← constDirectives
  let roots ← many .braceL root .braceR
  return .schema { description, directives, roots }

/-- A scalar type behind its description. -/
def scalarType (description : Option StringLiteral) : Parser Definition := do
  keyword "scalar"
  let name ← name
  let directives ← constDirectives
  return .scalar { description, name, directives }

/-- The parts of an object or interface type behind its keyword. -/
def fieldsType (description : Option StringLiteral) : Parser FieldsType := do
  let name ← name
  let interfaces ← interfaces
  let directives ← constDirectives
  let fields ← fieldDefinitions
  return { description, name, interfaces, directives, fields }

/-- An object type behind its description. -/
def objectType (description : Option StringLiteral) : Parser Definition := do
  keyword "type"
  Definition.object <$> fieldsType description

/-- An interface type behind its description. -/
def interfaceType (description : Option StringLiteral) : Parser Definition := do
  keyword "interface"
  Definition.interface <$> fieldsType description

/-- A union type behind its description. -/
def unionType (description : Option StringLiteral) : Parser Definition := do
  keyword "union"
  let name ← name
  let directives ← constDirectives
  let members ← members
  return .union { description, name, directives, members }

/-- An enum type behind its description. -/
def enumType (description : Option StringLiteral) : Parser Definition := do
  keyword "enum"
  let name ← name
  let directives ← constDirectives
  let values ← enumValues
  return .enum { description, name, directives, values }

/-- An input type behind its description. -/
def inputType (description : Option StringLiteral) : Parser Definition := do
  keyword "input"
  let name ← name
  let directives ← constDirectives
  let fields ← inputFields
  return .input { description, name, directives, fields }

/-- A directive definition behind its description. -/
def directiveDefinition (description : Option StringLiteral) : Parser Definition := do
  keyword "directive"
  expect .at
  let name ← name
  let arguments ← argumentDefinitions
  let directives ← constDirectives
  let isRepeatable ← skipKeyword "repeatable"
  keyword "on"
  let locations ← separated .pipe location
  return .directive { description, name, arguments, directives, isRepeatable, locations }

/-- An extension of the given kind, which must have at least one of its optional parts. -/
def extensionWith (kind : ExtensionKind) (hasPart : Parser Bool) : Parser Definition := do
  advance
  if ← hasPart then return .extension kind else unexpected

/-- An extension. -/
def extension : Parser Definition := do
  keyword "extend"
  match ← peek with
  | .name "schema" => extensionWith .schema do
    let directives ← constDirectives
    let roots ← optionalMany .braceL root .braceR
    return !directives.isEmpty || !roots.isEmpty
  | .name "scalar" => extensionWith .scalar do
    let _ ← name
    let directives ← constDirectives
    return !directives.isEmpty
  | .name "type" => extensionWith .object do
    let parts ← fieldsType none
    return !parts.interfaces.isEmpty || !parts.directives.isEmpty || !parts.fields.isEmpty
  | .name "interface" => extensionWith .interface do
    let parts ← fieldsType none
    return !parts.interfaces.isEmpty || !parts.directives.isEmpty || !parts.fields.isEmpty
  | .name "union" => extensionWith .union do
    let _ ← name
    let directives ← constDirectives
    let members ← members
    return !directives.isEmpty || !members.isEmpty
  | .name "enum" => extensionWith .enum do
    let _ ← name
    let directives ← constDirectives
    let values ← enumValues
    return !directives.isEmpty || !values.isEmpty
  | .name "input" => extensionWith .input do
    let _ ← name
    let directives ← constDirectives
    let fields ← inputFields
    return !directives.isEmpty || !fields.isEmpty
  | .name "directive" => extensionWith .directive do
    expect .at
    let _ ← name
    let directives ← constDirectives
    return !directives.isEmpty
  | _ => unexpected

/-- The parser for the definition that a keyword starts, given the description in front of it. -/
def definitionOf? (description : Option StringLiteral) : String → Option (Parser Definition)
  | "query" | "mutation" | "subscription" => some (operation description)
  | "fragment" => some (fragment description)
  | "schema" => some (schema description)
  | "scalar" => some (scalarType description)
  | "type" => some (objectType description)
  | "interface" => some (interfaceType description)
  | "union" => some (unionType description)
  | "enum" => some (enumType description)
  | "input" => some (inputType description)
  | "directive" => some (directiveDefinition description)
  | _ => none

/-- A definition. -/
def definition : Parser Definition := do
  let (token, place) ← head
  if token = .punct .braceL then shorthand
  else
    let description ← description
    match ← peek with
    | .name word =>
      match definitionOf? description word with
      | some parser => parser
      | none =>
        if description.isSome then fail place .descriptionMisplaced
        else if word = "extend" then extension
        else unexpected
    | .punct .braceL => fail place .descriptionOnShorthand
    | _ => unexpected

/-- A document: one definition or more up to the end of the source. -/
def document : Parser Document := do
  let first ← definition
  let rest ← itemsWhile (· ≠ .endOfSource) definition
  return { definitions := first :: rest }

/-! ## Reading sources -/

/-- Reads a whole source as one phrase. -/
def read {α : Type} (phrase : Parser α) (source : String) : Except SyntaxError α := do
  let (result, _) ← (do
    let result ← phrase
    endOfSource
    return result : Parser α).run (Tape.ofSource source)
  return result

/-- Reads a document. -/
def Document.read (source : String) : Except SyntaxError Document := Syntax.read document source

/-- Reads a value. A constant holds no variable. -/
def Value.read (isConst : Bool) (source : String) : Except SyntaxError Value :=
  Syntax.read (value isConst maxDepth) source

/-- Reads a type reference. -/
def TypeRef.read (source : String) : Except SyntaxError TypeRef := Syntax.read (typeRef maxDepth) source

end GraphDoc.Syntax
