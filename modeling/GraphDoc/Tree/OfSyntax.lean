import GraphDoc.Number.Integer
import GraphDoc.Syntax.Grammar
import GraphDoc.Tree.Basic

/-!
# From syntax to print trees

`toTree` turns each phrase of a syntax tree into its print tree. Integers become numbers, a schema
block keeps the last type given to each root, and descriptions are kept in the type system only.
What a print tree cannot hold is refused: extensions, directives on variables and schema blocks,
interfaces of interfaces and repeatable directives.

Parts are converted in order and the first failure is reported. A construct that is refused is
refused before any of its parts is looked at.
-/

namespace GraphDoc

/-- The constructs that a print tree cannot hold. -/
inductive Construct
  | variableDirectives
  | schemaDirectives
  | interfaceInterfaces
  | repeatableDirective
deriving DecidableEq

/-- The construct as messages name it. -/
def Construct.describe : Construct → String
  | .variableDirectives => "directives on variable definitions"
  | .schemaDirectives => "directives on schema definitions"
  | .interfaceInterfaces => "interfaces implementing interfaces"
  | .repeatableDirective => "repeatable directives"

/-- Why a syntax tree has no print tree. -/
inductive ConversionError
  | badInteger (fault : IntegerFault)
  | unsupportedValue (kind : String)
  | unsupportedType (kind : String)
  | unsupportedSelection (kind : String)
  | unsupportedDefinition (kind : String)
  | unsupportedConstruct (owner : String) (construct : Construct)
deriving DecidableEq

/-- What a message says of the failure. -/
def ConversionError.message : ConversionError → String
  | .badInteger fault => fault.message
  | .unsupportedValue kind => "Unsupported value node: " ++ kind
  | .unsupportedType kind => "Unsupported type node: " ++ kind
  | .unsupportedSelection kind => "Unsupported selection node: " ++ kind
  | .unsupportedDefinition kind => "Unsupported definition: " ++ kind
  | .unsupportedConstruct owner construct =>
    "Unsupported construct in " ++ owner ++ ": " ++ construct.describe

namespace Syntax

/-- The outcome of a conversion. -/
abbrev Converted := Except ConversionError

/-- The name of an extension in messages. -/
def ExtensionKind.label : ExtensionKind → String
  | .schema => "SchemaExtensionNode"
  | .scalar => "ScalarTypeExtensionNode"
  | .object => "ObjectTypeExtensionNode"
  | .interface => "InterfaceTypeExtensionNode"
  | .union => "UnionTypeExtensionNode"
  | .enum => "EnumTypeExtensionNode"
  | .input => "InputObjectTypeExtensionNode"
  | .directive => "DirectiveExtensionNode"

/-- The text of a description. -/
def describe (description : Option StringLiteral) : Option String := description.map (·.value)

mutual

/-- The print tree of a value. -/
def Value.toTree : Value → Converted Tree
  | .variable name => return .variable name
  | .int text =>
    match Integer.read text with
    | .ok n => return .int n
    | .error fault => throw (.badInteger fault)
  | .float text => return .floatValue text
  | .string literal => return .str literal.value
  | .boolean b => return .bool b
  | .null => return .nullValue
  | .enum name => return .enumValue name
  | .list values => return .seq ⟨.list, ← Value.toTrees values⟩
  | .object fields => return .inputObject (.tuple (← Value.fieldTrees fields))
  | .other kind => throw (.unsupportedValue kind)

/-- The print trees of values. -/
def Value.toTrees : List Value → Converted (List Tree)
  | [] => return []
  | value :: rest => do
    let tree ← value.toTree
    return tree :: (← Value.toTrees rest)

/-- The print trees of the fields of an object value. -/
def Value.fieldTrees : List (String × Value) → Converted (List Tree)
  | [] => return []
  | (name, value) :: rest => do
    let tree ← value.toTree
    return .argument name tree :: (← Value.fieldTrees rest)

end

/-- The print tree of a default value; nothing if there is none. -/
def defaultTree : Option Value → Converted Tree
  | none => return .none
  | some value => value.toTree

/-- The print tree of a type reference. -/
def TypeRef.toTree : TypeRef → Converted Tree
  | .named name => return .typeName name
  | .list of => return .listType (← of.toTree)
  | .nonNull of => return .nonNullType (← of.toTree)
  | .other kind => throw (.unsupportedType kind)

/-- The print tree of an argument. -/
def Argument.toTree (a : Argument) : Converted Tree := return .argument a.name (← a.value.toTree)

/-- The print tree of a directive. -/
def Directive.toTree (d : Directive) : Converted Tree :=
  return .directive d.name (.tuple (← d.arguments.mapM Argument.toTree))

/-- The print trees of directives. -/
def directiveTrees (directives : List Directive) : Converted (Seq Tree) :=
  Seq.tuple <$> directives.mapM Directive.toTree

/-- The print tree of a type condition; nothing if there is none. -/
def conditionTree : Option String → Tree
  | none => .none
  | some name => .typeName name

mutual

/-- The print tree of a selection. -/
def Selection.toTree : Selection → Converted Tree
  | .field aliasName name arguments directives selections => do
    let arguments ← arguments.mapM Argument.toTree
    let directives ← directiveTrees directives
    let selections ← Selection.setTrees selections
    return .field name aliasName (.tuple arguments) directives selections
  | .spread name directives => return .fragmentSpread name (← directiveTrees directives)
  | .inline type directives selections => do
    let directives ← directiveTrees directives
    let selections ← Selection.setTrees selections
    return .inlineFragment (conditionTree type) directives selections
  | .other kind => throw (.unsupportedSelection kind)

/-- The print trees of a selection set. A missing set holds no selections. -/
def Selection.setTrees : Option (List Selection) → Converted (Seq Tree)
  | none => return .tuple []
  | some selections => return .tuple (← Selection.toTrees selections)

/-- The print trees of selections. -/
def Selection.toTrees : List Selection → Converted (List Tree)
  | [] => return []
  | selection :: rest => do
    let tree ← selection.toTree
    return tree :: (← Selection.toTrees rest)

end

/-- The print tree of a variable. -/
def VariableDefinition.toTree (v : VariableDefinition) : Converted Tree := do
  if !v.directives.isEmpty then
    throw (.unsupportedConstruct "VariableDefinitionNode" .variableDirectives)
  let type ← v.type.toTree
  let default ← defaultTree v.default
  return .variableDefinition v.name type default

/-- The print tree of an argument definition or input field. -/
def InputValue.toTree (v : InputValue) : Converted Tree := do
  let type ← v.type.toTree
  let default ← defaultTree v.default
  let directives ← directiveTrees v.directives
  return .inputValue v.name type default directives (describe v.description)

/-- The print tree of a field definition. -/
def FieldDefinition.toTree (f : FieldDefinition) : Converted Tree := do
  let type ← f.type.toTree
  let arguments ← f.arguments.mapM InputValue.toTree
  let directives ← directiveTrees f.directives
  return .fieldDefinition f.name type (.tuple arguments) directives (describe f.description)

/-- The print tree of an enum value. -/
def EnumValueDefinition.toTree (v : EnumValueDefinition) : Converted Tree :=
  return .enumValueDefinition v.name (← directiveTrees v.directives) (describe v.description)

/-- The print tree of an operation. -/
def Operation.toTree (o : Operation) : Converted Tree := do
  let vars ← o.vars.mapM VariableDefinition.toTree
  let directives ← directiveTrees o.directives
  let selections ← Selection.setTrees o.selections
  return .operation o.kind.keyword o.name (.tuple vars) directives selections

/-- The print tree of a fragment. -/
def Fragment.toTree (f : Fragment) : Converted Tree := do
  let directives ← directiveTrees f.directives
  let selections ← Selection.setTrees f.selections
  return .fragment f.name (conditionTree f.type) directives selections

/-- The type last given to a root. -/
def Schema.root? (s : Schema) (kind : OperationKind) : Option String :=
  (s.roots.findRev? (·.1 = kind)).map (·.2)

/-- The print tree of a schema block. -/
def Schema.toTree (s : Schema) : Converted Tree := do
  if !s.directives.isEmpty then
    throw (.unsupportedConstruct "SchemaDefinitionNode" .schemaDirectives)
  return .schema (s.root? .query) (s.root? .mutation) (s.root? .subscription)
    (describe s.description)

/-- The print tree of a scalar type. -/
def ScalarType.toTree (s : ScalarType) : Converted Tree :=
  return .scalarType s.name (← directiveTrees s.directives) (describe s.description)

/-- The print tree of an object type. -/
def FieldsType.toObjectTree (t : FieldsType) : Converted Tree := do
  let fields ← t.fields.mapM FieldDefinition.toTree
  let directives ← directiveTrees t.directives
  return .objectType t.name (.tuple fields) (.tuple t.interfaces) directives
    (describe t.description)

/-- The print tree of an interface type. -/
def FieldsType.toInterfaceTree (t : FieldsType) : Converted Tree := do
  if !t.interfaces.isEmpty then
    throw (.unsupportedConstruct t.name .interfaceInterfaces)
  let fields ← t.fields.mapM FieldDefinition.toTree
  let directives ← directiveTrees t.directives
  return .interfaceType t.name (.tuple fields) directives (describe t.description)

/-- The print tree of a union type. -/
def UnionType.toTree (u : UnionType) : Converted Tree :=
  return .unionType u.name (.tuple (u.members.map .typeName)) (← directiveTrees u.directives)
    (describe u.description)

/-- The print tree of an enum type. -/
def EnumType.toTree (e : EnumType) : Converted Tree := do
  let values ← e.values.mapM EnumValueDefinition.toTree
  let directives ← directiveTrees e.directives
  return .enumType e.name (.tuple values) directives (describe e.description)

/-- The print tree of an input type. -/
def InputType.toTree (t : InputType) : Converted Tree := do
  let fields ← t.fields.mapM InputValue.toTree
  let directives ← directiveTrees t.directives
  return .inputType t.name (.tuple fields) directives (describe t.description)

/-- The print tree of a directive definition. -/
def DirectiveDefinition.toTree (d : DirectiveDefinition) : Converted Tree := do
  if d.isRepeatable then throw (.unsupportedConstruct d.name .repeatableDirective)
  let arguments ← d.arguments.mapM InputValue.toTree
  return .directiveDefinition d.name (.tuple d.locations) (.tuple arguments)
    (describe d.description)

/-- The print tree of a definition. -/
def Definition.toTree : Definition → Converted Tree
  | .operation d => d.toTree
  | .fragment d => d.toTree
  | .schema d => d.toTree
  | .scalar d => d.toTree
  | .object d => d.toObjectTree
  | .interface d => d.toInterfaceTree
  | .union d => d.toTree
  | .enum d => d.toTree
  | .input d => d.toTree
  | .directive d => d.toTree
  | .extension kind => throw (.unsupportedDefinition kind.label)
  | .other kind => throw (.unsupportedDefinition kind)

/-- The print tree of a document. -/
def Document.toTree (d : Document) : Converted Tree :=
  return .document (.tuple (← d.definitions.mapM Definition.toTree))

/-- A phrase that can be converted on its own. -/
inductive Phrase
  | document (phrase : Document)
  | selection (phrase : Selection)
  | type (phrase : TypeRef)
  | argument (phrase : Argument)
  | directive (phrase : Directive)
  | variableDefinition (phrase : VariableDefinition)
  | fieldDefinition (phrase : FieldDefinition)
  | inputValue (phrase : InputValue)
  | enumValueDefinition (phrase : EnumValueDefinition)
  | value (phrase : Value)
  | definition (phrase : Definition)

/-- The print tree of a phrase. -/
def Phrase.toTree : Phrase → Converted Tree
  | .document p => p.toTree
  | .selection p => p.toTree
  | .type p => p.toTree
  | .argument p => p.toTree
  | .directive p => p.toTree
  | .variableDefinition p => p.toTree
  | .fieldDefinition p => p.toTree
  | .inputValue p => p.toTree
  | .enumValueDefinition p => p.toTree
  | .value p => p.toTree
  | .definition p => p.toTree

end Syntax

end GraphDoc
