import GraphDoc.Number.Binary64

/-!
# Print trees

A print tree is what a document is printed from. It is open on purpose: any tree may stand in any
child position, so that a value can be given where a definition is expected and the printer decides
what becomes of it. Plain values (numbers, texts, sequences, maps) stand beside the nodes for types,
selections and definitions. A kind derived from another adds nothing to it but its name.

An absent type condition and an absent default are both `Tree.none`, as is the missing value itself.
-/

namespace GraphDoc

/-- The two forms of a sequence. They print alike and are never equal. -/
inductive SeqForm
  | list
  | tuple
deriving DecidableEq

/-- A sequence in one of the two forms. -/
structure Seq (α : Type) where
  form : SeqForm := .tuple
  items : List α
deriving DecidableEq

/-- The tuple of the given items. -/
def Seq.tuple {α : Type} (items : List α) : Seq α := ⟨.tuple, items⟩

/-- What a symbol's kind was built on; it leaves no trace in print. -/
inductive SymbolBase
  | plain
  | integer
  | text
deriving DecidableEq

/-- A key of a map. -/
inductive Key
  | none
  | bool (value : Bool)
  | int (value : Int)
  | float (value : Binary64)
  | str (value : String)
deriving DecidableEq

/-- A kind derived from a built-in one. Two derivations are the same only if their numbers are. -/
structure Derivation where
  number : Nat
  name : String
deriving DecidableEq

/-- A member of an enumeration. -/
structure Symbol (α : Type) where
  name : String
  /-- Whether it counts as given: a symbol built on an integer or a text may not. -/
  isGiven : Bool := true
  /-- What it carries. -/
  value : α

/-- A thing of unknown kind, by what can be asked of it. -/
structure Thing (α : Type) where
  /-- How messages show it. -/
  display : String
  /-- Whether it counts as given. -/
  isGiven : Bool := true
  /-- Its name slot: `none` if it has no name, `some none` if it has one that is left empty. -/
  nameSlot : Option (Option String) := none
  /-- Its value, if it has one. -/
  value : Option α := none

/-- A print tree. -/
inductive Tree
  -- plain values
  | none
  | bool (value : Bool)
  | int (value : Int)
  | float (value : Binary64)
  | str (value : String)
  | seq (items : Seq Tree)
  | map (entries : List (Key × Tree))
  | symbol (base : SymbolBase) (of : Symbol Tree)
  /-- A thing the printer knows nothing about, with the name of its kind. -/
  | foreign (kind : String) (of : Thing Tree)
  /-- The same thing under a kind of its own. -/
  | derived (derivation : Derivation) (of : Tree)
  -- value nodes
  | nullValue
  | floatValue (text : String)
  | enumValue (name : String)
  | variable (name : String)
  | argument (name : String) (value : Tree)
  | inputObject (arguments : Seq Tree)
  | directive (name : String) (arguments : Seq Tree)
  -- types
  | typeName (name : String)
  | listType (of : Tree)
  | nonNullType (of : Tree)
  -- executable definitions and their parts
  | field (name : String) (aliasName : Option String) (arguments directives selections : Seq Tree)
  | fragmentSpread (name : String) (directives : Seq Tree)
  | inlineFragment (type : Tree) (directives selections : Seq Tree)
  | variableDefinition (name : String) (type default : Tree)
  | operation (kind : String) (name : Option String) (vars directives selections : Seq Tree)
  | fragment (name : String) (type : Tree) (directives selections : Seq Tree)
  -- type system definitions and their parts
  | schema (query mutation subscription : Option String) (description : Option String)
  | inputValue (name : String) (type default : Tree) (directives : Seq Tree)
      (description : Option String)
  | fieldDefinition (name : String) (type : Tree) (arguments directives : Seq Tree)
      (description : Option String)
  | scalarType (name : String) (directives : Seq Tree) (description : Option String)
  | objectType (name : String) (fields : Seq Tree) (interfaces : Seq String)
      (directives : Seq Tree) (description : Option String)
  | interfaceType (name : String) (fields directives : Seq Tree) (description : Option String)
  | unionType (name : String) (members directives : Seq Tree) (description : Option String)
  | enumValueDefinition (name : String) (directives : Seq Tree) (description : Option String)
  | enumType (name : String) (values directives : Seq Tree) (description : Option String)
  | inputType (name : String) (fields directives : Seq Tree) (description : Option String)
  | directiveDefinition (name : String) (locations : Seq String) (arguments : Seq Tree)
      (description : Option String)
  | document (definitions : Seq Tree)

/-- A name alone makes a symbol that carries it. -/
instance : Coe String (Symbol Tree) := ⟨fun name => { name, value := .str name }⟩

instance : Coe (Symbol Tree) String := ⟨Symbol.name⟩

/-- A display form alone makes a thing that has neither a name nor a value. -/
instance : Coe String (Thing Tree) := ⟨fun display => { display }⟩

instance : Coe (Thing Tree) String := ⟨Thing.display⟩

namespace Tree

/-- The kinds of nodes, as opposed to plain values. -/
inductive Kind
  | nullValue | floatValue | enumValue | variable | argument | inputObject | directive
  | typeName | listType | nonNullType
  | field | fragmentSpread | inlineFragment | variableDefinition | operation | fragment
  | schema | inputValue | fieldDefinition | scalarType | objectType | interfaceType | unionType
  | enumValueDefinition | enumType | inputType | directiveDefinition | document
deriving DecidableEq

/-- The name of a node kind in messages. -/
def Kind.label : Kind → String
  | .nullValue => "NullValue"
  | .floatValue => "FloatValue"
  | .enumValue => "EnumValue"
  | .variable => "VariableIdentifier"
  | .argument => "Argument"
  | .inputObject => "InputObject"
  | .directive => "Directive"
  | .typeName => "TypeName"
  | .listType => "ListType"
  | .nonNullType => "NonNullType"
  | .field => "Field"
  | .fragmentSpread => "FragmentSpread"
  | .inlineFragment => "InlineFragment"
  | .variableDefinition => "VariableDefinition"
  | .operation => "OperationDefinition"
  | .fragment => "FragmentDefinition"
  | .schema => "SchemaDefinition"
  | .inputValue => "InputValueDefinition"
  | .fieldDefinition => "FieldDefinition"
  | .scalarType => "ScalarTypeDefinition"
  | .objectType => "ObjectTypeDefinition"
  | .interfaceType => "InterfaceTypeDefinition"
  | .unionType => "UnionTypeDefinition"
  | .enumValueDefinition => "EnumValueDefinition"
  | .enumType => "EnumTypeDefinition"
  | .inputType => "InputObjectTypeDefinition"
  | .directiveDefinition => "DirectiveDefinition"
  | .document => "Document"

/-- The kind of thing a tree is, as messages name it. -/
def kindName : Tree → String
  | .none => "NoneType"
  | .bool _ => "bool"
  | .int _ => "int"
  | .float _ => "float"
  | .str _ => "str"
  | .seq ⟨.list, _⟩ => "list"
  | .seq ⟨.tuple, _⟩ => "tuple"
  | .map _ => "dict"
  | .symbol .plain _ => "Enum"
  | .symbol .integer _ => "IntEnum"
  | .symbol .text _ => "StrEnum"
  | .foreign kind _ => kind
  | .derived derivation _ => derivation.name
  | .nullValue => Kind.nullValue.label
  | .floatValue .. => Kind.floatValue.label
  | .enumValue .. => Kind.enumValue.label
  | .variable .. => Kind.variable.label
  | .argument .. => Kind.argument.label
  | .inputObject .. => Kind.inputObject.label
  | .directive .. => Kind.directive.label
  | .typeName .. => Kind.typeName.label
  | .listType .. => Kind.listType.label
  | .nonNullType .. => Kind.nonNullType.label
  | .field .. => Kind.field.label
  | .fragmentSpread .. => Kind.fragmentSpread.label
  | .inlineFragment .. => Kind.inlineFragment.label
  | .variableDefinition .. => Kind.variableDefinition.label
  | .operation .. => Kind.operation.label
  | .fragment .. => Kind.fragment.label
  | .schema .. => Kind.schema.label
  | .inputValue .. => Kind.inputValue.label
  | .fieldDefinition .. => Kind.fieldDefinition.label
  | .scalarType .. => Kind.scalarType.label
  | .objectType .. => Kind.objectType.label
  | .interfaceType .. => Kind.interfaceType.label
  | .unionType .. => Kind.unionType.label
  | .enumValueDefinition .. => Kind.enumValueDefinition.label
  | .enumType .. => Kind.enumType.label
  | .inputType .. => Kind.inputType.label
  | .directiveDefinition .. => Kind.directiveDefinition.label
  | .document .. => Kind.document.label

/-- The name slot of a tree: `none` if its kind has no name, `some none` if it has one that is left
empty, as in an anonymous operation. -/
def nameSlot : Tree → Option (Option String)
  | .symbol _ member => some (some member.name)
  | .foreign _ thing => thing.nameSlot
  | .enumValue name | .variable name | .argument name _ | .directive name _
  | .typeName name | .field name .. | .fragmentSpread name _ | .variableDefinition name _ _
  | .fragment name .. | .inputValue name .. | .fieldDefinition name .. | .scalarType name ..
  | .objectType name .. | .interfaceType name .. | .unionType name .. | .enumValueDefinition name ..
  | .enumType name .. | .inputType name .. | .directiveDefinition name .. => some (some name)
  | .operation _ name .. => some name
  | .derived _ of => of.nameSlot
  | _ => Option.none

/-- The name of a tree, if it has one. -/
def name? (t : Tree) : Option String := t.nameSlot.join

/-- The tree without the kinds derived around it. -/
def base : Tree → Tree
  | .derived _ of => of.base
  | t => t

/-- Whether the tree counts as given: nothing, falsehood, zero and empty texts and collections do
not; every node does. Symbols and things of unknown kind say so themselves. -/
def isGiven : Tree → Bool
  | .none => false
  | .bool b => b
  | .int n => n != 0
  | .float x => !x.isZero
  | .str s => s != ""
  | .seq items => !items.items.isEmpty
  | .map entries => !entries.isEmpty
  | .symbol _ member => member.isGiven
  | .foreign _ thing => thing.isGiven
  | .derived _ of => of.isGiven
  | _ => true

/-- The definitions of a document; any other tree has none. -/
def definitions : Tree → List Tree
  | .document definitions => definitions.items
  | .derived _ of => of.definitions
  | _ => []

/-- The names of the named definitions of a document, in order. -/
def definitionNames (t : Tree) : List String := t.definitions.filterMap name?

end Tree

end GraphDoc
