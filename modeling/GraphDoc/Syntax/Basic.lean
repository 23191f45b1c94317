/-!
# Syntax trees

What a document says, as it is read: names, literals and definitions with their parts in written
order. Integers and floats keep their text, and strings remember whether they were block strings.

A syntax tree may also be put together by hand, with a child of the wrong kind in a place that holds
a value, a type, a selection or a definition. Such a child is an `other`, known by the name of its
kind only. Reading never yields one.
-/

namespace GraphDoc.Syntax

/-- The three kinds of operations. -/
inductive OperationKind
  | query
  | mutation
  | subscription
deriving DecidableEq

/-- The keyword of an operation kind. -/
def OperationKind.keyword : OperationKind → String
  | .query => "query"
  | .mutation => "mutation"
  | .subscription => "subscription"

/-- The operation kind that a keyword names. -/
def OperationKind.ofKeyword? : String → Option OperationKind
  | "query" => some .query
  | "mutation" => some .mutation
  | "subscription" => some .subscription
  | _ => none

/-- A string literal. -/
structure StringLiteral where
  value : String
  isBlock : Bool := false
deriving DecidableEq

/-- A value literal or a variable. -/
inductive Value
  | variable (name : String)
  | int (text : String)
  | float (text : String)
  | string (literal : StringLiteral)
  | boolean (value : Bool)
  | null
  | enum (name : String)
  | list (values : List Value)
  | object (fields : List (String × Value))
  | other (kind : String)

/-- A type reference. -/
inductive TypeRef
  | named (name : String)
  | list (of : TypeRef)
  | nonNull (of : TypeRef)
  | other (kind : String)
deriving DecidableEq

/-- A named value. -/
structure Argument where
  name : String
  value : Value

/-- A directive with its arguments. -/
structure Directive where
  name : String
  arguments : List Argument := []

/-- A selection. A field may have no selection set, which differs from an empty one. -/
inductive Selection
  | field (aliasName : Option String) (name : String) (arguments : List Argument)
      (directives : List Directive) (selections : Option (List Selection))
  | spread (name : String) (directives : List Directive)
  | inline (type : Option String) (directives : List Directive)
      (selections : Option (List Selection))
  | other (kind : String)

/-- A variable of an operation. -/
structure VariableDefinition where
  description : Option StringLiteral := none
  name : String
  type : TypeRef
  default : Option Value := none
  directives : List Directive := []

/-- An argument of a field or directive definition, or a field of an input type. -/
structure InputValue where
  description : Option StringLiteral := none
  name : String
  type : TypeRef
  default : Option Value := none
  directives : List Directive := []

/-- A field of an object or interface type. -/
structure FieldDefinition where
  description : Option StringLiteral := none
  name : String
  arguments : List InputValue := []
  type : TypeRef
  directives : List Directive := []

/-- A value of an enum type. -/
structure EnumValueDefinition where
  description : Option StringLiteral := none
  name : String
  directives : List Directive := []

/-- A query, mutation or subscription. -/
structure Operation where
  description : Option StringLiteral := none
  kind : OperationKind
  name : Option String := none
  vars : List VariableDefinition := []
  directives : List Directive := []
  selections : Option (List Selection) := none

/-- A fragment definition. -/
structure Fragment where
  description : Option StringLiteral := none
  name : String
  type : Option String
  directives : List Directive := []
  selections : Option (List Selection) := none

/-- A schema block with its root types in written order. -/
structure Schema where
  description : Option StringLiteral := none
  directives : List Directive := []
  roots : List (OperationKind × String) := []

/-- A scalar type. -/
structure ScalarType where
  description : Option StringLiteral := none
  name : String
  directives : List Directive := []

/-- An object or interface type. -/
structure FieldsType where
  description : Option StringLiteral := none
  name : String
  interfaces : List String := []
  directives : List Directive := []
  fields : List FieldDefinition := []

/-- A union type. -/
structure UnionType where
  description : Option StringLiteral := none
  name : String
  directives : List Directive := []
  members : List String := []

/-- An enum type. -/
structure EnumType where
  description : Option StringLiteral := none
  name : String
  directives : List Directive := []
  values : List EnumValueDefinition := []

/-- An input object type. -/
structure InputType where
  description : Option StringLiteral := none
  name : String
  directives : List Directive := []
  fields : List InputValue := []

/-- A directive definition. -/
structure DirectiveDefinition where
  description : Option StringLiteral := none
  name : String
  arguments : List InputValue := []
  directives : List Directive := []
  isRepeatable : Bool := false
  locations : List String := []

/-- What an extension extends. -/
inductive ExtensionKind
  | schema | scalar | object | interface | union | enum | input | directive
deriving DecidableEq

/-- A top-level definition. Of an extension only its kind is kept, since no print tree holds one. -/
inductive Definition
  | operation (definition : Operation)
  | fragment (definition : Fragment)
  | schema (definition : Schema)
  | scalar (definition : ScalarType)
  | object (definition : FieldsType)
  | interface (definition : FieldsType)
  | union (definition : UnionType)
  | enum (definition : EnumType)
  | input (definition : InputType)
  | directive (definition : DirectiveDefinition)
  | extension (kind : ExtensionKind)
  | other (kind : String)

/-- A whole document. -/
structure Document where
  definitions : List Definition

end GraphDoc.Syntax
