import GraphDoc.Tree.Entries

/-!
# Equality of trees

Two trees are equal when their contents are. `Tree.content` forgets what equality does not look at,
the descriptions and the kinds derived from plain values, and weighs every number exactly;
`Content.same` compares what is left. Nodes are equal when they have the same kind and equal parts,
sequences when they have the same form and equal items, and maps whatever the order of their keys.
A NaN, a symbol and a foreign thing are equal to nothing.
-/

namespace GraphDoc

/-- The kind of a node, together with the kinds derived from it, outermost first. -/
structure NodeClass where
  kind : Tree.Kind
  derivations : List Derivation := []
deriving DecidableEq

/-- What equality sees of a tree. -/
inductive Content
  | atom (value : Atom)
  | seq (form : SeqForm) (items : List Content)
  | map (entries : List (Atom × Content))
  | node (kind : NodeClass) (parts : List Content)
  /-- Equal to nothing. -/
  | lone

namespace Content

/-- A text. -/
def text (s : String) : Content := .atom (.text s)

/-- A text that may be absent. -/
def text? (s : Option String) : Content :=
  match s with
  | some s => .text s
  | none => .atom .none

/-- A sequence of texts. -/
def texts (s : Seq String) : Content := .seq s.form (s.items.map .text)

/-- A node with no derived kind. -/
def plain (kind : Tree.Kind) (parts : List Content) : Content := .node ⟨kind, []⟩ parts

/-- The content of a thing under a derived kind: plain values do not show it, nodes do. -/
def derive (derivation : Derivation) : Content → Content
  | .node kind parts =>
    .node { kind with derivations := derivation :: kind.derivations } parts
  | content => content

/-- The value of a key, if the key is there. -/
def find? (key : Atom) (entries : List (Atom × Content)) : Option Content :=
  (entries.find? fun entry => key.same entry.1).map (·.2)

mutual

/-- Whether two contents are equal. -/
def same : Content → Content → Bool
  | .atom a, .atom b => a.same b
  | .seq form items, .seq form' items' => form == form' && sameAll items items'
  | .map entries, .map entries' =>
    entries.length == entries'.length && sameEntries entries entries'
  | .node kind parts, .node kind' parts' => kind == kind' && sameAll parts parts'
  | _, _ => false

/-- Whether two lists of contents are equal item by item. -/
def sameAll : List Content → List Content → Bool
  | [], [] => true
  | a :: rest, b :: rest' => same a b && sameAll rest rest'
  | _, _ => false

/-- Whether every entry stands among the others, under an equal key and with an equal value. -/
def sameEntries : List (Atom × Content) → List (Atom × Content) → Bool
  | [], _ => true
  | (key, value) :: rest, others =>
    (match find? key others with
      | some other => same value other
      | none => false) && sameEntries rest others

end

end Content

namespace Tree

open Content in
mutual

/-- What equality sees of a tree. -/
def content : Tree → Content
  | .none => .atom .none
  | .bool b => .atom (.number (.ofBool b))
  | .int n => .atom (.number (.ofInt n))
  | .float x => .atom (.number (.ofBinary64 x))
  | .str s => text s
  | .seq ⟨form, items⟩ => .seq form (contents items)
  | .map entries => .map (mergeEntries Atom.same (entryContents entries))
  | .symbol .. | .foreign .. => .lone
  | .derived derivation of => derive derivation of.content
  | .nullValue => plain .nullValue []
  | .floatValue digits => plain .floatValue [text digits]
  | .enumValue name => plain .enumValue [text name]
  | .variable name => plain .variable [text name]
  | .argument name value => plain .argument [text name, value.content]
  | .inputObject ⟨form, arguments⟩ => plain .inputObject [.seq form (contents arguments)]
  | .directive name ⟨form, arguments⟩ =>
    plain .directive [text name, .seq form (contents arguments)]
  | .typeName name => plain .typeName [text name]
  | .listType of => plain .listType [of.content]
  | .nonNullType of => plain .nonNullType [of.content]
  | .field name aliasName ⟨argumentForm, arguments⟩ ⟨directiveForm, directives⟩
      ⟨selectionForm, selections⟩ =>
    plain .field [text name, text? aliasName, .seq argumentForm (contents arguments),
      .seq directiveForm (contents directives), .seq selectionForm (contents selections)]
  | .fragmentSpread name ⟨form, directives⟩ =>
    plain .fragmentSpread [text name, .seq form (contents directives)]
  | .inlineFragment type ⟨directiveForm, directives⟩ ⟨selectionForm, selections⟩ =>
    plain .inlineFragment [type.content, .seq directiveForm (contents directives),
      .seq selectionForm (contents selections)]
  | .variableDefinition name type default =>
    plain .variableDefinition [text name, type.content, default.content]
  | .operation kind name ⟨variableForm, vars⟩ ⟨directiveForm, directives⟩
      ⟨selectionForm, selections⟩ =>
    plain .operation [text kind, text? name, .seq variableForm (contents vars),
      .seq directiveForm (contents directives), .seq selectionForm (contents selections)]
  | .fragment name type ⟨directiveForm, directives⟩ ⟨selectionForm, selections⟩ =>
    plain .fragment [text name, type.content, .seq directiveForm (contents directives),
      .seq selectionForm (contents selections)]
  | .schema query mutation subscription _ =>
    plain .schema [text? query, text? mutation, text? subscription]
  | .inputValue name type default ⟨form, directives⟩ _ =>
    plain .inputValue [text name, type.content, default.content, .seq form (contents directives)]
  | .fieldDefinition name type ⟨argumentForm, arguments⟩ ⟨directiveForm, directives⟩ _ =>
    plain .fieldDefinition [text name, type.content, .seq argumentForm (contents arguments),
      .seq directiveForm (contents directives)]
  | .scalarType name ⟨form, directives⟩ _ =>
    plain .scalarType [text name, .seq form (contents directives)]
  | .objectType name ⟨fieldForm, fields⟩ interfaces ⟨directiveForm, directives⟩ _ =>
    plain .objectType [text name, .seq fieldForm (contents fields), texts interfaces,
      .seq directiveForm (contents directives)]
  | .interfaceType name ⟨fieldForm, fields⟩ ⟨directiveForm, directives⟩ _ =>
    plain .interfaceType [text name, .seq fieldForm (contents fields),
      .seq directiveForm (contents directives)]
  | .unionType name ⟨memberForm, members⟩ ⟨directiveForm, directives⟩ _ =>
    plain .unionType [text name, .seq memberForm (contents members),
      .seq directiveForm (contents directives)]
  | .enumValueDefinition name ⟨form, directives⟩ _ =>
    plain .enumValueDefinition [text name, .seq form (contents directives)]
  | .enumType name ⟨valueForm, values⟩ ⟨directiveForm, directives⟩ _ =>
    plain .enumType [text name, .seq valueForm (contents values),
      .seq directiveForm (contents directives)]
  | .inputType name ⟨fieldForm, fields⟩ ⟨directiveForm, directives⟩ _ =>
    plain .inputType [text name, .seq fieldForm (contents fields),
      .seq directiveForm (contents directives)]
  | .directiveDefinition name locations ⟨form, arguments⟩ _ =>
    plain .directiveDefinition [text name, texts locations, .seq form (contents arguments)]
  | .document ⟨form, definitions⟩ => plain .document [.seq form (contents definitions)]

/-- What equality sees of trees. -/
def contents : List Tree → List Content
  | [] => []
  | t :: rest => t.content :: contents rest

/-- What equality sees of a map's entries. -/
def entryContents : List (Key × Tree) → List (Atom × Content)
  | [] => []
  | (key, value) :: rest => (key.atom, value.content) :: entryContents rest

end

/-- Whether two trees are equal. -/
def same (a b : Tree) : Bool := a.content.same b.content

end Tree

end GraphDoc
