import GraphDoc.Proofs.Source.Numeral
import GraphDoc.Proofs.Tree.Normal
import GraphDoc.Syntax.Grammar

/-!
# Well-formed trees

One predicate for each phrase of the language: the trees that can stand where the phrase stands. The
numbers say how many levels a phrase may still open, as in the grammar.

A selection set without selections is printed as nothing at all. Where `loose` is set, operations,
fragments and inline fragments may have one all the same.
-/

namespace GraphDoc.Tree

open Syntax (OperationKind maxDepth locationNames)

/-! ## Values and types -/

/-- A value. A constant holds no variable. -/
inductive IsLiteral (isConst : Bool) : Nat → Tree → Prop
  | none {d : Nat} : IsLiteral isConst d .none
  | bool {d : Nat} (b : Bool) : IsLiteral isConst d (.bool b)
  | int {d : Nat} {n : Int} (h : Integer.isTooLong n = false) : IsLiteral isConst d (.int n)
  | float {d : Nat} {x : Binary64} (h : x.isFinite = true) : IsLiteral isConst d (.float x)
  | str {d : Nat} (s : String) : IsLiteral isConst d (.str s)
  | symbol {d : Nat} {base : SymbolBase} {member : Symbol Tree} (h : isName (Text.capitalize member.name) = true) :
    IsLiteral isConst d (.symbol base member)
  | nullValue {d : Nat} : IsLiteral isConst d .nullValue
  | floatValue {d : Nat} {text : String} (h : IsFloatText text) : IsLiteral isConst d (.floatValue text)
  | enumValue {d : Nat} {name : String} (h : isName name = true) : IsLiteral isConst d (.enumValue name)
  | variable {d : Nat} {name : String} (hconst : isConst = false) (h : isName name = true) :
    IsLiteral isConst d (.variable name)
  | seq {d : Nat} {form : SeqForm} {items : List Tree} (h : ∀ t ∈ items, IsLiteral isConst d t) :
    IsLiteral isConst (d + 1) (.seq ⟨form, items⟩)
  | map {d : Nat} {entries : List (Key × Tree)} (hkeys : ∀ e ∈ entries, isName e.1.label = true)
      (hvalues : ∀ e ∈ entries, IsLiteral isConst d e.2) : IsLiteral isConst (d + 1) (.map entries)
  | inputObject {d : Nat} {form : SeqForm} {entries : List (String × Tree)}
      (hkeys : ∀ e ∈ entries, isName e.1 = true) (hvalues : ∀ e ∈ entries, IsLiteral isConst d e.2) :
    IsLiteral isConst (d + 1) (.inputObject ⟨form, ofEntries entries⟩)

/-- A type reference. No type is marked as required twice. -/
inductive IsType : Nat → Tree → Prop
  | typeName {d : Nat} {name : String} (h : isName name = true) : IsType d (.typeName name)
  | listType {d : Nat} {of : Tree} (h : IsType d of) : IsType (d + 1) (.listType of)
  | nonNullType {d : Nat} {of : Tree} (h : IsType d of) (hbare : ∀ t, of ≠ .nonNullType t) :
    IsType d (.nonNullType of)

/-- A default value, which may be absent. -/
def IsDefault (t : Tree) : Prop := t = .none ∨ IsLiteral true maxDepth t

/-! ## Arguments and directives -/

/-- An argument. -/
inductive IsArgument (isConst : Bool) (d : Nat) : Tree → Prop
  | mk {name : String} {value : Tree} (hname : isName name = true) (hvalue : IsLiteral isConst d value) :
    IsArgument isConst d (.argument name value)

/-- A directive. -/
inductive IsDirective (isConst : Bool) (d : Nat) : Tree → Prop
  | mk {name : String} {form : SeqForm} {arguments : List Tree} (hname : isName name = true)
      (harguments : ∀ a ∈ arguments, IsArgument isConst d a) :
    IsDirective isConst d (.directive name ⟨form, arguments⟩)

/-! ## Selections -/

/-- Whether a label that may be left empty is empty or a name. -/
def IsLabel (label : Option String) : Prop := ∀ s ∈ label, s = "" ∨ isName s = true

/-- A type condition, which may be absent. -/
def IsCondition (t : Tree) : Prop := t = .none ∨ ∃ name, t = .typeName name ∧ isName name = true

/-- A selection. -/
inductive IsSelection (loose : Bool) : Nat → Tree → Prop
  | field {d : Nat} {name : String} {aliasName : Option String} {fa fd fs : SeqForm}
      {arguments directives selections : List Tree} (hname : isName name = true)
      (halias : IsLabel aliasName) (harguments : ∀ a ∈ arguments, IsArgument false d a)
      (hdirectives : ∀ t ∈ directives, IsDirective false d t) (hdepth : selections = [] ∨ 0 < d)
      (hselections : ∀ s ∈ selections, IsSelection loose (d - 1) s) :
    IsSelection loose d (.field name aliasName ⟨fa, arguments⟩ ⟨fd, directives⟩ ⟨fs, selections⟩)
  | spread {d : Nat} {name : String} {fd : SeqForm} {directives : List Tree} (hname : isName name = true)
      (hon : name ≠ "on") (hdirectives : ∀ t ∈ directives, IsDirective false d t) :
    IsSelection loose d (.fragmentSpread name ⟨fd, directives⟩)
  | inline {d : Nat} {type : Tree} {fd fs : SeqForm} {directives selections : List Tree}
      (htype : IsCondition type) (hdirectives : ∀ t ∈ directives, IsDirective false d t)
      (hsome : loose = false → selections ≠ []) (hdepth : selections = [] ∨ 0 < d)
      (hselections : ∀ s ∈ selections, IsSelection loose (d - 1) s) :
    IsSelection loose d (.inlineFragment type ⟨fd, directives⟩ ⟨fs, selections⟩)

/-- The selections of an operation or a fragment. -/
def AreSelections (loose : Bool) (selections : List Tree) : Prop :=
  (loose = false → selections ≠ []) ∧ ∀ s ∈ selections, IsSelection loose (maxDepth - 1) s

/-! ## Parts of definitions -/

/-- A variable of an operation. -/
inductive IsVariable : Tree → Prop
  | mk {name : String} {type default : Tree} (hname : isName name = true) (htype : IsType maxDepth type)
      (hdefault : IsDefault default) : IsVariable (.variableDefinition name type default)

/-- An argument of a field or directive definition, or a field of an input type. -/
inductive IsInputValue : Tree → Prop
  | mk {name : String} {type default : Tree} {directives : List Tree} {description : Option String}
      (hname : isName name = true) (htype : IsType maxDepth type) (hdefault : IsDefault default)
      (hdirectives : ∀ t ∈ directives, IsDirective true maxDepth t) :
    IsInputValue (.inputValue name type default (.tuple directives) description)

/-- A field of an object or interface type. -/
inductive IsFieldDefinition : Tree → Prop
  | mk {name : String} {type : Tree} {arguments directives : List Tree} {description : Option String}
      (hname : isName name = true) (htype : IsType maxDepth type)
      (harguments : ∀ a ∈ arguments, IsInputValue a)
      (hdirectives : ∀ t ∈ directives, IsDirective true maxDepth t) :
    IsFieldDefinition (.fieldDefinition name type (.tuple arguments) (.tuple directives) description)

/-- A value of an enum type. -/
inductive IsEnumValue : Tree → Prop
  | mk {name : String} {directives : List Tree} {description : Option String} (hname : isName name = true)
      (hfree : name ∉ ["true", "false", "null"])
      (hdirectives : ∀ t ∈ directives, IsDirective true maxDepth t) :
    IsEnumValue (.enumValueDefinition name (.tuple directives) description)

/-! ## Definitions -/

/-- An operation or a fragment. -/
inductive IsExecutable (loose : Bool) : Tree → Prop
  | operation {kind : OperationKind} {name : Option String} {fv fd fs : SeqForm}
      {vars directives selections : List Tree} (hname : IsLabel name) (hvars : ∀ v ∈ vars, IsVariable v)
      (hdirectives : ∀ t ∈ directives, IsDirective false maxDepth t)
      (hselections : AreSelections loose selections) :
    IsExecutable loose (.operation kind.keyword name ⟨fv, vars⟩ ⟨fd, directives⟩ ⟨fs, selections⟩)
  | fragment {name type : String} {fd fs : SeqForm} {directives selections : List Tree}
      (hname : isName name = true) (hon : name ≠ "on") (htype : isName type = true)
      (hdirectives : ∀ t ∈ directives, IsDirective false maxDepth t)
      (hselections : AreSelections loose selections) :
    IsExecutable loose (.fragment name (.typeName type) ⟨fd, directives⟩ ⟨fs, selections⟩)

/-- A definition of the type system. -/
inductive IsTypeSystem : Tree → Prop
  | schema {query mutation subscription description : Option String}
      (hquery : ∀ n ∈ query, isName n = true) (hmutation : ∀ n ∈ mutation, isName n = true)
      (hsubscription : ∀ n ∈ subscription, isName n = true) :
    IsTypeSystem (.schema query mutation subscription description)
  | scalarType {name : String} {directives : List Tree} {description : Option String}
      (hname : isName name = true) (hdirectives : ∀ t ∈ directives, IsDirective true maxDepth t) :
    IsTypeSystem (.scalarType name (.tuple directives) description)
  | objectType {name : String} {fields directives : List Tree} {interfaces : List String}
      {description : Option String} (hname : isName name = true)
      (hfields : ∀ f ∈ fields, IsFieldDefinition f) (hinterfaces : ∀ n ∈ interfaces, isName n = true)
      (hdirectives : ∀ t ∈ directives, IsDirective true maxDepth t) :
    IsTypeSystem (.objectType name (.tuple fields) (.tuple interfaces) (.tuple directives) description)
  | interfaceType {name : String} {fields directives : List Tree} {description : Option String}
      (hname : isName name = true) (hfields : ∀ f ∈ fields, IsFieldDefinition f)
      (hdirectives : ∀ t ∈ directives, IsDirective true maxDepth t) :
    IsTypeSystem (.interfaceType name (.tuple fields) (.tuple directives) description)
  | unionType {name : String} {members : List String} {directives : List Tree}
      {description : Option String} (hname : isName name = true)
      (hmembers : ∀ n ∈ members, isName n = true)
      (hdirectives : ∀ t ∈ directives, IsDirective true maxDepth t) :
    IsTypeSystem (.unionType name (.tuple (members.map .typeName)) (.tuple directives) description)
  | enumType {name : String} {values directives : List Tree} {description : Option String}
      (hname : isName name = true) (hvalues : ∀ v ∈ values, IsEnumValue v)
      (hdirectives : ∀ t ∈ directives, IsDirective true maxDepth t) :
    IsTypeSystem (.enumType name (.tuple values) (.tuple directives) description)
  | inputType {name : String} {fields directives : List Tree} {description : Option String}
      (hname : isName name = true) (hfields : ∀ f ∈ fields, IsInputValue f)
      (hdirectives : ∀ t ∈ directives, IsDirective true maxDepth t) :
    IsTypeSystem (.inputType name (.tuple fields) (.tuple directives) description)
  | directiveDefinition {name : String} {locations : List String} {arguments : List Tree}
      {description : Option String} (hname : isName name = true) (hsome : locations ≠ [])
      (hlocations : ∀ n ∈ locations, n ∈ locationNames) (harguments : ∀ a ∈ arguments, IsInputValue a) :
    IsTypeSystem (.directiveDefinition name (.tuple locations) (.tuple arguments) description)

/-- A definition as it is read. -/
def IsDefinition (t : Tree) : Prop := IsExecutable true t ∨ IsTypeSystem t

end GraphDoc.Tree
