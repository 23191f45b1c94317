import GraphDoc.Tree.OfSyntax

/-!
# The essence of a syntax tree

Conversion forgets the descriptions of operations, fragments and variables, whether a string was a block
string, how an integer was spelled, and all but the last type given to a root. `essence` forgets exactly that,
and on demand also the difference between a selection set that is missing and one that is empty.
-/

namespace GraphDoc.Syntax

/-- The string, in whatever form it was written. -/
def StringLiteral.essence (s : StringLiteral) : StringLiteral := ⟨s.value, false⟩

/-- The spelling of an integer that stands for all its spellings. -/
def integerEssence (text : String) : String :=
  match Integer.read text with
  | .ok n => Integer.text n
  | .error _ => text

mutual

/-- The value, with integers as numbers and strings in one form. -/
def Value.essence : Value → Value
  | .int text => .int (integerEssence text)
  | .string s => .string s.essence
  | .list values => .list (Value.essences values)
  | .object fields => .object (Value.fieldEssences fields)
  | v => v

def Value.essences : List Value → List Value
  | [] => []
  | v :: rest => v.essence :: Value.essences rest

def Value.fieldEssences : List (String × Value) → List (String × Value)
  | [] => []
  | (name, v) :: rest => (name, v.essence) :: Value.fieldEssences rest

end

def Argument.essence (a : Argument) : Argument := { a with value := a.value.essence }

def Directive.essence (d : Directive) : Directive := { d with arguments := d.arguments.map Argument.essence }

mutual

/-- The selection, with missing selection sets filled in on demand. -/
def Selection.essence (fills : Bool) : Selection → Selection
  | .field aliasName name arguments directives selections =>
    .field aliasName name (arguments.map Argument.essence) (directives.map Directive.essence)
      (Selection.setEssence fills selections)
  | .spread name directives => .spread name (directives.map Directive.essence)
  | .inline type directives selections =>
    .inline type (directives.map Directive.essence) (Selection.setEssence fills selections)
  | .other kind => .other kind

/-- The selection set; an empty one fills in for one that is missing. -/
def Selection.setEssence (fills : Bool) : Option (List Selection) → Option (List Selection)
  | none => if fills then some [] else none
  | some selections => some (Selection.essences fills selections)

def Selection.essences (fills : Bool) : List Selection → List Selection
  | [] => []
  | s :: rest => s.essence fills :: Selection.essences fills rest

end

/-- The variable without its description. -/
def VariableDefinition.essence (v : VariableDefinition) : VariableDefinition :=
  { v with
    description := none
    default := v.default.map Value.essence
    directives := v.directives.map Directive.essence }

def InputValue.essence (v : InputValue) : InputValue :=
  { v with
    description := v.description.map StringLiteral.essence
    default := v.default.map Value.essence
    directives := v.directives.map Directive.essence }

def FieldDefinition.essence (f : FieldDefinition) : FieldDefinition :=
  { f with
    description := f.description.map StringLiteral.essence
    arguments := f.arguments.map InputValue.essence
    directives := f.directives.map Directive.essence }

def EnumValueDefinition.essence (v : EnumValueDefinition) : EnumValueDefinition :=
  { v with
    description := v.description.map StringLiteral.essence
    directives := v.directives.map Directive.essence }

/-- The operation without its description. -/
def Operation.essence (fills : Bool) (o : Operation) : Operation :=
  { o with
    description := none
    vars := o.vars.map VariableDefinition.essence
    directives := o.directives.map Directive.essence
    selections := Selection.setEssence fills o.selections }

/-- The fragment without its description. -/
def Fragment.essence (fills : Bool) (f : Fragment) : Fragment :=
  { f with
    description := none
    directives := f.directives.map Directive.essence
    selections := Selection.setEssence fills f.selections }

/-- The schema block as a map from each kind of operation to the type last given to it. -/
def Schema.essence (s : Schema) : Schema :=
  { s with
    description := s.description.map StringLiteral.essence
    directives := s.directives.map Directive.essence
    roots := [.query, .mutation, .subscription].filterMap fun kind => (s.root? kind).map fun name => (kind, name) }

def ScalarType.essence (s : ScalarType) : ScalarType :=
  { s with
    description := s.description.map StringLiteral.essence
    directives := s.directives.map Directive.essence }

def FieldsType.essence (t : FieldsType) : FieldsType :=
  { t with
    description := t.description.map StringLiteral.essence
    directives := t.directives.map Directive.essence
    fields := t.fields.map FieldDefinition.essence }

def UnionType.essence (u : UnionType) : UnionType :=
  { u with
    description := u.description.map StringLiteral.essence
    directives := u.directives.map Directive.essence }

def EnumType.essence (e : EnumType) : EnumType :=
  { e with
    description := e.description.map StringLiteral.essence
    directives := e.directives.map Directive.essence
    values := e.values.map EnumValueDefinition.essence }

def InputType.essence (t : InputType) : InputType :=
  { t with
    description := t.description.map StringLiteral.essence
    directives := t.directives.map Directive.essence
    fields := t.fields.map InputValue.essence }

def DirectiveDefinition.essence (d : DirectiveDefinition) : DirectiveDefinition :=
  { d with
    description := d.description.map StringLiteral.essence
    arguments := d.arguments.map InputValue.essence
    directives := d.directives.map Directive.essence }

def Definition.essence (fills : Bool) : Definition → Definition
  | .operation d => .operation (d.essence fills)
  | .fragment d => .fragment (d.essence fills)
  | .schema d => .schema d.essence
  | .scalar d => .scalar d.essence
  | .object d => .object d.essence
  | .interface d => .interface d.essence
  | .union d => .union d.essence
  | .enum d => .enum d.essence
  | .input d => .input d.essence
  | .directive d => .directive d.essence
  | .extension kind => .extension kind
  | .other kind => .other kind

/-- The document up to what conversion forgets by its rules. -/
def Document.essence (fills : Bool) (d : Document) : Document := ⟨d.definitions.map (Definition.essence fills)⟩

/-! ## Lists of phrases -/

/-- The essences of a list of values are taken one by one. -/
theorem Value.essences_eq_map (values : List Value) : Value.essences values = values.map Value.essence := by
  induction values with
  | nil => rfl
  | cons v values ih => rw [Value.essences, ih, List.map_cons]

/-- The essences of entries are taken one by one, with their names as they are. -/
theorem Value.fieldEssences_eq_map (fields : List (String × Value)) :
    Value.fieldEssences fields = fields.map fun f => (f.1, f.2.essence) := by
  induction fields with
  | nil => rfl
  | cons f fields ih => rw [Value.fieldEssences, ih, List.map_cons]

/-- The essences of selections are taken one by one. -/
theorem Selection.essences_eq_map (fills : Bool) (selections : List Selection) :
    Selection.essences fills selections = selections.map (Selection.essence fills) := by
  induction selections with
  | nil => rfl
  | cons s selections ih => rw [Selection.essences, ih, List.map_cons]

end GraphDoc.Syntax
