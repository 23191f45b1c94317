import GraphDoc.Proofs.Syntax.Settles
import GraphDoc.Proofs.Syntax.WrittenParts
import GraphDoc.Proofs.Tree.StableDefinition

/-!
# Printed definitions of the type system are read back

One lemma for each kind of definition, as long as its blocks and lists are not empty and no separator is
missing between interfaces.
-/

namespace GraphDoc

open GraphDoc.Parser GraphDoc.Tree
open Syntax (Converted Definition Directive EnumValueDefinition FieldDefinition InputValue OperationKind maxDepth)
open Tape (ofChars)

/-! ## Texts -/

/-- What stands in front of the body of a definition: a keyword, a name and directives. -/
def headText (word name : String) (dirs : List Tree) : List Char :=
  word.toList ++ ' ' :: (name.toList ++ directivesText dirs)

/-- The block of a type in print. -/
def fieldsText (fields : List Tree) : List Char := (Layout.fields (fields.map (·.printed ""))).toList

/-- The values of an enum type in print. -/
def valuesText (values : List Tree) : List Char :=
  (" \x7b\n" ++ String.join (values.map (·.printed "")) ++ "\x7d").toList

section Texts

variable {fields dirs : List Tree} (hdirs : ∀ t ∈ dirs, IsDirective true maxDepth t) (name : String)
  (description : Option String)

include hdirs

theorem chars_scalarType :
    (Tree.scalarType name (.tuple dirs) description).chars "" = headText "scalar" name dirs := by
  rw [(printsAs_scalarType (fun t ht => stable_directive (hdirs t ht)) "" name description).chars_eq, headText,
    directivesText]
  simp

theorem chars_objectType (hfields : ∀ f ∈ fields, IsFieldDefinition f) (interfaces : List String) :
    (Tree.objectType name (.tuple fields) (.tuple interfaces) (.tuple dirs) description).chars "" =
      headText "type" name dirs ++ ((interfacesText interfaces).toList ++ fieldsText fields) := by
  rw [(printsAs_objectType (fun f hf => stable_fieldDefinition (hfields f hf))
    (fun t ht => stable_directive (hdirs t ht)) "" name interfaces description).chars_eq, headText, directivesText,
    fieldsText]
  simp

theorem chars_interfaceType (hfields : ∀ f ∈ fields, IsFieldDefinition f) :
    (Tree.interfaceType name (.tuple fields) (.tuple dirs) description).chars "" =
      headText "interface" name dirs ++ fieldsText fields := by
  rw [(printsAs_interfaceType (fun f hf => stable_fieldDefinition (hfields f hf))
    (fun t ht => stable_directive (hdirs t ht)) "" name description).chars_eq, headText, directivesText, fieldsText]
  simp

theorem chars_unionType (members : List String) :
    (Tree.unionType name (.tuple (members.map .typeName)) (.tuple dirs) description).chars "" =
      headText "union" name dirs ++ ' ' :: '=' :: ' ' :: (" | ".intercalate members).toList := by
  rw [(printsAs_unionType (fun t ht => stable_directive (hdirs t ht)) "" name members description).chars_eq,
    headText, directivesText]
  simp

theorem chars_enumType {values : List Tree} (hvalues : ∀ v ∈ values, IsEnumValue v) :
    (Tree.enumType name (.tuple values) (.tuple dirs) description).chars "" =
      headText "enum" name dirs ++ valuesText values := by
  rw [(printsAs_enumType (fun v hv => stable_enumValue (hvalues v hv))
    (fun t ht => stable_directive (hdirs t ht)) "" name description).chars_eq, headText, directivesText, valuesText]
  simp

theorem chars_inputType (hfields : ∀ f ∈ fields, IsInputValue f) :
    (Tree.inputType name (.tuple fields) (.tuple dirs) description).chars "" =
      headText "input" name dirs ++ fieldsText fields := by
  rw [(printsAs_inputType (fun f hf => stable_inputValue (hfields f hf))
    (fun t ht => stable_directive (hdirs t ht)) "" name description).chars_eq, headText, directivesText, fieldsText]
  simp

end Texts

theorem chars_directiveDefinition {args : List Tree} (hargs : ∀ a ∈ args, IsInputValue a) (name : String)
    (locations : List String) (description : Option String) :
    (Tree.directiveDefinition name (.tuple locations) (.tuple args) description).chars "" =
      "directive".toList ++ ' ' :: '@' :: (name.toList ++ (parensText args ++
        ' ' :: ("on".toList ++ ' ' :: (" | ".intercalate locations).toList))) := by
  rw [(printsAs_directiveDefinition (fun a ha => stable_inputValue (hargs a ha)) "" name locations
    description).chars_eq, parensText]
  simp

/-! ## Names and directives -/

section Named

variable {α : Type} {dirs : List Tree} {name : String} {k : List Char}

theorem boundary_directives (hdirs : ∀ t ∈ dirs, IsDirective true maxDepth t) (hk : Boundary k) :
    Boundary (directivesText dirs ++ k) :=
  (opens_directives hdirs).boundary (m := .at) (by decide) hk

/-- The keyword, name and directives of a definition are read. -/
theorem head_read (word : String) (hword : isName word = true) (hname : isName name = true)
    (hdirs : ∀ t ∈ dirs, IsDirective true maxDepth t) (hk : Clear [.at, .parenL] k)
    (f : String → List Directive → Parser α) :
    ∃ ds, Syntax.directiveTrees ds = .ok (.tuple (dirs.map reading)) ∧
      (do keyword word
          let name ← Parser.name
          let ds ← Syntax.constDirectives
          f name ds : Parser α) (ofChars (headText word name dirs ++ k)) = f name ds (ofChars k) := by
  obtain ⟨ds, hrun, hds⟩ := reads_directives hdirs k hk
  refine ⟨ds, hds, ?_⟩
  have htext : headText word name dirs ++ k = word.toList ++ ' ' :: (name.toList ++ (directivesText dirs ++ k)) := by
    simp [headText]
  rw [htext, Tape.ofChars_name hword (by simp [isBoundary, isNameChar]), bind_run (keyword_run ..),
    Tape.ofChars_space, Tape.ofChars_name hname (boundary_directives hdirs hk.1), bind_run (name_run ..),
    Syntax.constDirectives, bind_run hrun]

/-- The name and directives of an object or interface type without interfaces are read. -/
theorem fieldsType_read (hname : isName name = true) (hdirs : ∀ t ∈ dirs, IsDirective true maxDepth t)
    (hk : Clear [.at, .parenL] k) (hfree : dirs = [] → (ofChars k).front ≠ some (.name "implements"))
    (g : Syntax.FieldsType → Definition) :
    ∃ ds, Syntax.directiveTrees ds = .ok (.tuple (dirs.map reading)) ∧
      (g <$> Syntax.fieldsType Option.none) (ofChars (name.toList ++ (directivesText dirs ++ k))) = (do
        let fields ← Syntax.fieldDefinitions
        return g { name, directives := ds, fields } : Parser Definition) (ofChars k) := by
  obtain ⟨ds, hrun, hds⟩ := reads_directives hdirs k hk
  -- no `implements` follows: either directives do, or what `hfree` rules out
  have hfront : ∃ t, (ofChars (directivesText dirs ++ k)).front = some t ∧ t ≠ .name "implements" := by
    by_cases hempty : dirs = []
    · subst hempty
      obtain ⟨t, ht, -⟩ := hk.2
      refine ⟨t, ht, ?_⟩
      rintro rfl
      exact hfree rfl ht
    · have hat := (opens_directives hdirs).front (m := .at) (by decide) (directivesText_ne_nil hempty) k
      exact ⟨_, hat, by simp⟩
  obtain ⟨t, hfront, ht⟩ := hfront
  have hnone : Syntax.interfaces (ofChars (directivesText dirs ++ k)) =
      .ok ([], ofChars (directivesText dirs ++ k)) := by
    rw [Syntax.interfaces, bind_run (skipKeyword_pass hfront ht)]
    rfl
  refine ⟨ds, hds, ?_⟩
  simp only [Syntax.fieldsType, map_bind, map_pure]
  rw [Tape.ofChars_name hname (boundary_directives hdirs hk.1), bind_run (name_run ..), bind_run hnone,
    Syntax.constDirectives, bind_run hrun]

end Named

/-! ## Blocks -/

theorem fieldsText_eq (fields : List Tree) : ∃ cs, fieldsText fields = ' ' :: '{' :: cs := by
  rw [fieldsText, Layout.fields]
  simp

theorem front_fieldsText (fields : List Tree) (k : List Char) :
    (ofChars (fieldsText fields ++ k)).front = some (.punct .braceL) := by
  obtain ⟨cs, htext⟩ := fieldsText_eq fields
  rw [htext, List.cons_append, Tape.ofChars_space, List.cons_append, Tape.ofChars_punct (m := .braceL) (by decide)]
  rfl

theorem clear_fieldsText (fields : List Tree) {bad : List Punct} (hbad : .braceL ∉ bad) (k : List Char) :
    Clear bad (fieldsText fields ++ k) := by
  obtain ⟨cs, htext⟩ := fieldsText_eq fields
  rw [htext]
  exact clear_blank isBlank_space (clear_punct (m := .braceL) (by decide) hbad _)

/-- An empty block is not read. -/
theorem emptyBlock_fails {α : Type} {item : Parser α}
    (hfails : ∀ tape, tape.front = some (.punct .braceR) → Fails item tape) (k : List Char) :
    Fails (optionalMany .braceL item .braceR) (ofChars (' ' :: '{' :: '\n' :: '}' :: k)) := by
  rw [Tape.ofChars_space, Tape.ofChars_punct (m := .braceL) (by decide), Tape.ofChars_newline, optionalMany]
  refine Fails.of_bind (peek_run rfl) ?_
  rw [if_pos rfl, many]
  refine Fails.of_bind (expect_run ..) ((hfails _ ?_).bind _)
  rw [Tape.ofChars_punct (m := .braceR) (by decide)]
  rfl

/-- A block is read unless it is empty. -/
theorem settles_fields {α : Type} {item : Parser α} {conv : α → Converted Tree} {bad : List Punct}
    {fields : List Tree} (hone : ∃ P, Ensures 1 item P)
    (h : ∀ t ∈ fields, Written item conv (fun tok => ∃ s, tok = .name s) bad "" t t.reading)
    (hclose : .braceR ∉ bad) (hfails : ∀ tape, tape.front = some (.punct .braceR) → Fails item tape)
    {k : List Char} (hk : Clear [.braceL] k) :
    Settles (optionalMany .braceL item .braceR) (·.mapM conv) (ofChars (fieldsText fields ++ k)) (ofChars k)
      fun rs => fields ≠ [] ∧ rs = fields.map reading := by
  by_cases hsome : fields = []
  · subst hsome
    exact .of_fails (emptyBlock_fails hfails k) fun rs hrs => hrs.1 rfl
  · exact (Settles.of_reads (reads_fields hone h hclose hsome) hk).congr fun rs =>
      ⟨fun hr => ⟨hsome, hr⟩, fun hr => hr.2⟩

theorem description_run {tape : Tape} {m : Punct} (hfront : tape.front = some (.punct m)) :
    Syntax.description tape = .ok (Option.none, tape) := by
  rw [Syntax.description, bind_run (peek_run hfront)]
  rfl

theorem inputValue_fails (tape : Tape) (hfront : tape.front = some (.punct .braceR)) :
    Fails Syntax.inputValue tape :=
  Fails.of_bind (description_run hfront) ((name_fails hfront (by simp)).bind _)

theorem fieldDefinition_fails (tape : Tape) (hfront : tape.front = some (.punct .braceR)) :
    Fails Syntax.fieldDefinition tape :=
  Fails.of_bind (description_run hfront) ((name_fails hfront (by simp)).bind _)

theorem enumValueDefinition_fails (tape : Tape) (hfront : tape.front = some (.punct .braceR)) :
    Fails Syntax.enumValueDefinition tape := by
  refine Fails.of_bind (description_run hfront) ?_
  rw [Syntax.enumValueName, bind_assoc]
  refine Fails.of_bind (peek_run hfront) ?_
  exact (name_fails hfront (by simp)).bind _

/-- The values of an enum type are read unless there are none. -/
theorem settles_values {values : List Tree} (h : ∀ v ∈ values, IsEnumValue v) {k : List Char}
    (hk : Clear [.braceL] k) :
    Settles Syntax.enumValues (·.mapM EnumValueDefinition.toTree) (ofChars (valuesText values ++ k)) (ofChars k)
      fun rs => values ≠ [] ∧ rs = values.map reading := by
  by_cases hsome : values = []
  · subst hsome
    exact .of_fails (emptyBlock_fails enumValueDefinition_fails k) fun rs hrs => hrs.1 rfl
  · exact (Settles.of_reads (reads_enumValues h hsome) hk).congr fun rs =>
      ⟨fun hr => ⟨hsome, hr⟩, fun hr => hr.2⟩

/-! ## Types -/

/-- The text of a scalar type is read back. -/
theorem settles_scalarType {name : String} {dirs : List Tree} {k : List Char} (hname : isName name = true)
    (hdirs : ∀ t ∈ dirs, IsDirective true maxDepth t) (hk : Clear [.at, .parenL] k) (description : Option String) :
    Settles (Syntax.scalarType Option.none) Definition.toTree
      (ofChars ((Tree.scalarType name (.tuple dirs) description).chars "" ++ k)) (ofChars k)
      (· = (Tree.scalarType name (.tuple dirs) description).reading) := by
  have hread : (Tree.scalarType name (.tuple dirs) description).reading =
      .scalarType name (.tuple (dirs.map reading)) Option.none := reading_eq _
  obtain ⟨ds, hds, hrun⟩ := head_read "scalar" (by decide) hname hdirs hk fun name ds =>
    (return .scalar { name, directives := ds } : Parser Definition)
  rw [chars_scalarType hdirs, hread]
  refine .of_ok hrun ?_
  simp only [Definition.toTree, Syntax.ScalarType.toTree, hds]
  rfl

/-- The text of an enum type is read back unless it has no values. -/
theorem settles_enumType {name : String} {values dirs : List Tree} {k : List Char} (hname : isName name = true)
    (hvalues : ∀ v ∈ values, IsEnumValue v) (hdirs : ∀ t ∈ dirs, IsDirective true maxDepth t)
    (hk : Clear [.braceL] k) (description : Option String) :
    Settles (Syntax.enumType Option.none) Definition.toTree
      (ofChars ((Tree.enumType name (.tuple values) (.tuple dirs) description).chars "" ++ k)) (ofChars k)
      fun r => values ≠ [] ∧ r = (Tree.enumType name (.tuple values) (.tuple dirs) description).reading := by
  have hread : (Tree.enumType name (.tuple values) (.tuple dirs) description).reading =
      .enumType name (.tuple (values.map reading)) (.tuple (dirs.map reading)) Option.none := reading_eq _
  have hclear : Clear [.at, .parenL] (valuesText values ++ k) := by
    have hopen : valuesText values =
        ' ' :: '{' :: '\n' :: ((String.join (values.map (·.printed ""))).toList ++ ['}']) := by
      simp [valuesText]
    rw [hopen]
    exact clear_blank isBlank_space (clear_punct (m := .braceL) (by decide) (by simp) _)
  obtain ⟨ds, hds, hrun⟩ := head_read "enum" (by decide) hname hdirs hclear fun name ds => do
    let values ← Syntax.enumValues
    return Definition.enum { name, directives := ds, values }
  rw [chars_enumType hdirs name description hvalues, hread, List.append_assoc]
  refine ((settles_values hvalues hk).finish fun vs hvs => ⟨_, rfl, ?_⟩).of_run hrun
  simp only [Definition.toTree, Syntax.EnumType.toTree, hds, hvs]
  rfl

/-- The text of an input type is read back unless it has no fields. -/
theorem settles_inputType {name : String} {fields dirs : List Tree} {k : List Char} (hname : isName name = true)
    (hfields : ∀ f ∈ fields, IsInputValue f) (hdirs : ∀ t ∈ dirs, IsDirective true maxDepth t)
    (hk : Clear [.braceL] k) (description : Option String) :
    Settles (Syntax.inputType Option.none) Definition.toTree
      (ofChars ((Tree.inputType name (.tuple fields) (.tuple dirs) description).chars "" ++ k)) (ofChars k)
      fun r => fields ≠ [] ∧ r = (Tree.inputType name (.tuple fields) (.tuple dirs) description).reading := by
  have hread : (Tree.inputType name (.tuple fields) (.tuple dirs) description).reading =
      .inputType name (.tuple (fields.map reading)) (.tuple (dirs.map reading)) Option.none := reading_eq _
  have hblock := settles_fields ⟨_, Syntax.ensures_inputValue⟩ (fun f hf => written_inputValue (hfields f hf))
    (by simp) inputValue_fails hk
  obtain ⟨ds, hds, hrun⟩ := head_read "input" (by decide) hname hdirs (clear_fieldsText fields (by simp) k)
    fun name ds => do
      let fields ← Syntax.inputFields
      return Definition.input { name, directives := ds, fields }
  rw [chars_inputType hdirs name description hfields, hread, List.append_assoc]
  refine (hblock.finish fun fs hfs => ⟨_, rfl, ?_⟩).of_run hrun
  simp only [Definition.toTree, Syntax.InputType.toTree, hds, hfs]
  rfl

/-- The parts of an object or interface type without interfaces are read unless there are no fields. -/
theorem settles_fieldsType {name : String} {fields dirs : List Tree} {k : List Char} (hname : isName name = true)
    (hfields : ∀ f ∈ fields, IsFieldDefinition f) (hdirs : ∀ t ∈ dirs, IsDirective true maxDepth t)
    (hk : Clear [.braceL] k) {g : Syntax.FieldsType → Definition} {r : Tree}
    (hg : ∀ ds fs, Syntax.directiveTrees ds = .ok (.tuple (dirs.map reading)) →
      fs.mapM FieldDefinition.toTree = .ok (fields.map reading) →
      (g { name, directives := ds, fields := fs }).toTree = .ok r) :
    Settles (g <$> Syntax.fieldsType Option.none) Definition.toTree
      (ofChars (name.toList ++ (directivesText dirs ++ (fieldsText fields ++ k)))) (ofChars k)
      fun r' => fields ≠ [] ∧ r' = r := by
  have hfree : (ofChars (fieldsText fields ++ k)).front ≠ some (.name "implements") := by
    simp [front_fieldsText]
  have hblock := settles_fields ⟨_, Syntax.ensures_fieldDefinition⟩
    (fun f hf => written_fieldDefinition (hfields f hf)) (by simp) fieldDefinition_fails hk
  obtain ⟨ds, hds, hrun⟩ := fieldsType_read hname hdirs (clear_fieldsText fields (by simp) k) (fun _ => hfree) g
  exact (hblock.finish fun fs hfs => ⟨_, rfl, hg ds fs hds hfs⟩).of_run hrun

/-- The text of an interface type is read back unless it has no fields. -/
theorem settles_interfaceType {name : String} {fields dirs : List Tree} {k : List Char} (hname : isName name = true)
    (hfields : ∀ f ∈ fields, IsFieldDefinition f) (hdirs : ∀ t ∈ dirs, IsDirective true maxDepth t)
    (hk : Clear [.braceL] k) (description : Option String) :
    Settles (Syntax.interfaceType Option.none) Definition.toTree
      (ofChars ((Tree.interfaceType name (.tuple fields) (.tuple dirs) description).chars "" ++ k)) (ofChars k)
      fun r => fields ≠ [] ∧ r = (Tree.interfaceType name (.tuple fields) (.tuple dirs) description).reading := by
  have htext : (Tree.interfaceType name (.tuple fields) (.tuple dirs) description).chars "" ++ k =
      "interface".toList ++ ' ' :: (name.toList ++ (directivesText dirs ++ (fieldsText fields ++ k))) := by
    rw [chars_interfaceType hdirs name description hfields, headText]
    simp
  have hread : (Tree.interfaceType name (.tuple fields) (.tuple dirs) description).reading =
      .interfaceType name (.tuple (fields.map reading)) (.tuple (dirs.map reading)) Option.none := reading_eq _
  rw [htext, hread, Tape.ofChars_name (by decide) (by simp [isBoundary, isNameChar]), Tape.ofChars_space]
  refine Settles.of_run ?_ (bind_run (keyword_run ..) _)
  refine settles_fieldsType hname hfields hdirs hk fun ds fs hds hfs => ?_
  simp only [Definition.toTree, Syntax.FieldsType.toInterfaceTree, hds, hfs]
  rfl

/-- The text of an object type without interfaces is read back unless it has no fields. -/
theorem settles_objectType {name : String} {fields dirs : List Tree} {k : List Char} (hname : isName name = true)
    (hfields : ∀ f ∈ fields, IsFieldDefinition f) (hdirs : ∀ t ∈ dirs, IsDirective true maxDepth t)
    (hk : Clear [.braceL] k) (description : Option String) :
    Settles (Syntax.objectType Option.none) Definition.toTree
      (ofChars ((Tree.objectType name (.tuple fields) (.tuple []) (.tuple dirs) description).chars "" ++ k))
      (ofChars k) fun r => fields ≠ [] ∧
        r = (Tree.objectType name (.tuple fields) (.tuple []) (.tuple dirs) description).reading := by
  have htext : (Tree.objectType name (.tuple fields) (.tuple []) (.tuple dirs) description).chars "" ++ k =
      "type".toList ++ ' ' :: (name.toList ++ (directivesText dirs ++ (fieldsText fields ++ k))) := by
    rw [chars_objectType hdirs name description hfields, headText]
    simp [interfacesText]
  have hread : (Tree.objectType name (.tuple fields) (.tuple []) (.tuple dirs) description).reading =
      .objectType name (.tuple (fields.map reading)) (.tuple []) (.tuple (dirs.map reading)) Option.none :=
    reading_eq _
  rw [htext, hread, Tape.ofChars_name (by decide) (by simp [isBoundary, isNameChar]), Tape.ofChars_space]
  refine Settles.of_run ?_ (bind_run (keyword_run ..) _)
  refine settles_fieldsType hname hfields hdirs hk fun ds fs hds hfs => ?_
  simp only [Definition.toTree, Syntax.FieldsType.toObjectTree, hds, hfs]
  rfl

/-- An object type without directives takes its first interface; what stands behind is its block, or else
another definition. -/
theorem objectType_run {name first : String} (hname : isName name = true) (hfirst : isName first = true)
    {k : List Char} (hk : Clear [.amp, .at, .parenL] k) :
    Syntax.objectType Option.none
        (ofChars ("type".toList ++ ' ' :: (name.toList ++ ' ' ::
          ("implements".toList ++ ' ' :: (first.toList ++ k))))) =
      (do
        let fields ← Syntax.fieldDefinitions
        return .object { name, interfaces := [first], fields } : Parser Definition) (ofChars k) := by
  obtain ⟨t, hfront, ht⟩ := hk.2
  have hpass : (ofChars (first.toList ++ k)).front = some (.name first) := by
    rw [Tape.ofChars_name hfirst hk.1]
    rfl
  have hinterfaces : Syntax.interfaces (ofChars ("implements".toList ++ ' ' :: (first.toList ++ k))) =
      .ok ([first], ofChars k) := by
    rw [Syntax.interfaces, Tape.ofChars_name (by decide) (by simp [isBoundary, isNameChar]),
      bind_run (skipKeyword_run ..), if_pos rfl, separated, Tape.ofChars_space,
      bind_run (skip_pass hpass (by simp)), Tape.ofChars_name hfirst hk.1, bind_run (name_run ..),
      bind_run (itemsWhile_stop hfront (by simpa using ht .amp (by simp)))]
    rfl
  have hdirs : Syntax.constDirectives (ofChars k) = .ok ([], ofChars k) :=
    itemsWhile_stop hfront (by simpa using ht .at (by simp))
  rw [Tape.ofChars_name (by decide) (by simp [isBoundary, isNameChar]), Syntax.objectType, bind_run (keyword_run ..)]
  simp only [Syntax.fieldsType, map_bind, map_pure]
  rw [Tape.ofChars_space, Tape.ofChars_name hname (by simp [isBoundary, isNameChar]), bind_run (name_run ..),
    Tape.ofChars_space, bind_run hinterfaces, bind_run hdirs]

/-- The text of an object type with one interface and no directives is read back unless it has no fields. -/
theorem settles_objectType_one {name first : String} {fields : List Tree} {k : List Char}
    (hname : isName name = true) (hfirst : isName first = true) (hfields : ∀ f ∈ fields, IsFieldDefinition f)
    (hk : Clear [.braceL] k) (description : Option String) :
    Settles (Syntax.objectType Option.none) Definition.toTree
      (ofChars ((Tree.objectType name (.tuple fields) (.tuple [first]) (.tuple []) description).chars "" ++ k))
      (ofChars k) fun r => fields ≠ [] ∧
        r = (Tree.objectType name (.tuple fields) (.tuple [first]) (.tuple []) description).reading := by
  have htext : (Tree.objectType name (.tuple fields) (.tuple [first]) (.tuple []) description).chars "" ++ k =
      "type".toList ++ ' ' :: (name.toList ++ ' ' :: ("implements".toList ++ ' ' ::
        (first.toList ++ (fieldsText fields ++ k)))) := by
    have hnone : directivesText [] = [] := rfl
    rw [chars_objectType (by simp) name description hfields, headText, hnone]
    simp [interfacesText, Layout.commaList]
  have hread : (Tree.objectType name (.tuple fields) (.tuple [first]) (.tuple []) description).reading =
      .objectType name (.tuple (fields.map reading)) (.tuple [first]) (.tuple []) Option.none := reading_eq _
  have hblock := settles_fields ⟨_, Syntax.ensures_fieldDefinition⟩
    (fun f hf => written_fieldDefinition (hfields f hf)) (by simp) fieldDefinition_fails hk
  rw [htext, hread]
  refine (hblock.finish fun fs hfs => ⟨_, rfl, ?_⟩).of_run
    (objectType_run hname hfirst (clear_fieldsText fields (by simp) k))
  simp only [Definition.toTree, Syntax.FieldsType.toObjectTree, hfs]
  rfl

theorem reading_unionType (name : String) (members : List String) (dirs : List Tree) (description : Option String) :
    (Tree.unionType name (.tuple (members.map .typeName)) (.tuple dirs) description).reading =
      .unionType name (.tuple (members.map .typeName)) (.tuple (dirs.map reading)) Option.none := by
  have hself : (members.map Tree.typeName).map reading = members.map .typeName := by
    rw [List.map_map]
    exact List.map_congr_left fun m _ => reading_eq (.typeName m)
  rw [reading_eq]
  show Tree.unionType name (.tuple ((members.map Tree.typeName).map reading)) (.tuple (dirs.map reading))
    Option.none = _
  rw [hself]

/-- The text of a union with members is read back. -/
theorem settles_unionType {name : String} {members : List String} {dirs : List Tree} {k : List Char}
    (hname : isName name = true) (hmembers : ∀ n ∈ members, isName n = true)
    (hdirs : ∀ t ∈ dirs, IsDirective true maxDepth t) (hsome : members ≠ []) (hk : Clear [.pipe] k)
    (description : Option String) :
    Settles (Syntax.unionType Option.none) Definition.toTree
      (ofChars ((Tree.unionType name (.tuple (members.map .typeName)) (.tuple dirs) description).chars "" ++ k))
      (ofChars k)
      (· = (Tree.unionType name (.tuple (members.map .typeName)) (.tuple dirs) description).reading) := by
  have hclear : Clear [.at, .parenL] (' ' :: '=' :: ' ' :: (" | ".intercalate members).toList ++ k) :=
    clear_blank isBlank_space (clear_punct (m := .equals) (by decide) (by simp) _)
  obtain ⟨ds, hds, hrun⟩ := head_read "union" (by decide) hname hdirs hclear fun name ds => do
    let members ← Syntax.members
    return Definition.union { name, directives := ds, members }
  have htext : (" = " ++ " | ".intercalate members).toList =
      ' ' :: '=' :: ' ' :: (" | ".intercalate members).toList := by
    simp
  obtain ⟨ms, hms, hconv⟩ := reads_members hmembers hsome k hk
  rw [htext] at hms
  cases hconv
  rw [chars_unionType hdirs, reading_unionType, List.append_assoc]
  rw [bind_run hms] at hrun
  refine .of_ok hrun ?_
  simp only [Definition.toTree, Syntax.UnionType.toTree, hds]
  rfl

/-! ## Directive definitions -/

/-- The text of a directive definition is read back. -/
theorem settles_directiveDefinition {name : String} {locations : List String} {args : List Tree} {k : List Char}
    (hname : isName name = true) (hsome : locations ≠ [])
    (hlocations : ∀ n ∈ locations, n ∈ Syntax.locationNames) (hargs : ∀ a ∈ args, IsInputValue a)
    (hk : Clear [.pipe] k) (description : Option String) :
    Settles (Syntax.directiveDefinition Option.none) Definition.toTree
      (ofChars ((Tree.directiveDefinition name (.tuple locations) (.tuple args) description).chars "" ++ k))
      (ofChars k)
      (· = (Tree.directiveDefinition name (.tuple locations) (.tuple args) description).reading) := by
  have htext : (Tree.directiveDefinition name (.tuple locations) (.tuple args) description).chars "" ++ k =
      "directive".toList ++ ' ' :: '@' :: (name.toList ++ (parensText args ++
        ' ' :: ("on".toList ++ ' ' :: ((" | ".intercalate locations).toList ++ k)))) := by
    rw [chars_directiveDefinition hargs]
    simp
  have hread : (Tree.directiveDefinition name (.tuple locations) (.tuple args) description).reading =
      .directiveDefinition name (.tuple locations) (.tuple (args.map reading)) Option.none := reading_eq _
  -- the word `on` ends the arguments, and it is not `repeatable`
  have hpeek : ∀ cs, (ofChars (' ' :: ("on".toList ++ ' ' :: cs))).front = some (.name "on") := by
    intro cs
    rw [Tape.ofChars_space, Tape.ofChars_name (by decide) (by simp [isBoundary, isNameChar])]
    rfl
  have hclear : ∀ cs, Clear [.parenL] (' ' :: ("on".toList ++ ' ' :: cs)) :=
    fun cs => ⟨by simp [isBoundary, isNameChar], _, hpeek cs, by simp⟩
  have hnames : ∀ n ∈ locations, isName n = true := fun n hn => isName_of_mem_locationNames n (hlocations n hn)
  obtain ⟨as, hargsRun, has⟩ := reads_argumentDefinitions hargs _ (hclear ((" | ".intercalate locations).toList ++ k))
  obtain ⟨ls, hlocationsRun, hls⟩ := reads_separated ⟨_, Syntax.ensures_location⟩ hnames
    (fun n hn => reads_location (hlocations n hn)) hsome k hk
  cases hls
  have hdirs : ∀ tape : Tape, tape.front = some (.name "on") → Syntax.constDirectives tape = .ok ([], tape) :=
    fun tape hfront => itemsWhile_stop hfront (by simp)
  rw [htext, hread]
  refine .of_ok (x := .directive { name, arguments := as, locations }) ?_ ?_
  · rw [Syntax.directiveDefinition, Tape.ofChars_name (by decide) (by simp [isBoundary, isNameChar]),
      bind_run (keyword_run ..), Tape.ofChars_space, Tape.ofChars_punct (m := .at) (by decide),
      bind_run (expect_run ..), Tape.ofChars_name hname ((opens_parens args).boundary (m := .parenL) (by decide)
        (hclear _).1), bind_run (name_run ..), bind_run hargsRun, bind_run (hdirs _ (hpeek _)),
      bind_run (skipKeyword_pass (hpeek _) (by simp)), Tape.ofChars_space,
      Tape.ofChars_name (by decide) (by simp [isBoundary, isNameChar]), bind_run (keyword_run ..),
      Tape.ofChars_space, bind_run hlocationsRun]
    rfl
  · simp only [Definition.toTree, Syntax.DirectiveDefinition.toTree, has]
    rfl

/-! ## Schema blocks -/

/-- The roots of a schema block that are given. -/
def givenRoots (query mutation subscription : Option String) : List (OperationKind × String) :=
  query.toList.map (OperationKind.query, ·) ++ (mutation.toList.map (OperationKind.mutation, ·) ++
    subscription.toList.map (OperationKind.subscription, ·))

/-- A root of a schema block in print. -/
def rootText (root : OperationKind × String) : List Char := root.1.keyword.toList ++ ':' :: ' ' :: root.2.toList

theorem operationKind_run (kind : OperationKind) {place : List Char} {rest : Tape} {t : Token}
    (hfront : rest.front = some t) :
    Syntax.operationKind (.next (.name kind.keyword) place rest) = .ok (kind, rest) := by
  have hhead : head (.next (.name kind.keyword) place rest) =
      .ok ((.name kind.keyword, place), .next (.name kind.keyword) place rest) := rfl
  rw [Syntax.operationKind, bind_run hhead]
  show (name >>= _) _ = _
  rw [bind_run (name_run ..), bind_run (peek_run hfront)]
  cases kind <;> rfl

theorem isName_keyword (kind : OperationKind) : isName kind.keyword = true := by
  cases kind <;> decide

theorem reads_root {root : OperationKind × String} (h : isName root.2 = true) :
    Reads Syntax.root pure [] (rootText root) root := by
  intro k hk
  refine ⟨root, ?_, rfl⟩
  have hcolon : ∀ cs, (ofChars (':' :: cs)).front = some (.punct .colon) := by
    intro cs
    rw [Tape.ofChars_punct (m := .colon) (by decide)]
    rfl
  rw [rootText, List.append_assoc, Tape.ofChars_name (isName_keyword _) (by simp [isBoundary, isNameChar]),
    List.cons_append, List.cons_append, Syntax.root, bind_run (operationKind_run root.1 (hcolon _)),
    Tape.ofChars_punct (m := .colon) (by decide), bind_run (expect_run ..), Tape.ofChars_space,
    Tape.ofChars_name h hk.1, bind_run (name_run ..)]
  rfl

/-- A line of a schema block. -/
def rootRow (root : OperationKind × String) : List Char := ' ' :: ' ' :: (rootText root ++ ['\n'])

/-- The line of a root in print, left out when the root is not given. -/
def rootLine (word : String) : Option String → String
  | Option.none => ""
  | some type => if type = "" then "" else Layout.step ++ word ++ ": " ++ type ++ "\n"

theorem toList_rootLine (kind : OperationKind) {root : Option String} (h : ∀ n ∈ root, isName n = true) :
    (rootLine kind.keyword root).toList = (root.toList.map (kind, ·)).flatMap rootRow := by
  cases root with
  | none => rfl
  | some type =>
    rw [rootLine, if_neg (ne_empty_of_isName (h type rfl))]
    simp [rootRow, rootText, Layout.step]

theorem series_rootText (roots : List (OperationKind × String)) :
    series rootText [' ', ' '] [' ', ' '] ['\n'] roots = roots.flatMap rootRow := by
  induction roots with
  | nil => rfl
  | cons root roots ih =>
    rw [series, ih, List.flatMap_cons, rootRow]
    simp

/-- A schema block that is not suppressed is written line by line. -/
theorem schema_eq (query mutation subscription description : Option String) :
    Layout.schema query mutation subscription =
      if isSuppressed (.schema query mutation subscription description) then ""
      else "schema \x7b\n" ++ rootLine OperationKind.query.keyword query ++
        rootLine OperationKind.mutation.keyword mutation ++
        rootLine OperationKind.subscription.keyword subscription ++ "\x7d" := by
  unfold Layout.schema
  simp [isSuppressed, Layout.defaultRoots, Bool.and_assoc]
  rfl

theorem toList_schema {query mutation subscription : Option String}
    (hquery : ∀ n ∈ query, isName n = true) (hmutation : ∀ n ∈ mutation, isName n = true)
    (hsubscription : ∀ n ∈ subscription, isName n = true) {description : Option String}
    (hshown : isSuppressed (.schema query mutation subscription description) = false) :
    givenRoots query mutation subscription ≠ [] ∧
    (Layout.schema query mutation subscription).toList = "schema".toList ++ ' ' :: bracketed '{' '}' []
      (series rootText ['\n', ' ', ' '] [' ', ' '] ['\n'] (givenRoots query mutation subscription)) := by
  have hsome : givenRoots query mutation subscription ≠ [] := by
    intro hnil
    cases query <;> cases mutation <;> cases subscription
    case none.none.none => cases hshown
    all_goals simp [givenRoots] at hnil
  have hrows : ∀ {roots : List (OperationKind × String)}, roots ≠ [] →
      series rootText ['\n', ' ', ' '] [' ', ' '] ['\n'] roots = '\n' :: roots.flatMap rootRow := by
    intro roots hroots
    obtain ⟨root, roots, rfl⟩ := List.exists_cons_of_ne_nil hroots
    rw [← series_rootText]
    simp [series]
  refine ⟨hsome, ?_⟩
  rw [schema_eq query mutation subscription description, hshown, if_neg Bool.false_ne_true, hrows hsome]
  simp only [String.toList_append, toList_rootLine _ hquery, toList_rootLine _ hmutation,
    toList_rootLine _ hsubscription]
  simp [givenRoots, bracketed]

theorem isName_of_mem_givenRoots {query mutation subscription : Option String}
    (hquery : ∀ n ∈ query, isName n = true) (hmutation : ∀ n ∈ mutation, isName n = true)
    (hsubscription : ∀ n ∈ subscription, isName n = true) :
    ∀ root ∈ givenRoots query mutation subscription, isName root.2 = true := by
  intro root hroot
  simp only [givenRoots, List.mem_append, List.mem_map, Option.mem_toList] at hroot
  rcases hroot with ⟨n, hn, rfl⟩ | ⟨n, hn, rfl⟩ | ⟨n, hn, rfl⟩
  · exact hquery n hn
  · exact hmutation n hn
  · exact hsubscription n hn

/-- The roots of a schema block, of which there are some, are read one by one. -/
theorem reads_roots {roots : List (OperationKind × String)} (hsome : roots ≠ [])
    (h : ∀ root ∈ roots, isName root.2 = true) :
    Reads (many .braceL Syntax.root .braceR) pure []
      (bracketed '{' '}' [] (series rootText ['\n', ' ', ' '] [' ', ' '] ['\n'] roots)) roots := by
  have hlead : IsBlank ['\n', ' ', ' '] := by simp [IsBlank, Tape.isIgnored]
  have hglue : IsBlank [' ', ' '] := by simp [IsBlank, Tape.isIgnored]
  have hpost : IsBlank ['\n'] := by simp [IsBlank, Tape.isIgnored]
  have hseries : IsSeries Syntax.root pure (· ≠ .punct .braceR) (fun tok => ∃ s, tok = .name s) [] [' ', ' '] ['\n']
      rootText id roots := {
    one := ⟨_, Syntax.ensures_root⟩
    blank_glue := hglue
    blank_post := hpost
    reads := fun root hroot => reads_root (h root hroot)
    starts := fun root _ => (starts_name (isName_keyword root.1) fun k _ => boundary_colon _ k).mono
      fun _ ht => ⟨_, ht⟩
    clear := by simp
    goes := by
      rintro _ ⟨s, rfl⟩
      simp
    boundary := by simp [isBoundary, isNameChar] }
  obtain ⟨root, roots, rfl⟩ := List.exists_cons_of_ne_nil hsome
  have hopen : Punct.ofChar? '{' = some .braceL := by decide
  have hchar : Punct.ofChar? '}' = some .braceR := by decide
  refine (Reads.many hseries hlead isBlank_nil hopen hchar (by simp)).imp fun xs hxs => ?_
  rw [eq_of_mapM_pure hxs]
  rfl

/-- The text of a schema block that is shown is read back. -/
theorem settles_schema {query mutation subscription : Option String}
    (hquery : ∀ n ∈ query, isName n = true) (hmutation : ∀ n ∈ mutation, isName n = true)
    (hsubscription : ∀ n ∈ subscription, isName n = true) {description : Option String}
    (hshown : isSuppressed (.schema query mutation subscription description) = false) {k : List Char}
    (hk : Clear [] k) :
    Settles (Syntax.schema Option.none) Definition.toTree
      (ofChars ((Tree.schema query mutation subscription description).chars "" ++ k)) (ofChars k)
      (· = (Tree.schema query mutation subscription description).reading) := by
  obtain ⟨hsome, htext⟩ := toList_schema hquery hmutation hsubscription hshown
  have hread : (Tree.schema query mutation subscription description).reading =
      .schema query mutation subscription Option.none := reading_eq _
  have hreads := reads_roots hsome (isName_of_mem_givenRoots hquery hmutation hsubscription)
  obtain ⟨roots, hrun, hroots⟩ := hreads k hk
  cases hroots
  have hbrace : ∀ cs, (ofChars (' ' :: '{' :: cs)).front = some (.punct .braceL) := by
    intro cs
    rw [Tape.ofChars_space, Tape.ofChars_punct (m := .braceL) (by decide)]
    rfl
  have hdirs : ∀ tape : Tape, tape.front = some (.punct .braceL) → Syntax.constDirectives tape = .ok ([], tape) :=
    fun tape hfront => itemsWhile_stop hfront (by simp)
  rw [(printsAs_schema query mutation subscription description "").chars_eq, htext, hread]
  refine .of_ok (x := .schema { roots := givenRoots query mutation subscription }) ?_ ?_
  · rw [List.append_assoc, Tape.ofChars_name (by decide) (by simp [isBoundary, isNameChar]), Syntax.schema,
      bind_run (keyword_run ..), List.cons_append, bracketed, List.cons_append, bind_run (hdirs _ (hbrace _)),
      Tape.ofChars_space, ← List.cons_append, ← bracketed, bind_run hrun]
    rfl
  · cases query <;> cases mutation <;> cases subscription <;> rfl

end GraphDoc
