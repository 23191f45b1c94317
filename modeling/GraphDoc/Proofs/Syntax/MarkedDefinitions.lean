import GraphDoc.Proofs.Syntax.Marked

/-!
# Marked definitions can be read

A reader for each kind of definition, as it is printed and with the ends of its lines marked. Blocks, unions and
selection sets may be empty, and interfaces have commas between them.
-/

namespace GraphDoc

open GraphDoc.Parser GraphDoc.Tree
open Syntax (Converted Definition Directive EnumValueDefinition FieldDefinition InputValue OperationKind Selection
  VariableDefinition maxDepth)
open Tape (ofChars)

/-! ## Readers -/

/-- Whether the token is a name. -/
def Token.isWord : Token → Bool
  | .name _ => true
  | _ => false

/-- The name of an operation, if it has one. -/
def optionalName : Parser (Option String) := do
  if (← peek).isWord then some <$> name else return Option.none

/-- Interfaces with commas between them, or nothing at all. -/
def markedInterfaces : Parser (List String) := do
  if ← skipKeyword "implements" then itemsWhile Token.isWord name else return []

/-- The members of a union, of which there may be none. -/
def markedMembers : Parser (List String) := do
  expect .equals
  if (← peek).isWord then separated .pipe name else return []

/-- A keyword, a name and directives, and what stands behind them. -/
def headed (word : String) (body : String → List Directive → Parser Definition) : Parser Definition := do
  keyword word
  let name ← name
  let directives ← Syntax.constDirectives
  body name directives

/-- A marked operation. -/
def markedOperation : Parser Definition := do
  let kind ← Syntax.operationKind
  let name ← optionalName
  let vars ← optionalMany .parenL Syntax.variableDefinition .parenR
  let directives ← Syntax.directives false maxDepth
  let selections ← markedSet maxDepth
  return .operation { kind, name, vars, directives, selections := some selections }

/-- A marked fragment. -/
def markedFragment : Parser Definition := do
  keyword "fragment"
  let name ← name
  keyword "on"
  let type ← Parser.name
  let directives ← Syntax.directives false maxDepth
  let selections ← markedSet maxDepth
  return .fragment { name, type := some type, directives, selections := some selections }

/-- A marked schema block. -/
def markedSchema : Parser Definition := do
  keyword "schema"
  let roots ← markedLines Syntax.root
  return .schema { roots }

/-- The marked definition that a keyword starts. -/
def markedDefinitionOf : String → Parser Definition
  | "fragment" => markedFragment
  | "schema" => markedSchema
  | "scalar" => headed "scalar" fun name directives => return .scalar { name, directives }
  | "type" => headed "type" fun name directives => do
    let interfaces ← markedInterfaces
    let fields ← markedLines Syntax.fieldDefinition
    return .object { name, interfaces, directives, fields }
  | "interface" => headed "interface" fun name directives => do
    let fields ← markedLines Syntax.fieldDefinition
    return .interface { name, directives, fields }
  | "union" => headed "union" fun name directives => do
    let members ← markedMembers
    return .union { name, directives, members }
  | "enum" => headed "enum" fun name directives => do
    let values ← markedLines Syntax.enumValueDefinition
    return .enum { name, directives, values }
  | "input" => headed "input" fun name directives => do
    let fields ← markedLines Syntax.inputValue
    return .input { name, directives, fields }
  | "directive" => Syntax.directiveDefinition Option.none
  | _ => markedOperation

/-- A marked definition. -/
def markedDefinition : Parser Definition := do
  match ← peek with
  | .name word => markedDefinitionOf word
  | _ => unexpected

/-! ## Blocks of types -/

/-- The last part of a definition is read, and the definition with it. -/
theorem Reads.finishLine {α β γ δ : Type} {p : Parser α} {conv : α → Converted γ} {g : α → δ}
    {conv' : δ → Converted β} {bad : List Punct} {cs : List Char} {s : γ} {r : β} (h : Reads p conv bad cs s)
    (hbad : .amp ∉ bad) (hg : ∀ x, conv x = .ok s → conv' (g x) = .ok r) :
    ReadsLine (do return g (← p)) conv' cs r := by
  intro k hk
  obtain ⟨x, hrun, hx⟩ := h.line hbad k hk
  exact ⟨g x, by rw [bind_run hrun]; rfl, hg x hx⟩

/-- One step is an indent. -/
theorem isIndent_step : IsIndent Layout.step := by simp [IsIndent, Layout.step]

/-- A line of a block that starts with a name. -/
theorem isRow_word {α β : Type} {item : Parser α} {conv : α → Converted β} {bad : List Punct} {cs : List Char} {r : β}
    (hstart : Starts (fun tok => ∃ s, tok = .name s) bad cs) (hreads : Reads item conv bad cs r)
    (hline : IsLine cs) (hbad : .amp ∉ bad) : IsRow item conv (Layout.step.toList ++ cs) r := by
  refine isRow_indented isIndent_step (by simp [Layout.step]) (fun k hk => ?_) fun k hk => ?_
  · rw [hline.marked_eq]
    obtain ⟨tok, hfront, s, rfl⟩ := hstart k (hk.clear hbad)
    exact ⟨.name s, hfront, by simp⟩
  · rw [hline.marked_eq]
    exact hreads.line hbad k hk

/-- The fields of a type are printed as lines between braces. -/
theorem fieldsText_eq_lines (fields : List Tree) :
    fieldsText fields = linesText (fun f => Layout.step.toList ++ f.chars "") [] fields := by
  have hrows : (fields.map fun f => Layout.step ++ f.printed "" ++ "\n").flatMap String.toList =
      series (fun f : Tree => Layout.step.toList ++ f.chars "") [] [] ['\n'] fields := by
    induction fields with
    | nil => rfl
    | cons f fields ih =>
      rw [List.map_cons, List.flatMap_cons, ih, series]
      simp [chars]
  rw [fieldsText, Layout.fields, String.toList_append, String.toList_append, String.toList_join, List.map_map]
  simp only [Function.comp_def, hrows]
  simp [linesText]

/-- The block of a type is read, also if it is empty. -/
theorem reads_fieldLines {α : Type} {item : Parser α} {conv : α → Converted Tree} {bad : List Punct}
    {fields : List Tree} (hone : ∃ P, Ensures 1 item P)
    (h : ∀ t ∈ fields, Written item conv (fun tok => ∃ s, tok = .name s) bad "" t t.reading)
    (hline : ∀ t ∈ fields, IsLine (t.chars "")) (hbad : .amp ∉ bad) :
    Reads (markedLines item) (·.mapM conv) [] (marked (fieldsText fields)) (fields.map reading) := by
  obtain ⟨P, hone⟩ := hone
  rw [fieldsText_eq_lines]
  refine reads_lines ⟨P, hone.least (Nat.zero_le 1)⟩ (fun f hf => ?_) isBlank_nil isLine_nil
  exact isRow_word (h f hf).starts (h f hf).reads (hline f hf) hbad

/-- The line of an enum value. -/
def valueLine : Tree → List Char
  | .enumValueDefinition name dirs _ => name.toList ++ directivesText dirs.items
  | _ => []

/-- The values of an enum are printed as lines between braces. -/
theorem valuesText_eq_lines {values : List Tree} (h : ∀ v ∈ values, IsEnumValue v) :
    valuesText values = linesText (fun v => Layout.step.toList ++ valueLine v) [] values := by
  have hrows : (values.map (·.printed "")).flatMap String.toList =
      series (fun v => Layout.step.toList ++ valueLine v) [] [] ['\n'] values := by
    induction values with
    | nil => rfl
    | cons v values ih =>
      have hrest := ih fun w hw => h w (List.mem_cons_of_mem _ hw)
      obtain ⟨hname, hfree, hdirs⟩ := h v (by simp)
      rename_i name dirs description
      rw [List.map_cons, List.flatMap_cons, hrest, series, ← chars, chars_enumValue name hdirs description]
      simp [Layout.step, valueLine]
  rw [valuesText, String.toList_append, String.toList_append, String.toList_join, hrows]
  simp [linesText]

/-- The values of an enum type are read, also if there are none. -/
theorem reads_valueLines {values : List Tree} (h : ∀ v ∈ values, IsEnumValue v) :
    Reads (markedLines Syntax.enumValueDefinition) (·.mapM EnumValueDefinition.toTree) []
      (marked (valuesText values)) (values.map reading) := by
  rw [valuesText_eq_lines h]
  refine reads_lines ⟨_, Syntax.ensures_enumValueDefinition.least (Nat.zero_le 1)⟩ (fun v hv => ?_) isBlank_nil
    isLine_nil
  obtain ⟨hname, hfree, hdirs⟩ := h v hv
  rename_i name dirs description
  obtain ⟨hstart, hreads⟩ := written_enumLine hname hfree hdirs description
  have hline : IsLine (name.toList ++ directivesText dirs) := by
    simp [isLine_name hname, isLine_directives hdirs]
  exact isRow_word hstart hreads hline (by simp)

/-- Lines between braces start with neither arguments nor directives. -/
theorem clear_markedLines {τ : Type} (line : τ → List Char) (last : List Char) (ts : List τ) (k : List Char) :
    Clear [.at, .parenL] (marked (linesText line last ts) ++ k) :=
  clear_blank isBlank_space (clear_punct (m := .braceL) (by decide) (by simp) _)

/-- The fields of a type start with neither arguments nor directives. -/
theorem clear_markedFields (fields : List Tree) (k : List Char) :
    Clear [.at, .parenL] (marked (fieldsText fields) ++ k) := by
  rw [fieldsText_eq_lines]
  exact clear_markedLines _ _ _ k

/-! ## Interfaces and members -/

/-- The fields of a type start with a brace, even if there are none. -/
theorem front_markedFields (fields : List Tree) (k : List Char) :
    (ofChars (marked (fieldsText fields) ++ k)).front = some (.punct .braceL) := by
  rw [fieldsText_eq_lines]
  show (ofChars (' ' :: '{' :: _)).front = _
  rw [Tape.ofChars_space, Tape.ofChars_punct (m := .braceL) (by decide)]
  rfl

/-- The interfaces of a type stand between commas, behind their keyword. -/
theorem interfacesText_given {interfaces : List String} (h : interfaces ≠ []) :
    (interfacesText interfaces).toList =
      ' ' :: ("implements".toList ++ ' ' :: series String.toList [] [',', ' '] [] interfaces) := by
  rw [interfacesText, if_neg (by simpa using h), String.toList_append, Layout.toList_commaList]
  simp

/-- The interfaces of a type start with neither arguments nor directives. -/
theorem clear_interfaces {interfaces : List String} (h : ∀ n ∈ interfaces, isName n = true) {k : List Char}
    (hk : Clear [.at, .parenL] k) : Clear [.at, .parenL] ((interfacesText interfaces).toList ++ k) := by
  by_cases hempty : interfaces = []
  · subst hempty
    exact hk
  · rw [interfacesText_given hempty, List.cons_append, List.append_assoc]
    exact clear_ignored (by decide) (front_name (by decide) _ (by simp [isBoundary, isNameChar]))

/-- The interfaces in front of a block are read, with commas between them. -/
theorem interfaces_run {interfaces : List String} (h : ∀ n ∈ interfaces, isName n = true) {k : List Char}
    (hclear : Clear [] k) (hfront : (ofChars k).front = some (.punct .braceL)) :
    markedInterfaces (ofChars ((interfacesText interfaces).toList ++ k)) = .ok (interfaces, ofChars k) := by
  by_cases hempty : interfaces = []
  · subst hempty
    show markedInterfaces (ofChars k) = _
    rw [markedInterfaces, bind_run (skipKeyword_pass hfront (by simp))]
    rfl
  · -- commas are blank, so the names stand side by side up to the brace of the block
    have hseries : IsSeries name pure Token.isWord (fun tok => ∃ s, tok = .name s) [] [',', ' '] [] String.toList id
        interfaces := {
      one := ⟨_, ensures_name⟩
      blank_glue := isBlank_comma
      blank_post := isBlank_nil
      reads := fun n hn => reads_name (h n hn)
      starts := by
        intro n hn k hk
        rw [Tape.ofChars_name (h n hn) hk.1]
        exact ⟨.name n, rfl, n, rfl⟩
      clear := by simp
      goes := by
        rintro _ ⟨s, rfl⟩
        rfl
      boundary := by simp [isBoundary, isNameChar] }
    obtain ⟨names, hrun, hnames⟩ := hseries.run isBlank_nil (k := k) hclear ⟨_, hfront, rfl⟩
    have hname : isName "implements" = true := by decide
    rw [interfacesText_given hempty, List.cons_append, List.append_assoc, Tape.ofChars_space,
      Tape.ofChars_name hname (by simp [isBoundary, isNameChar]), markedInterfaces, bind_run (skipKeyword_run ..),
      if_pos rfl, List.cons_append, Tape.ofChars_space, hrun, eq_of_mapM_pure hnames]

/-- A list of names starts with the first of them. -/
theorem front_bars {names : List String} (h : ∀ n ∈ names, isName n = true) (hsome : names ≠ []) {k : List Char}
    (hk : Boundary k) : ∃ n, (ofChars ((" | ".intercalate names).toList ++ k)).front = some (.name n) := by
  obtain ⟨first, rest, rfl⟩ := List.exists_cons_of_ne_nil hsome
  have hrest : Boundary (series (fun n : String => '|' :: ' ' :: n.toList) [' '] [' '] [] rest ++ k) := by
    cases rest with
    | nil => exact hk
    | cons second rest => simp [series, isBoundary, isNameChar]
  rw [toList_bars, List.append_assoc, Tape.ofChars_name (h first (by simp)) hrest]
  exact ⟨first, rfl⟩

/-- The members of a union are read, also if there are none. -/
theorem members_run {members : List String} (h : ∀ n ∈ members, isName n = true) {k : List Char} (hk : EndsLine k) :
    markedMembers (ofChars (' ' :: '=' :: ' ' :: ((" | ".intercalate members).toList ++ k))) =
      .ok (members, ofChars k) := by
  rw [Tape.ofChars_space, Tape.ofChars_punct (m := .equals) (by decide), markedMembers, bind_run (expect_run ..),
    Tape.ofChars_space]
  -- without a name in front, the union has no members
  by_cases hempty : members = []
  · subst hempty
    obtain ⟨t, hfront, ht⟩ := hk.front
    show ((do if (← peek).isWord then separated .pipe name else return []) : Parser (List String)) (ofChars k) = _
    rw [bind_run (peek_run hfront)]
    cases t with
    | name w => exact absurd rfl (ht w)
    | _ => rfl
  · obtain ⟨n, hfront⟩ := front_bars h hempty hk.boundary
    obtain ⟨names, hrun, hnames⟩ := reads_separated ⟨_, ensures_name⟩ h (fun n hn => reads_name (h n hn)) hempty k
      (hk.clear (by simp))
    cases hnames
    rw [bind_run (peek_run hfront)]
    exact hrun

/-! ## Types -/

section Types

variable {name word : String} {dirs : List Tree} (hname : isName name = true)
  (hdirs : ∀ t ∈ dirs, IsDirective true maxDepth t)

include hname hdirs

/-- The keyword, name and directives of a marked definition are read. -/
theorem readsLine_headed (hword : isName word = true) {body : String → List Directive → Parser Definition}
    {cs : List Char} {r : Tree} (hcs : ∀ k, EndsLine k → Clear [.at, .parenL] (marked cs ++ k))
    (h : ∀ ds, Syntax.directiveTrees ds = .ok (.tuple (dirs.map reading)) →
      ReadsLine (body name ds) Definition.toTree (marked cs) r) :
    ReadsLine (headed word body) Definition.toTree (marked (headText word name dirs ++ cs)) r := by
  intro k hk
  obtain ⟨ds, hds, hrun⟩ := head_read word hword hname hdirs (hcs k hk) body
  rw [marked_append, (isLine_headText hword hname hdirs).marked_eq, List.append_assoc]
  obtain ⟨x, hx, hconv⟩ := h ds hds k hk
  exact ⟨x, hrun.trans hx, hconv⟩

/-- A scalar type is read back from its marked text. -/
theorem readsLine_scalarType (description : Option String) :
    ReadsLine (markedDefinitionOf "scalar") Definition.toTree
      (marked ((Tree.scalarType name (.tuple dirs) description).chars ""))
      (Tree.scalarType name (.tuple dirs) description).reading := by
  have hread : (Tree.scalarType name (.tuple dirs) description).reading =
      .scalarType name (.tuple (dirs.map reading)) Option.none := reading_eq _
  rw [chars_scalarType hdirs, ← List.append_nil (headText _ _ _), hread]
  refine readsLine_headed hname hdirs (by decide) (fun k hk => hk.clear (by simp)) fun ds hds k hk => ?_
  refine ⟨_, rfl, ?_⟩
  simp only [Definition.toTree, Syntax.ScalarType.toTree, hds]
  rfl

/-- An interface type is read back from its marked text. -/
theorem readsLine_interfaceType {fields : List Tree} (hfields : ∀ f ∈ fields, IsFieldDefinition f)
    (description : Option String) :
    ReadsLine (markedDefinitionOf "interface") Definition.toTree
      (marked ((Tree.interfaceType name (.tuple fields) (.tuple dirs) description).chars ""))
      (Tree.interfaceType name (.tuple fields) (.tuple dirs) description).reading := by
  have hread : (Tree.interfaceType name (.tuple fields) (.tuple dirs) description).reading =
      .interfaceType name (.tuple (fields.map reading)) (.tuple (dirs.map reading)) Option.none := reading_eq _
  have hblock := reads_fieldLines ⟨_, Syntax.ensures_fieldDefinition⟩
    (fun f hf => written_fieldDefinition (hfields f hf)) (fun f hf => isLine_fieldDefinition (hfields f hf)) (by simp)
  rw [chars_interfaceType hdirs name description hfields, hread]
  refine readsLine_headed hname hdirs (by decide) (fun k _ => clear_markedFields fields k) fun ds hds => ?_
  refine hblock.finishLine (by simp) fun fs hfs => ?_
  simp only [Definition.toTree, Syntax.FieldsType.toInterfaceTree, hds, hfs]
  rfl

/-- An input type is read back from its marked text. -/
theorem readsLine_inputType {fields : List Tree} (hfields : ∀ f ∈ fields, IsInputValue f)
    (description : Option String) :
    ReadsLine (markedDefinitionOf "input") Definition.toTree
      (marked ((Tree.inputType name (.tuple fields) (.tuple dirs) description).chars ""))
      (Tree.inputType name (.tuple fields) (.tuple dirs) description).reading := by
  have hread : (Tree.inputType name (.tuple fields) (.tuple dirs) description).reading =
      .inputType name (.tuple (fields.map reading)) (.tuple (dirs.map reading)) Option.none := reading_eq _
  have hblock := reads_fieldLines ⟨_, Syntax.ensures_inputValue⟩ (fun f hf => written_inputValue (hfields f hf))
    (fun f hf => isLine_inputValue (hfields f hf)) (by simp)
  rw [chars_inputType hdirs name description hfields, hread]
  refine readsLine_headed hname hdirs (by decide) (fun k _ => clear_markedFields fields k) fun ds hds => ?_
  refine hblock.finishLine (by simp) fun fs hfs => ?_
  simp only [Definition.toTree, Syntax.InputType.toTree, hds, hfs]
  rfl

/-- An enum is read back from its marked text. -/
theorem readsLine_enumType {values : List Tree} (hvalues : ∀ v ∈ values, IsEnumValue v) (description : Option String) :
    ReadsLine (markedDefinitionOf "enum") Definition.toTree
      (marked ((Tree.enumType name (.tuple values) (.tuple dirs) description).chars ""))
      (Tree.enumType name (.tuple values) (.tuple dirs) description).reading := by
  have hread : (Tree.enumType name (.tuple values) (.tuple dirs) description).reading =
      .enumType name (.tuple (values.map reading)) (.tuple (dirs.map reading)) Option.none := reading_eq _
  have hblock := reads_valueLines hvalues
  rw [chars_enumType hdirs name description hvalues, hread]
  refine readsLine_headed hname hdirs (by decide) (fun k _ => ?_) fun ds hds => ?_
  · rw [valuesText_eq_lines hvalues]
    exact clear_markedLines _ _ _ k
  · refine hblock.finishLine (by simp) fun vs hvs => ?_
    simp only [Definition.toTree, Syntax.EnumType.toTree, hds, hvs]
    rfl

/-- An object type is read back from its marked text, with any interfaces it has. -/
theorem readsLine_objectType {fields : List Tree} {interfaces : List String}
    (hfields : ∀ f ∈ fields, IsFieldDefinition f) (hinterfaces : ∀ n ∈ interfaces, isName n = true)
    (description : Option String) :
    ReadsLine (markedDefinitionOf "type") Definition.toTree
      (marked ((Tree.objectType name (.tuple fields) (.tuple interfaces) (.tuple dirs) description).chars ""))
      (Tree.objectType name (.tuple fields) (.tuple interfaces) (.tuple dirs) description).reading := by
  have hread : (Tree.objectType name (.tuple fields) (.tuple interfaces) (.tuple dirs) description).reading =
      .objectType name (.tuple (fields.map reading)) (.tuple interfaces) (.tuple (dirs.map reading)) Option.none :=
    reading_eq _
  have hblock := reads_fieldLines ⟨_, Syntax.ensures_fieldDefinition⟩
    (fun f hf => written_fieldDefinition (hfields f hf)) (fun f hf => isLine_fieldDefinition (hfields f hf)) (by simp)
  -- the interfaces are in line with the head; the marks start at the block
  have htext : marked ((interfacesText interfaces).toList ++ fieldsText fields) =
      (interfacesText interfaces).toList ++ marked (fieldsText fields) := by
    rw [marked_append, (isLine_interfaces hinterfaces).marked_eq]
  rw [chars_objectType hdirs name description hfields, hread]
  refine readsLine_headed hname hdirs (by decide) (fun k _ => ?_) fun ds hds k hk => ?_
  · rw [htext, List.append_assoc]
    exact clear_interfaces hinterfaces (clear_markedFields fields k)
  · rw [htext, List.append_assoc]
    obtain ⟨fs, hfrun, hfs⟩ := hblock k (hk.clear (by simp))
    have hfs : fs.mapM FieldDefinition.toTree = .ok (fields.map reading) := hfs
    have hinterfacesRun :=
      interfaces_run hinterfaces ((clear_markedFields fields k).mono (by simp)) (front_markedFields fields k)
    refine ⟨.object { name, interfaces, directives := ds, fields := fs }, ?_, ?_⟩
    · rw [bind_run hinterfacesRun, bind_run hfrun]
      rfl
    · simp only [Definition.toTree, Syntax.FieldsType.toObjectTree, hds, hfs]
      rfl

/-- A union is read back from its marked text, even without members. -/
theorem readsLine_unionType {members : List String} (hmembers : ∀ n ∈ members, isName n = true)
    (description : Option String) :
    ReadsLine (markedDefinitionOf "union") Definition.toTree
      (marked ((Tree.unionType name (.tuple (members.map .typeName)) (.tuple dirs) description).chars ""))
      (Tree.unionType name (.tuple (members.map .typeName)) (.tuple dirs) description).reading := by
  have htext : marked (' ' :: '=' :: ' ' :: (" | ".intercalate members).toList) =
      ' ' :: '=' :: ' ' :: (" | ".intercalate members).toList :=
    IsLine.marked_eq ((isLine_append [' ', '=', ' '] _).2 ⟨by simp, isLine_bars hmembers⟩)
  rw [chars_unionType hdirs, reading_unionType]
  refine readsLine_headed hname hdirs (by decide) (fun k _ => ?_) fun ds hds k hk => ?_
  · rw [htext]
    exact clear_blank isBlank_space (clear_punct (m := .equals) (by decide) (by simp) _)
  · rw [htext, List.cons_append, List.cons_append, List.cons_append]
    refine ⟨.union { name, directives := ds, members }, ?_, ?_⟩
    · rw [bind_run (members_run hmembers hk)]
      rfl
    · simp only [Definition.toTree, Syntax.UnionType.toTree, hds]
      rfl

end Types

/-- A directive definition is read back from its marked text. -/
theorem readsLine_directiveDefinition {name : String} {locations : List String} {args : List Tree}
    (hname : isName name = true) (hsome : locations ≠ []) (hlocations : ∀ n ∈ locations, n ∈ Syntax.locationNames)
    (hargs : ∀ a ∈ args, IsInputValue a) (description : Option String) :
    ReadsLine (markedDefinitionOf "directive") Definition.toTree
      (marked ((Tree.directiveDefinition name (.tuple locations) (.tuple args) description).chars ""))
      (Tree.directiveDefinition name (.tuple locations) (.tuple args) description).reading := by
  rw [(isLine_directiveDefinition hname hlocations hargs description).marked_eq]
  intro k hk
  exact (settles_directiveDefinition hname hsome hlocations hargs (hk.clear (by simp)) description).reads _ rfl

/-! ## Schema blocks -/

/-- What stands between the items may as well stand in front of each. -/
theorem series_glue {τ : Type} (text : τ → List Char) (glue post : List Char) (ts : List τ) :
    series text glue glue post ts = series (fun t => glue ++ text t) [] [] post ts := by
  induction ts with
  | nil => rfl
  | cons t ts ih =>
    rw [series, series, ih]
    simp

/-- The roots of a schema block are printed as lines between braces. -/
theorem rootLines_eq {roots : List (OperationKind × String)} (h : roots ≠ []) :
    ' ' :: bracketed '{' '}' [] (series rootText ['\n', ' ', ' '] [' ', ' '] ['\n'] roots) =
      linesText (fun root => Layout.step.toList ++ rootText root) [] roots := by
  obtain ⟨root, roots, rfl⟩ := List.exists_cons_of_ne_nil h
  rw [series, series_glue]
  simp [linesText, bracketed, series, Layout.step]

/-- The roots of a schema block are read back from their marked lines. -/
theorem reads_rootLines {roots : List (OperationKind × String)} (h : ∀ root ∈ roots, isName root.2 = true) :
    Reads (markedLines Syntax.root) pure []
      (marked (linesText (fun root => Layout.step.toList ++ rootText root) [] roots)) roots := by
  have hrows : ∀ root ∈ roots, IsRow Syntax.root pure (Layout.step.toList ++ rootText root) root := by
    intro root hroot
    have hstart : Starts (· = .name root.1.keyword) [] (rootText root) :=
      starts_name (isName_keyword root.1) fun k _ => boundary_colon _ k
    exact isRow_word (hstart.mono fun _ ht => ⟨_, ht⟩) (reads_root (h root hroot)) (isLine_rootText (h root hroot))
      (by simp)
  have hreads := reads_lines ⟨_, Syntax.ensures_root.least (Nat.zero_le 1)⟩ hrows isBlank_nil isLine_nil
  refine hreads.imp fun xs hxs => ?_
  rw [eq_of_mapM_pure hxs]
  rfl

/-- A schema block that is printed is read back from its marked text. -/
theorem readsLine_schema {query mutation subscription : Option String}
    (hquery : ∀ n ∈ query, isName n = true) (hmutation : ∀ n ∈ mutation, isName n = true)
    (hsubscription : ∀ n ∈ subscription, isName n = true) {description : Option String}
    (hshown : isSuppressed (.schema query mutation subscription description) = false) :
    ReadsLine (markedDefinitionOf "schema") Definition.toTree
      (marked ((Tree.schema query mutation subscription description).chars ""))
      (Tree.schema query mutation subscription description).reading := by
  obtain ⟨hsome, htext⟩ := toList_schema hquery hmutation hsubscription hshown
  have hword : isName "schema" = true := by decide
  have hread : (Tree.schema query mutation subscription description).reading =
      .schema query mutation subscription Option.none := reading_eq _
  rw [(printsAs_schema query mutation subscription description "").chars_eq, htext, rootLines_eq hsome, hread,
    marked_append, (isLine_name hword).marked_eq]
  intro k hk
  obtain ⟨roots, hrun, hroots⟩ := reads_rootLines (isName_of_mem_givenRoots hquery hmutation hsubscription) k
    (hk.clear (by simp))
  cases hroots
  refine ⟨.schema { roots := givenRoots query mutation subscription }, ?_, ?_⟩
  · rw [List.append_assoc, Tape.ofChars_name hword (clear_markedLines _ _ _ k).1]
    show (keyword "schema" >>= _) _ = _
    rw [bind_run (keyword_run ..), bind_run hrun]
    rfl
  · cases query <;> cases mutation <;> cases subscription <;> rfl

/-! ## Operations and fragments -/

/-- The name of an operation is read, or found to be missing. -/
theorem optionalName_run {label : Option String} (h : IsLabel label) {cs : List Char} (hcs : Boundary cs)
    (hfree : ∃ t, (ofChars cs).front = some t ∧ ∀ w, t ≠ .name w) :
    Boundary ((nameText label).toList ++ cs) ∧
      (∃ t, (ofChars ((nameText label).toList ++ cs)).front = some t) ∧
      optionalName (ofChars ((nameText label).toList ++ cs)) = .ok (label.filter (· ≠ ""), ofChars cs) := by
  rcases nameText_cases h with ⟨htext, hfilter⟩ | ⟨s, hs, htext, hfilter⟩
  · obtain ⟨t, hfront, ht⟩ := hfree
    rw [htext, hfilter, String.toList_empty, List.nil_append]
    refine ⟨hcs, ⟨t, hfront⟩, ?_⟩
    rw [optionalName, bind_run (peek_run hfront)]
    cases t with
    | name w => exact absurd rfl (ht w)
    | _ => rfl
  · have hspace : (" " ++ s).toList ++ cs = ' ' :: (s.toList ++ cs) := by simp
    rw [htext, hfilter, hspace, Tape.ofChars_space, Tape.ofChars_name hs hcs]
    exact ⟨by simp [isBoundary, isNameChar], ⟨_, rfl⟩, rfl⟩

section Executables

variable {dirs sels : List Tree} (hdirs : ∀ t ∈ dirs, IsDirective false maxDepth t)
  (hsels : ∀ s ∈ sels, IsSelection true (maxDepth - 1) s)

include hdirs hsels

/-- The directives and selections of a marked operation or fragment are read. -/
theorem executableParts_run {k : List Char} (hk : EndsLine k) :
    ∃ ds set, Syntax.directiveTrees ds = .ok (.tuple (dirs.map reading)) ∧
      Selection.setTrees (some set) = .ok (.tuple (sels.map reading)) ∧
      Syntax.directives false maxDepth (ofChars (directivesText dirs ++ (marked (setText "" sels) ++ k))) =
        .ok (ds, ofChars (marked (setText "" sels) ++ k)) ∧
      markedSet maxDepth (ofChars (marked (setText "" sels) ++ k)) = .ok (set, ofChars k) := by
  have hindent : IsIndent "" := by simp [IsIndent]
  obtain ⟨ds, hdrun, hds⟩ := reads_directives hdirs _ (clear_markedSet hk "" sels (by simp))
  obtain ⟨set, hsrun, hset⟩ := readsSets_markedSet maxDepth hindent (.inr (by decide)) hsels k (hk.clear (by simp))
  have hset : set.mapM Selection.toTree = .ok (sels.map reading) := hset
  refine ⟨ds, set, hds, ?_, hdrun, hsrun⟩
  rw [Selection.setTrees, Syntax.selectionTrees_eq_mapM, hset]
  rfl

/-- An operation is read back from its marked text, even without selections. -/
theorem readsLine_operation {kind : OperationKind} {name : Option String} {vars : List Tree} {fv fd fs : SeqForm}
    (hname : IsLabel name) (hvars : ∀ v ∈ vars, IsVariable v) :
    ReadsLine (markedDefinitionOf kind.keyword) Definition.toTree
      (marked ((Tree.operation kind.keyword name ⟨fv, vars⟩ ⟨fd, dirs⟩ ⟨fs, sels⟩).chars ""))
      (Tree.operation kind.keyword name ⟨fv, vars⟩ ⟨fd, dirs⟩ ⟨fs, sels⟩).reading := by
  have hreader : markedDefinitionOf kind.keyword = markedOperation := by cases kind <;> rfl
  have hparts : IsLine (partsText vars dirs) := by
    simp [partsText, isLine_parens fun v hv => isLine_variable (hvars v hv), isLine_directives hdirs]
  rw [chars_operation hvars hdirs hsels, operationText, hreader, marked_append, marked_append, marked_append,
    (isLine_name (isName_keyword kind)).marked_eq, (isLine_nameText hname).marked_eq, hparts.marked_eq]
  intro k hk
  have hset : Clear [.parenL] (marked (setText "" sels) ++ k) := clear_markedSet hk "" sels (by simp)
  have hclear : Clear [.parenL] (directivesText dirs ++ (marked (setText "" sels) ++ k)) :=
    (opens_directives hdirs).clear (m := .at) (by decide) (by simp) hset
  -- behind the name stands a punctuator or the end of the line, so that a missing name is seen to be missing
  have hfree : ∃ t, (ofChars (partsText vars dirs ++ (marked (setText "" sels) ++ k))).front = some t ∧
      ∀ w, t ≠ .name w := by
    by_cases hempty : vars = []
    · subst hempty
      exact front_inlineParts hdirs hk ""
    · exact ⟨_, front_arguments hempty dirs _, by simp⟩
  obtain ⟨hbound, ⟨t, hfront⟩, hrun⟩ := optionalName_run hname
    ((opens_parens vars).boundary (m := .parenL) (by decide) hclear.1) (by rwa [partsText, List.append_assoc] at hfree)
  obtain ⟨vs, hvrun, hvs⟩ := reads_variables hvars _ hclear
  obtain ⟨ds, set, hds, hsetTrees, hdrun, hsrun⟩ := executableParts_run hdirs hsels hk
  refine ⟨.operation { kind, name := name.filter (· ≠ ""), vars := vs, directives := ds, selections := some set },
    ?_, ?_⟩
  · simp only [partsText, List.append_assoc]
    rw [Tape.ofChars_name (isName_keyword kind) hbound, markedOperation, bind_run (operationKind_run kind hfront),
      bind_run hrun, bind_run hvrun, bind_run hdrun, bind_run hsrun]
    rfl
  · simp only [Definition.toTree, Syntax.Operation.toTree, hvs, hds, hsetTrees, reading_operation]
    rfl

/-- A fragment is read back from its marked text. -/
theorem readsLine_fragment {name type : String} {fd fs : SeqForm} (hname : isName name = true)
    (htype : isName type = true) :
    ReadsLine (markedDefinitionOf "fragment") Definition.toTree
      (marked ((Tree.fragment name (.typeName type) ⟨fd, dirs⟩ ⟨fs, sels⟩).chars ""))
      (Tree.fragment name (.typeName type) ⟨fd, dirs⟩ ⟨fs, sels⟩).reading := by
  have hword : isName "fragment" = true ∧ isName "on" = true := by decide
  have htext : ∀ k, marked ((Tree.fragment name (.typeName type) ⟨fd, dirs⟩ ⟨fs, sels⟩).chars "") ++ k =
      "fragment".toList ++ ' ' :: (name.toList ++ ' ' :: ("on".toList ++ ' ' :: (type.toList ++ (directivesText dirs ++
        (marked (setText "" sels) ++ k))))) := by
    intro k
    have hsplit : (Tree.fragment name (.typeName type) ⟨fd, dirs⟩ ⟨fs, sels⟩).chars "" =
        ("fragment".toList ++ ' ' :: (name.toList ++ ' ' :: ("on".toList ++ ' ' :: (type.toList ++
          directivesText dirs)))) ++ setText "" sels := by
      rw [chars_fragment hdirs hsels]
      simp
    rw [hsplit, marked_append, (isLine_fragmentHead hname htype hdirs).marked_eq]
    simp
  intro k hk
  have hbound := (opens_directives hdirs).boundary (m := .at) (by decide) (boundary_markedSet hk "" sels)
  obtain ⟨ds, set, hds, hsetTrees, hdrun, hsrun⟩ := executableParts_run hdirs hsels hk
  refine ⟨.fragment { name, type := some type, directives := ds, selections := some set }, ?_, ?_⟩
  · rw [htext, Tape.ofChars_name hword.1 (by simp [isBoundary, isNameChar])]
    show (keyword "fragment" >>= _) _ = _
    rw [bind_run (keyword_run ..), Tape.ofChars_space, Tape.ofChars_name hname (by simp [isBoundary, isNameChar]),
      bind_run (name_run ..), Tape.ofChars_space, Tape.ofChars_name hword.2 (by simp [isBoundary, isNameChar]),
      bind_run (keyword_run ..), Tape.ofChars_space, Tape.ofChars_name htype hbound, bind_run (name_run ..),
      bind_run hdrun, bind_run hsrun]
    rfl
  · simp only [Definition.toTree, Syntax.Fragment.toTree, hds, hsetTrees, reading_fragment, reading_eq (.typeName _)]
    rfl

end Executables

/-! ## Definitions and documents -/

/-- A mark is a boundary as the line break was. -/
theorem boundary_marked {cs k : List Char} (h : Boundary cs) (hk : Boundary k) : Boundary (marked cs ++ k) := by
  cases cs with
  | nil => exact hk
  | cons c cs =>
    rw [marked, List.map_cons, List.cons_append, boundary_cons]
    split
    · decide
    · exact (boundary_cons c cs).1 h

/-- A marked definition starts with its keyword. -/
theorem front_markedDefinition {d : Tree} (h : IsShown d) {k : List Char} (hk : EndsLine k) :
    (ofChars (marked (d.chars "") ++ k)).front = some (.name d.keyword) := by
  obtain ⟨hname, cs, htext, hclear⟩ := exists_chars_eq_keyword h.1 h.2
  have hcs : Boundary cs := by simpa using (hclear [] (clear_nil _)).1
  rw [htext, marked_append, (isLine_name hname).marked_eq, List.append_assoc,
    Tape.ofChars_name hname (boundary_marked hcs hk.boundary)]
  rfl

/-- A marked definition is read, whatever it lacks. -/
theorem readsLine_definition {d : Tree} (h : IsShown d) :
    ReadsLine markedDefinition Definition.toTree (marked (d.chars "")) d.reading := by
  have hkind : ReadsLine (markedDefinitionOf d.keyword) Definition.toTree (marked (d.chars "")) d.reading := by
    obtain ⟨h | h, hshown⟩ := h
    · cases h with
      | operation hname hvars hdirs hsels => exact readsLine_operation hdirs hsels.2 hname hvars
      | fragment hname hon htype hdirs hsels => exact readsLine_fragment hdirs hsels.2 hname htype
    · cases h with
      | schema hquery hmutation hsubscription => exact readsLine_schema hquery hmutation hsubscription hshown
      | scalarType hname hdirs => exact readsLine_scalarType hname hdirs _
      | objectType hname hfields hinterfaces hdirs => exact readsLine_objectType hname hdirs hfields hinterfaces _
      | interfaceType hname hfields hdirs => exact readsLine_interfaceType hname hdirs hfields _
      | unionType hname hmembers hdirs => exact readsLine_unionType hname hdirs hmembers _
      | enumType hname hvalues hdirs => exact readsLine_enumType hname hdirs hvalues _
      | inputType hname hfields hdirs => exact readsLine_inputType hname hdirs hfields _
      | directiveDefinition hname hsome hlocations hargs =>
        exact readsLine_directiveDefinition hname hsome hlocations hargs _
  intro k hk
  obtain ⟨x, hrun, hx⟩ := hkind k hk
  exact ⟨x, by rw [markedDefinition, bind_run (peek_run (front_markedDefinition h hk))]; exact hrun, hx⟩

/-- What follows a definition starts with a mark, or there is nothing. -/
theorem endsLine_tailText (ds : List Tree) : EndsLine (marked (tailText ds)) := by
  cases ds with
  | nil => exact .inl rfl
  | cons d ds => exact .inr ⟨_, rfl⟩

/-- Two marks stand between definitions. -/
theorem ofChars_markedTail (d : Tree) (ds : List Tree) :
    ∃ place place', ofChars (marked (tailText (d :: ds))) =
      .next (.punct .amp) place
        (.next (.punct .amp) place' (ofChars (marked (d.chars "") ++ marked (tailText ds)))) := by
  have htext : marked (tailText (d :: ds)) = '&' :: '&' :: (marked (d.chars "") ++ marked (tailText ds)) := by
    rw [← marked_append, ← documentText_cons, tailText_cons]
    rfl
  rw [htext, Tape.ofChars_punct (m := .amp) (by decide), Tape.ofChars_punct (m := .amp) (by decide)]
  exact ⟨_, _, rfl⟩

/-- The tokens of marked definitions determine what is printed of each of them. -/
theorem map_reading_eq_of_marked {ds es : List Tree} (hds : ∀ d ∈ ds, IsShown d) (hes : ∀ e ∈ es, IsShown e)
    (h : ofChars (marked (tailText ds)) = ofChars (marked (tailText es))) : ds.map reading = es.map reading := by
  have hnil : ofChars (marked (tailText [])) = .finish := Tape.ofChars_nil
  induction ds generalizing es with
  | nil =>
    cases es with
    | nil => rfl
    | cons e es =>
      obtain ⟨_, _, htape⟩ := ofChars_markedTail e es
      rw [hnil, htape] at h
      cases h
  | cons d ds ih =>
    obtain ⟨_, _, htape⟩ := ofChars_markedTail d ds
    cases es with
    | nil =>
      rw [hnil, htape] at h
      cases h
    | cons e es =>
      obtain ⟨_, _, htape'⟩ := ofChars_markedTail e es
      rw [htape, htape', Tape.next.injEq, Tape.next.injEq] at h
      have hsame := h.2.2.2.2
      -- both are runs of one reader on one tape, so they agree in what is read and in what is left
      obtain ⟨x, hrun, hx⟩ := readsLine_definition (hds d (by simp)) _ (endsLine_tailText ds)
      obtain ⟨y, hrun', hy⟩ := readsLine_definition (hes e (by simp)) _ (endsLine_tailText es)
      rw [hsame, hrun', Except.ok.injEq, Prod.mk.injEq] at hrun
      obtain ⟨rfl, hrest⟩ := hrun
      obtain hreading : d.reading = e.reading := by
        rw [hx] at hy
        exact Except.ok.inj hy
      rw [List.map_cons, List.map_cons, hreading, ih (fun t ht => hds t (List.mem_cons_of_mem _ ht))
        (fun t ht => hes t (List.mem_cons_of_mem _ ht)) hrest.symm]

/-- The text of definitions determines what is printed of each of them. -/
theorem map_reading_eq_of_documentText {ds es : List Tree} (hds : ∀ d ∈ ds, IsShown d) (hes : ∀ e ∈ es, IsShown e)
    (h : documentText ds = documentText es) : ds.map reading = es.map reading := by
  have hsome : ∀ {d : Tree} {ds : List Tree}, IsShown d → documentText (d :: ds) ≠ [] := by
    intro d ds hd hnil
    obtain ⟨hname, cs, htext, -⟩ := exists_chars_eq_keyword hd.1 hd.2
    rw [documentText_cons, htext, List.append_assoc, List.append_eq_nil_iff, String.toList_eq_nil_iff] at hnil
    exact ne_empty_of_isName hname hnil.1
  cases ds with
  | nil =>
    cases es with
    | nil => rfl
    | cons e es => exact absurd h.symm (hsome (hes e (by simp)))
  | cons d ds =>
    cases es with
    | nil => exact absurd h (hsome (hds d (by simp)))
    | cons e es => exact map_reading_eq_of_marked hds hes (by rw [tailText_cons, tailText_cons, h])

end GraphDoc
