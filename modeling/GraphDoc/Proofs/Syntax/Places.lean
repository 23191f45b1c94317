import GraphDoc.Document
import GraphDoc.Proofs.Source.Places

/-!
# Places of syntax errors

A parser refuses a source at a place that is on its tape, so every syntax error stands in the source. There is one rule
for each way to put parsers together, and one lemma for each phrase.
-/

namespace GraphDoc

open SyntaxError (Reports)

namespace Parser

variable {α β : Type} {n : Nat}

/-- Whether a parser reports no fault outside the last `n` characters if its tape shows none, and leaves such a tape. -/
def StaysWithin (n : Nat) (p : Parser α) : Prop :=
  ∀ tape : Tape, tape.Within n → Reports n (fun run => run.2.Within n) (p tape)

/-! ## Rules -/

namespace StaysWithin

/-- Two parsers in a row stay within the bound when each does. -/
theorem bind {p : Parser α} {f : α → Parser β} (hp : StaysWithin n p) (hf : ∀ a, StaysWithin n (f a)) :
    StaysWithin n (p >>= f) :=
  fun tape htape => (hp tape htape).bind fun run _ hrest => hf run.1 run.2 hrest

/-- Working on the result does not move the place of an error. -/
theorem map {p : Parser α} (hp : StaysWithin n p) (g : α → β) : StaysWithin n (g <$> p) :=
  fun tape htape => (hp tape htape).bind fun _ _ hrest => hrest

/-- A given result reports nothing. -/
theorem pure (a : α) : StaysWithin n (Pure.pure a) := fun _ htape => htape

/-- Both branches stay within the bound. -/
theorem ite {c : Prop} [Decidable c] {p q : Parser α} (hp : StaysWithin n p) (hq : StaysWithin n q) :
    StaysWithin n (if c then p else q) := by
  split
  · exact hp
  · exact hq

/-- Two ways to the same continuation. -/
theorem join {c : Prop} [Decidable c] {p q : Parser α} {f : α → Parser β} (hp : StaysWithin n p)
    (hq : StaysWithin n q) (hf : ∀ a, StaysWithin n (f a)) : StaysWithin n (if c then p >>= f else q >>= f) :=
  .ite (hp.bind hf) (hq.bind hf)

/-- An error at a given place lies within the bound when the place does. -/
theorem fail {place : List Char} (h : place.length ≤ n) (fault : Fault) :
    StaysWithin n (Parser.fail place fault : Parser α) := fun _ _ => h

/-- The place of the token in front is on the tape. -/
theorem head {f : Token × List Char → Parser β}
    (hf : ∀ token place, place.length ≤ n → StaysWithin n (f (token, place))) : StaysWithin n (Parser.head >>= f) := by
  intro tape htape
  cases tape with
  | finish => exact hf .endOfSource [] (Nat.zero_le n) .finish htape
  | fault e => exact htape
  | next token place rest => exact hf token place htape.1 (.next token place rest) htape

/-- An error at the next token lies within the bound of the tape. -/
theorem failHere (fault : Token → Fault) : StaysWithin n (Parser.failHere fault : Parser α) :=
  head fun token _ hplace => fail hplace (fault token)

end StaysWithin

/-! ## Single tokens -/

theorem staysWithin_peek : StaysWithin n peek := .head fun token _ _ => .pure token

theorem staysWithin_advance : StaysWithin n advance := by
  intro tape htape
  cases tape with
  | finish | fault e => exact htape
  | next token place rest => exact htape.2

/-- A missing mark is reported at the token that stands in its place. -/
theorem staysWithin_expect (mark : Punct) : StaysWithin n (expect mark) :=
  staysWithin_peek.bind fun _ => .ite staysWithin_advance (.failHere _)

theorem staysWithin_skip (mark : Punct) : StaysWithin n (skip mark) :=
  staysWithin_peek.bind fun _ => .ite (staysWithin_advance.bind fun _ => .pure _) (.pure _)

theorem staysWithin_name : StaysWithin n name := by
  refine staysWithin_peek.bind fun token => ?_
  split
  · exact staysWithin_advance.bind fun _ => .pure _
  · exact .failHere _

theorem staysWithin_keyword (word : String) : StaysWithin n (keyword word) :=
  staysWithin_peek.bind fun _ => .ite staysWithin_advance (.failHere _)

theorem staysWithin_skipKeyword (word : String) : StaysWithin n (skipKeyword word) :=
  staysWithin_peek.bind fun _ => .ite (staysWithin_advance.bind fun _ => .pure _) (.pure _)

theorem staysWithin_endOfSource : StaysWithin n endOfSource :=
  staysWithin_peek.bind fun _ => .ite (.pure _) (.failHere _)

/-! ## Lists -/

variable {item : Parser α}

/-- Reading items over and over stays within the bound, as reading one does. -/
theorem staysWithin_repeatWhile (test : Token → Bool) (hitem : StaysWithin n item) (bound : Tape) :
    StaysWithin n (repeatWhile test item bound) := by
  induction bound with
  | finish | fault e => exact staysWithin_peek.bind fun _ => .ite (hitem.bind fun _ => .pure _) (.pure _)
  | next token place bound ih =>
    exact staysWithin_peek.bind fun _ => .ite (hitem.bind fun _ => ih.bind fun _ => .pure _) (.pure _)

theorem staysWithin_itemsWhile (test : Token → Bool) (hitem : StaysWithin n item) :
    StaysWithin n (itemsWhile test item) :=
  fun tape => staysWithin_repeatWhile test hitem tape tape

/-- Reading items up to a mark stays within the bound, as reading one does. -/
theorem staysWithin_itemsUntil (close : Punct) (hitem : StaysWithin n item) : StaysWithin n (itemsUntil close item) :=
  (staysWithin_itemsWhile _ hitem).bind fun _ => (staysWithin_expect close).bind fun _ => .pure _

theorem staysWithin_any {opening close : Punct} (hitem : StaysWithin n item) :
    StaysWithin n (any opening item close) :=
  (staysWithin_expect opening).bind fun _ => staysWithin_itemsUntil close hitem

theorem staysWithin_many {opening close : Punct} (hitem : StaysWithin n item) :
    StaysWithin n (many opening item close) :=
  (staysWithin_expect opening).bind fun _ => hitem.bind fun _ =>
    (staysWithin_itemsUntil close hitem).bind fun _ => .pure _

/-- Items that may be left out stay within the bound. -/
theorem staysWithin_optionalMany {opening close : Punct} (hitem : StaysWithin n item) :
    StaysWithin n (optionalMany opening item close) :=
  staysWithin_peek.bind fun _ => .ite (staysWithin_many hitem) (.pure _)

/-- Items between separating marks stay within the bound. -/
theorem staysWithin_separated (mark : Punct) (hitem : StaysWithin n item) : StaysWithin n (separated mark item) :=
  (staysWithin_skip mark).bind fun _ => hitem.bind fun _ =>
    (staysWithin_itemsWhile _ (staysWithin_advance.bind fun _ => hitem)).bind fun _ => .pure _

end Parser

namespace Syntax

open GraphDoc.Parser

variable {n : Nat}

/-! ## Types and values -/

/-- A type stays within the bound, if the types nested in it do. -/
theorem staysWithin_typeRefWith {inner : Parser TypeRef} (hinner : StaysWithin n inner) :
    StaysWithin n (typeRefWith inner) := by
  have hmark : ∀ r, StaysWithin n (do if ← skip .bang then return TypeRef.nonNull r else return r) :=
    fun _ => (staysWithin_skip .bang).bind fun _ => .ite (.pure _) (.pure _)
  refine (staysWithin_skip .bracketL).bind fun _ => .ite ?_ ((staysWithin_name.map _).bind hmark)
  exact hinner.bind fun _ => (staysWithin_expect .bracketR).bind fun _ => hmark _

/-- Types stay within the bound at every depth. -/
theorem staysWithin_typeRef (depth : Nat) : StaysWithin n (typeRef depth) := by
  induction depth with
  | zero => exact staysWithin_typeRefWith (.failHere _)
  | succ depth ih => exact staysWithin_typeRefWith ih

theorem staysWithin_variableName : StaysWithin n variableName :=
  (staysWithin_expect .dollar).bind fun _ => staysWithin_name

theorem staysWithin_refuseVariable : StaysWithin n refuseVariable := by
  refine .head fun _ _ hplace => staysWithin_advance.bind fun _ => staysWithin_peek.bind fun _ => ?_
  split
  · exact .fail hplace _
  · exact .fail hplace _

theorem staysWithin_objectField {inner : Parser Value} (hinner : StaysWithin n inner) :
    StaysWithin n (objectField inner) :=
  staysWithin_name.bind fun _ => (staysWithin_expect .colon).bind fun _ => hinner.bind fun _ => .pure _

/-- A value stays within the bound, if the values nested in it do. -/
theorem staysWithin_valueWith (isConst : Bool) {inner : Option (Parser Value)}
    (hinner : ∀ p ∈ inner, StaysWithin n p) : StaysWithin n (valueWith isConst inner) := by
  refine staysWithin_peek.bind fun _ => ?_
  split
  · split
    · next p => exact (staysWithin_any (hinner p rfl)).map _
    · exact .failHere _
  · split
    · next p => exact (staysWithin_any (staysWithin_objectField (hinner p rfl))).map _
    · exact .failHere _
  -- a value of one token
  iterate 5 exact staysWithin_advance.bind fun _ => .pure _
  · exact .ite staysWithin_refuseVariable (staysWithin_variableName.map _)
  · exact .failHere _

/-- Values stay within the bound at every depth. -/
theorem staysWithin_value (isConst : Bool) (depth : Nat) : StaysWithin n (value isConst depth) := by
  induction depth with
  | zero => exact staysWithin_valueWith isConst (by simp)
  | succ depth ih => exact staysWithin_valueWith isConst (by simpa using ih)

/-! ## Arguments and directives -/

theorem staysWithin_argument (isConst : Bool) (depth : Nat) : StaysWithin n (argument isConst depth) :=
  staysWithin_name.bind fun _ => (staysWithin_expect .colon).bind fun _ =>
    (staysWithin_value isConst depth).bind fun _ => .pure _

theorem staysWithin_arguments (isConst : Bool) (depth : Nat) : StaysWithin n (arguments isConst depth) :=
  staysWithin_optionalMany (staysWithin_argument isConst depth)

theorem staysWithin_directive (isConst : Bool) (depth : Nat) : StaysWithin n (directive isConst depth) :=
  (staysWithin_expect .at).bind fun _ => staysWithin_name.bind fun _ =>
    (staysWithin_arguments isConst depth).bind fun _ => .pure _

/-- Directives stay within the bound. -/
theorem staysWithin_directives (isConst : Bool) (depth : Nat) : StaysWithin n (directives isConst depth) :=
  staysWithin_itemsWhile _ (staysWithin_directive isConst depth)

theorem staysWithin_constDirectives : StaysWithin n constDirectives := staysWithin_directives true maxDepth

/-! ## Selections -/

theorem staysWithin_fragmentName : StaysWithin n fragmentName :=
  staysWithin_peek.bind fun _ => .ite (.failHere _) staysWithin_name

theorem staysWithin_field (depth : Nat) {nested : Parser (List Selection)} (hnested : StaysWithin n nested) :
    StaysWithin n (field depth nested) := by
  refine staysWithin_name.bind fun _ => (staysWithin_skip .colon).bind fun _ =>
    .join (staysWithin_name.map _) (.pure _) fun second => ?_
  refine (staysWithin_arguments false depth).bind fun _ => (staysWithin_directives false depth).bind fun _ =>
    staysWithin_peek.bind fun _ => .join (hnested.map _) (.pure _) fun _ => ?_
  cases second <;> exact .pure _

theorem staysWithin_spread (depth : Nat) {nested : Parser (List Selection)} (hnested : StaysWithin n nested) :
    StaysWithin n (spread depth nested) := by
  refine (staysWithin_expect .spread).bind fun _ => (staysWithin_skipKeyword "on").bind fun _ => .ite ?_ ?_
  · exact staysWithin_name.bind fun _ => (staysWithin_directives false depth).bind fun _ =>
      hnested.bind fun _ => .pure _
  · refine staysWithin_peek.bind fun _ => ?_
    split
    · exact staysWithin_fragmentName.bind fun _ => (staysWithin_directives false depth).bind fun _ => .pure _
    · exact (staysWithin_directives false depth).bind fun _ => hnested.bind fun _ => .pure _

/-- A selection stays within the bound, if the sets nested in it do. -/
theorem staysWithin_selection (depth : Nat) {nested : Parser (List Selection)} (hnested : StaysWithin n nested) :
    StaysWithin n (selection depth nested) :=
  staysWithin_peek.bind fun _ => .ite (staysWithin_spread depth hnested) (staysWithin_field depth hnested)

/-- Selection sets stay within the bound at every depth. -/
theorem staysWithin_selectionSet (depth : Nat) : StaysWithin n (selectionSet depth) := by
  induction depth with
  | zero =>
    rw [selectionSet]
    exact .failHere _
  | succ depth ih => exact staysWithin_any (staysWithin_selection depth ih)

/-! ## Parts of definitions -/

theorem staysWithin_description : StaysWithin n description := by
  refine staysWithin_peek.bind fun _ => ?_
  split
  · exact staysWithin_advance.bind fun _ => .pure _
  · exact staysWithin_advance.bind fun _ => .pure _
  · exact .pure _

theorem staysWithin_defaultValue : StaysWithin n defaultValue :=
  (staysWithin_skip .equals).bind fun _ => .ite ((staysWithin_value true maxDepth).map _) (.pure _)

theorem staysWithin_operationKind : StaysWithin n operationKind := by
  refine .head fun _ _ hplace => staysWithin_name.bind fun _ => staysWithin_peek.bind fun _ => ?_
  split
  · exact .pure _
  · exact .fail hplace _

theorem staysWithin_variableDefinition : StaysWithin n variableDefinition :=
  staysWithin_description.bind fun _ => staysWithin_variableName.bind fun _ =>
    (staysWithin_expect .colon).bind fun _ => (staysWithin_typeRef maxDepth).bind fun _ =>
    staysWithin_defaultValue.bind fun _ => staysWithin_constDirectives.bind fun _ => .pure _

theorem staysWithin_inputValue : StaysWithin n inputValue :=
  staysWithin_description.bind fun _ => staysWithin_name.bind fun _ =>
    (staysWithin_expect .colon).bind fun _ => (staysWithin_typeRef maxDepth).bind fun _ =>
    staysWithin_defaultValue.bind fun _ => staysWithin_constDirectives.bind fun _ => .pure _

theorem staysWithin_argumentDefinitions : StaysWithin n argumentDefinitions :=
  staysWithin_optionalMany staysWithin_inputValue

theorem staysWithin_fieldDefinition : StaysWithin n fieldDefinition :=
  staysWithin_description.bind fun _ => staysWithin_name.bind fun _ => staysWithin_argumentDefinitions.bind fun _ =>
    (staysWithin_expect .colon).bind fun _ => (staysWithin_typeRef maxDepth).bind fun _ =>
    staysWithin_constDirectives.bind fun _ => .pure _

theorem staysWithin_enumValueName : StaysWithin n enumValueName :=
  staysWithin_peek.bind fun _ => .ite (.failHere _) staysWithin_name

theorem staysWithin_enumValueDefinition : StaysWithin n enumValueDefinition :=
  staysWithin_description.bind fun _ => staysWithin_enumValueName.bind fun _ =>
    staysWithin_constDirectives.bind fun _ => .pure _

theorem staysWithin_enumValues : StaysWithin n enumValues := staysWithin_optionalMany staysWithin_enumValueDefinition

theorem staysWithin_interfaces : StaysWithin n interfaces :=
  (staysWithin_skipKeyword "implements").bind fun _ => .ite (staysWithin_separated .amp staysWithin_name) (.pure _)

theorem staysWithin_members : StaysWithin n members :=
  (staysWithin_skip .equals).bind fun _ => .ite (staysWithin_separated .pipe staysWithin_name) (.pure _)

theorem staysWithin_inputFields : StaysWithin n inputFields := staysWithin_optionalMany staysWithin_inputValue

theorem staysWithin_root : StaysWithin n root :=
  staysWithin_operationKind.bind fun _ => (staysWithin_expect .colon).bind fun _ =>
    staysWithin_name.bind fun _ => .pure _

theorem staysWithin_location : StaysWithin n location :=
  .head fun _ _ hplace => staysWithin_name.bind fun _ => staysWithin_peek.bind fun _ => .ite (.pure _) (.fail hplace _)

/-- The parts that object and interface types share stay within the bound. -/
theorem staysWithin_fieldsType (about : Option StringLiteral) : StaysWithin n (fieldsType about) :=
  staysWithin_name.bind fun _ => staysWithin_interfaces.bind fun _ => staysWithin_constDirectives.bind fun _ =>
    (staysWithin_optionalMany staysWithin_fieldDefinition).bind fun _ => .pure _

/-! ## Definitions -/

theorem staysWithin_shorthand : StaysWithin n shorthand := (staysWithin_selectionSet maxDepth).bind fun _ => .pure _

theorem staysWithin_operation (about : Option StringLiteral) : StaysWithin n (operation about) := by
  refine staysWithin_operationKind.bind fun kind => staysWithin_peek.bind fun _ => ?_
  have hrest : ∀ name : Option String, StaysWithin n (do
      let vars ← optionalMany .parenL variableDefinition .parenR
      let directives ← directives false maxDepth
      let selections ← selectionSet maxDepth
      return Definition.operation ⟨about, kind, name, vars, directives, some selections⟩) :=
    fun _ => (staysWithin_optionalMany staysWithin_variableDefinition).bind fun _ =>
      (staysWithin_directives false maxDepth).bind fun _ => (staysWithin_selectionSet maxDepth).bind fun _ => .pure _
  split
  · exact (staysWithin_name.map _).bind hrest
  · exact hrest none

theorem staysWithin_fragment (about : Option StringLiteral) : StaysWithin n (fragment about) :=
  (staysWithin_keyword "fragment").bind fun _ => staysWithin_fragmentName.bind fun _ =>
    (staysWithin_keyword "on").bind fun _ => staysWithin_name.bind fun _ =>
    (staysWithin_directives false maxDepth).bind fun _ => (staysWithin_selectionSet maxDepth).bind fun _ => .pure _

theorem staysWithin_schema (about : Option StringLiteral) : StaysWithin n (schema about) :=
  (staysWithin_keyword "schema").bind fun _ => staysWithin_constDirectives.bind fun _ =>
    (staysWithin_many staysWithin_root).bind fun _ => .pure _

theorem staysWithin_scalarType (about : Option StringLiteral) : StaysWithin n (scalarType about) :=
  (staysWithin_keyword "scalar").bind fun _ => staysWithin_name.bind fun _ =>
    staysWithin_constDirectives.bind fun _ => .pure _

theorem staysWithin_objectType (about : Option StringLiteral) : StaysWithin n (objectType about) :=
  (staysWithin_keyword "type").bind fun _ => (staysWithin_fieldsType about).map _

theorem staysWithin_interfaceType (about : Option StringLiteral) : StaysWithin n (interfaceType about) :=
  (staysWithin_keyword "interface").bind fun _ => (staysWithin_fieldsType about).map _

theorem staysWithin_unionType (about : Option StringLiteral) : StaysWithin n (unionType about) :=
  (staysWithin_keyword "union").bind fun _ => staysWithin_name.bind fun _ =>
    staysWithin_constDirectives.bind fun _ => staysWithin_members.bind fun _ => .pure _

theorem staysWithin_enumType (about : Option StringLiteral) : StaysWithin n (enumType about) :=
  (staysWithin_keyword "enum").bind fun _ => staysWithin_name.bind fun _ =>
    staysWithin_constDirectives.bind fun _ => staysWithin_enumValues.bind fun _ => .pure _

theorem staysWithin_inputType (about : Option StringLiteral) : StaysWithin n (inputType about) :=
  (staysWithin_keyword "input").bind fun _ => staysWithin_name.bind fun _ =>
    staysWithin_constDirectives.bind fun _ => staysWithin_inputFields.bind fun _ => .pure _

theorem staysWithin_directiveDefinition (about : Option StringLiteral) : StaysWithin n (directiveDefinition about) :=
  (staysWithin_keyword "directive").bind fun _ => (staysWithin_expect .at).bind fun _ => staysWithin_name.bind fun _ =>
    staysWithin_argumentDefinitions.bind fun _ => staysWithin_constDirectives.bind fun _ =>
    (staysWithin_skipKeyword "repeatable").bind fun _ => (staysWithin_keyword "on").bind fun _ =>
    (staysWithin_separated .pipe staysWithin_location).bind fun _ => .pure _

/-- An extension stays within the bound, whatever it extends. -/
theorem staysWithin_extensionWith (kind : ExtensionKind) {hasPart : Parser Bool} (h : StaysWithin n hasPart) :
    StaysWithin n (extensionWith kind hasPart) :=
  staysWithin_advance.bind fun _ => h.bind fun _ => .ite (.pure _) (.failHere _)

theorem staysWithin_extension : StaysWithin n extension := by
  refine (staysWithin_keyword "extend").bind fun _ => staysWithin_peek.bind fun _ => ?_
  have hds : StaysWithin n constDirectives := staysWithin_constDirectives
  split
  · exact staysWithin_extensionWith _ (hds.bind fun _ =>
      (staysWithin_optionalMany staysWithin_root).bind fun _ => .pure _)
  · exact staysWithin_extensionWith _ (staysWithin_name.bind fun _ => hds.bind fun _ => .pure _)
  · exact staysWithin_extensionWith _ ((staysWithin_fieldsType none).bind fun _ => .pure _)
  · exact staysWithin_extensionWith _ ((staysWithin_fieldsType none).bind fun _ => .pure _)
  · exact staysWithin_extensionWith _ (staysWithin_name.bind fun _ => hds.bind fun _ =>
      staysWithin_members.bind fun _ => .pure _)
  · exact staysWithin_extensionWith _ (staysWithin_name.bind fun _ => hds.bind fun _ =>
      staysWithin_enumValues.bind fun _ => .pure _)
  · exact staysWithin_extensionWith _ (staysWithin_name.bind fun _ => hds.bind fun _ =>
      staysWithin_inputFields.bind fun _ => .pure _)
  · exact staysWithin_extensionWith _ ((staysWithin_expect .at).bind fun _ => staysWithin_name.bind fun _ =>
      hds.bind fun _ => .pure _)
  · exact .failHere _

/-- Whichever keyword is found, the parser for its definition stays within the bound. -/
theorem staysWithin_definitionOf? {about : Option StringLiteral} {word : String} {p : Parser Definition}
    (h : definitionOf? about word = some p) : StaysWithin n p := by
  unfold definitionOf? at h
  split at h
  case h_13 => cases h
  all_goals obtain rfl := Option.some.inj h
  case h_1 | h_2 | h_3 => exact staysWithin_operation about
  case h_4 => exact staysWithin_fragment about
  case h_5 => exact staysWithin_schema about
  case h_6 => exact staysWithin_scalarType about
  case h_7 => exact staysWithin_objectType about
  case h_8 => exact staysWithin_interfaceType about
  case h_9 => exact staysWithin_unionType about
  case h_10 => exact staysWithin_enumType about
  case h_11 => exact staysWithin_inputType about
  case h_12 => exact staysWithin_directiveDefinition about

/-- Every kind of definition stays within the bound. -/
theorem staysWithin_definition : StaysWithin n definition := by
  refine .head fun _ _ hplace => .ite staysWithin_shorthand ?_
  refine staysWithin_description.bind fun _ => staysWithin_peek.bind fun _ => ?_
  split
  · split
    · next p hp => exact staysWithin_definitionOf? hp
    · exact .ite (.fail hplace _) (.ite staysWithin_extension (.failHere _))
  · exact .fail hplace _
  · exact .failHere _

/-- A whole document stays within the bound. -/
theorem staysWithin_document : StaysWithin n document :=
  staysWithin_definition.bind fun _ => (staysWithin_itemsWhile _ staysWithin_definition).bind fun _ => .pure _

/-! ## Sources -/

/-- A phrase that refuses a source does so at a place in the source. -/
theorem left_le_of_read {α : Type} {phrase : Parser α} {source : String} {e : SyntaxError}
    (hphrase : StaysWithin source.toList.length phrase) (h : read phrase source = .error e) :
    e.left ≤ source.toList.length := by
  have hwhole : StaysWithin source.toList.length (do
      let result ← phrase
      endOfSource
      return result) := hphrase.bind fun _ => staysWithin_endOfSource.bind fun _ => .pure _
  have hrun := (hwhole _ (Tape.within_ofChars source.toList)).bind (Q := fun _ => True)
    (f := fun run => Pure.pure run.1) fun _ _ _ => trivial
  exact hrun.error h

end Syntax

/-- Every syntax error of a document stands in its source. -/
theorem left_le_of_parseDocument {source : String} {e : SyntaxError}
    (h : parseDocument source = .error (.syntaxError e)) : e.left ≤ source.toList.length := by
  rw [parseDocument, parseWith] at h
  cases hread : Syntax.Document.read source with
  | ok document =>
    rw [hread] at h
    cases hconvert : document.toTree <;> simp [Except.mapError, hconvert, bind, Except.bind] at h
  | error fault =>
    rw [hread] at h
    obtain rfl : fault = e := by simpa [Except.mapError, bind, Except.bind] using h
    exact Syntax.left_le_of_read Syntax.staysWithin_document hread

end GraphDoc
