import GraphDoc.Proofs.Syntax.Executables

/-!
# Printed documents are read back

A document in print is read definition by definition. A definition that is printed without a part that the
grammar asks for may take up words that stand behind it: an operation without anything takes a name, a
union without members takes a member, and an object type takes the first of several interfaces only.
`DocumentReadsBack` says what printed definitions are read back as, such cases included.
-/

namespace GraphDoc

open GraphDoc.Parser GraphDoc.Tree
open Syntax (Definition OperationKind maxDepth)
open Tape (ofChars)

/-! ## Keywords -/

/-- The keyword in front of a definition. -/
def Tree.keyword : Tree → String
  | .operation kind .. => kind
  | .fragment .. => "fragment"
  | .schema .. => "schema"
  | .scalarType .. => "scalar"
  | .objectType .. => "type"
  | .interfaceType .. => "interface"
  | .unionType .. => "union"
  | .enumType .. => "enum"
  | .inputType .. => "input"
  | .directiveDefinition .. => "directive"
  | _ => ""

/-- A word after a space is no bar, so a union in front of it ends there. -/
private theorem clear_word {s : String} (hs : isName s = true) {cs k : List Char} (hcs : Boundary (cs ++ k)) :
    Clear [.pipe] (' ' :: (s.toList ++ cs) ++ k) := by
  have hassoc : ' ' :: (s.toList ++ cs) ++ k = ' ' :: (s.toList ++ (cs ++ k)) := by simp
  rw [hassoc]
  exact clear_ignored (by decide) (front_name hs _ hcs)

/-- The head of a definition is no bar, so a union in front of it ends there. -/
private theorem clear_head {name : String} {dirs : List Tree} (hname : isName name = true)
    (hdirs : ∀ t ∈ dirs, IsDirective true maxDepth t) {cs k : List Char} (hcs : Boundary (cs ++ k)) :
    Clear [.pipe] (' ' :: (name.toList ++ (directivesText dirs ++ cs)) ++ k) := by
  refine clear_word hname ?_
  rw [List.append_assoc]
  exact boundary_directives hdirs hcs

/-- A definition that is shown starts with its keyword. -/
theorem exists_chars_eq_keyword {d : Tree} (h : IsDefinition d) (hshown : d.isSuppressed = false) :
    isName d.keyword = true ∧
      ∃ cs, d.chars "" = d.keyword.toList ++ cs ∧ ∀ k, Clear [.pipe] k → Clear [.pipe] (cs ++ k) := by
  -- what stands behind the keyword is a name, a block or a punctuator, never a bar
  have hhead : ∀ (w n : String) (dirs : List Tree) (cs : List Char),
      headText w n dirs ++ cs = w.toList ++ ' ' :: (n.toList ++ (directivesText dirs ++ cs)) := by
    simp [headText]
  have hspace : ∀ cs k : List Char, Boundary (' ' :: cs ++ k) := by simp [isBoundary, isNameChar]
  have hblock : ∀ (fields : List Tree) (k : List Char), Boundary (fieldsText fields ++ k) :=
    fun fields k => (clear_fieldsText fields List.not_mem_nil k).1
  rcases h with h | h
  · cases h with
    | operation hname hvars hdirs hsels =>
      rename_i kind name fv fd fs vars dirs sels
      refine ⟨isName_keyword kind, _, chars_operation hvars hdirs hsels.2, fun k hk => ?_⟩
      rw [List.append_assoc]
      rcases nameText_cases hname with ⟨htext, -⟩ | ⟨s, hs, htext, -⟩
      · rw [htext]
        exact clear_operationText hdirs vars sels (by simp) hk
      · rw [htext]
        have hbound := boundary_operationText hdirs vars sels hk.1
        simpa using clear_word hs hbound
    | fragment hname hon htype hdirs hsels =>
      exact ⟨by simp only [Tree.keyword]; decide, _, chars_fragment hdirs hsels.2,
        fun k _ => clear_word hname (hspace _ k)⟩
  · cases h with
    | schema hquery hmutation hsubscription =>
      rename_i query mutation subscription description
      have htext := (printsAs_schema query mutation subscription description "").chars_eq.trans
        (toList_schema hquery hmutation hsubscription hshown).2
      refine ⟨by simp only [Tree.keyword]; decide, _, htext, fun k _ => ?_⟩
      exact clear_blank isBlank_space (clear_punct (m := .braceL) (by decide) (by simp) _)
    | scalarType hname hdirs =>
      refine ⟨by simp only [Tree.keyword]; decide, _, chars_scalarType hdirs _ _, fun k hk => ?_⟩
      exact clear_word hname (boundary_directives hdirs hk.1)
    | objectType hname hfields hinterfaces hdirs =>
      rename_i name fields dirs interfaces description
      refine ⟨by simp only [Tree.keyword]; decide, _, (chars_objectType hdirs _ _ hfields _).trans (hhead ..),
        fun k _ => clear_head hname hdirs ?_⟩
      rw [interfacesText, List.append_assoc]
      split_ifs
      · exact hblock fields k
      · simp [isBoundary, isNameChar]
    | interfaceType hname hfields hdirs =>
      exact ⟨by simp only [Tree.keyword]; decide, _, (chars_interfaceType hdirs _ _ hfields).trans (hhead ..),
        fun k _ => clear_head hname hdirs (hblock _ k)⟩
    | unionType hname hmembers hdirs =>
      exact ⟨by simp only [Tree.keyword]; decide, _, (chars_unionType hdirs _ _ _).trans (hhead ..),
        fun k _ => clear_head hname hdirs (hspace _ k)⟩
    | enumType hname hvalues hdirs =>
      refine ⟨by simp only [Tree.keyword]; decide, _, (chars_enumType hdirs _ _ hvalues).trans (hhead ..),
        fun k _ => clear_head hname hdirs ?_⟩
      simp [valuesText, isBoundary, isNameChar]
    | inputType hname hfields hdirs =>
      exact ⟨by simp only [Tree.keyword]; decide, _, (chars_inputType hdirs _ _ hfields).trans (hhead ..),
        fun k _ => clear_head hname hdirs (hblock _ k)⟩
    | directiveDefinition hname hsome hlocations hargs =>
      refine ⟨by simp only [Tree.keyword]; decide, _, chars_directiveDefinition hargs _ _ _, fun k _ => ?_⟩
      exact clear_blank isBlank_space (clear_punct (m := .at) (by decide) (by simp) _)

/-- The first token of a definition that is shown is its keyword. -/
theorem front_definition {d : Tree} (h : IsDefinition d) (hshown : d.isSuppressed = false) {k : List Char}
    (hk : Clear [.pipe] k) : (ofChars (d.chars "" ++ k)).front = some (.name d.keyword) := by
  obtain ⟨hname, cs, htext, hclear⟩ := exists_chars_eq_keyword h hshown
  rw [htext, List.append_assoc, Tape.ofChars_name hname (hclear k hk).1]
  rfl

/-- A definition is read by the parser that its keyword names. -/
theorem definition_run {tape : Tape} {word : String} {p : Parser Definition}
    (hfront : tape.front = some (.name word)) (hp : Syntax.definitionOf? Option.none word = some p) :
    Syntax.definition tape = p tape := by
  obtain ⟨place, hhead⟩ := head_run hfront
  have hdescription : Syntax.description tape = .ok (Option.none, tape) := by
    rw [Syntax.description, bind_run (peek_run hfront)]
    rfl
  rw [Syntax.definition, bind_run hhead]
  show (Syntax.description >>= _) tape = _
  rw [bind_run hdescription, bind_run (peek_run hfront)]
  simp only [hp]

/-- No definition starts at the end of the source, or with a word that is no keyword. -/
theorem definition_fails {tape : Tape} {t : Token} (hfront : tape.front = some t)
    (ht : t = .endOfSource ∨ t = .name "implements") : Fails Syntax.definition tape := by
  obtain ⟨place, hhead⟩ := head_run hfront
  have hdescription : Syntax.description tape = .ok (Option.none, tape) := by
    rw [Syntax.description, bind_run (peek_run hfront)]
    rcases ht with rfl | rfl <;> rfl
  refine Fails.of_bind hhead ?_
  rcases ht with rfl | rfl
  all_goals exact Fails.of_bind hdescription (Fails.of_bind (peek_run hfront) (failHere_fails hfront _))

/-! ## Reading the rest of a document -/

/-- The definitions up to the end of the source. -/
def definitionList : Parser (List Definition) := itemsWhile (· ≠ .endOfSource) Syntax.definition

/-- Whether the given characters, which may be none, are read as definitions. -/
def ReadsTo (cs : List Char) (rs : List Tree) : Prop :=
  (ofChars cs).front = some .endOfSource ∧ rs = [] ∨
    parseDocument (String.ofList cs) = .ok (.document (.tuple rs))

/-- Before the end of the source a list of definitions starts with a definition. -/
theorem definitionList_step {tape : Tape} (hlex : tape.Lexical) {t : Token} (hfront : tape.front = some t)
    (ht : t ≠ .endOfSource) :
    definitionList tape = (do
      let first ← Syntax.definition
      let rest ← definitionList
      return first :: rest : Parser (List Definition)) tape :=
  itemsWhile_step Syntax.ensures_definition hlex hfront (by simpa using ht)

/-- A document is read as its definitions, of which there is one at least. -/
theorem document_eq_ok {tape rest : Tape} (hlex : tape.Lexical) {d : Syntax.Document} :
    Syntax.document tape = .ok (d, rest) ↔
      tape.front ≠ some .endOfSource ∧ definitionList tape = .ok (d.definitions, rest) := by
  -- a document is a list of definitions that is not empty, so the two differ at the end of the source only
  by_cases hend : tape.front = some .endOfSource
  · have hfails : Fails Syntax.document tape := (definition_fails hend (.inl rfl)).bind _
    exact ⟨fun h => absurd hfails (not_fails_of_ok h), fun h => absurd hend h.1⟩
  · cases tape with
    | finish => exact absurd rfl hend
    | fault e =>
      constructor
      · intro h
        cases h
      · rintro ⟨-, h⟩
        cases h
    | next t place behind =>
      have ht : t ≠ .endOfSource := fun heq => hend (by rw [heq]; rfl)
      rw [definitionList_step hlex rfl ht]
      constructor
      · intro h
        obtain ⟨first, mid, hfirst, h⟩ := bind_run_eq_ok h
        obtain ⟨more, last, hmore, h⟩ := bind_run_eq_ok h
        cases h
        exact ⟨hend, by rw [bind_run hfirst, definitionList, bind_run hmore]; rfl⟩
      · rintro ⟨-, h⟩
        obtain ⟨first, mid, hfirst, h⟩ := bind_run_eq_ok h
        obtain ⟨more, last, hmore, h⟩ := bind_run_eq_ok h
        obtain ⟨found⟩ := d
        cases h
        rw [Syntax.document, bind_run hfirst]
        exact bind_run hmore _

/-- Whether a tape is read as definitions up to its end. -/
def TapeReadsTo (tape : Tape) (rs : List Tree) : Prop :=
  ∃ xs rest, definitionList tape = .ok (xs, rest) ∧ rest.front = some .endOfSource ∧
    xs.mapM Definition.toTree = .ok rs

/-- Reading a text is reading its tape. -/
theorem readsTo_iff {cs : List Char} {rs : List Tree} : ReadsTo cs rs ↔ TapeReadsTo (ofChars cs) rs := by
  have hlex := Tape.lexical_ofChars cs
  rw [ReadsTo, parseDocument_eq_ok, String.toList_ofList]
  constructor
  · rintro (⟨hend, rfl⟩ | ⟨d, rest, hrun, hfront, htree⟩)
    · exact ⟨[], ofChars cs, itemsWhile_stop hend (by simp), hend, rfl⟩
    · obtain ⟨rs', hrs, h⟩ := bind_eq_ok.1 htree
      cases h
      exact ⟨d.definitions, rest, ((document_eq_ok hlex).1 hrun).2, hfront, hrs⟩
  · rintro ⟨xs, rest, hrun, hfront, hrs⟩
    by_cases hend : (ofChars cs).front = some .endOfSource
    · have hstop : definitionList (ofChars cs) = .ok ([], ofChars cs) := itemsWhile_stop hend (by simp)
      rw [hstop] at hrun
      cases hrun
      cases hrs
      exact .inl ⟨hend, rfl⟩
    · refine .inr ⟨⟨xs⟩, rest, (document_eq_ok hlex).2 ⟨hend, hrun⟩, hfront, ?_⟩
      rw [Syntax.Document.toTree, hrs]
      rfl

/-- Definitions are read one after the other. -/
theorem tapeReadsTo_iff {tape : Tape} (hlex : tape.Lexical) {word : String}
    (hfront : tape.front = some (.name word)) {rs : List Tree} :
    TapeReadsTo tape rs ↔ ∃ x rest r more, Syntax.definition tape = .ok (x, rest) ∧ x.toTree = .ok r ∧
      TapeReadsTo rest more ∧ rs = r :: more := by
  rw [TapeReadsTo, definitionList_step hlex hfront (by simp)]
  constructor
  · rintro ⟨xs, last, hxs, hlast, hrs⟩
    obtain ⟨x, rest, hrun, hxs⟩ := bind_run_eq_ok hxs
    obtain ⟨xs, mid, hmore, h⟩ := bind_run_eq_ok hxs
    cases h
    obtain ⟨r, hr, hrs⟩ := bind_eq_ok.1 (List.mapM_cons.symm.trans hrs)
    obtain ⟨more, hrest, h⟩ := bind_eq_ok.1 hrs
    cases h
    exact ⟨x, rest, r, more, hrun, hr, ⟨xs, last, hmore, hlast, hrest⟩, rfl⟩
  · rintro ⟨x, rest, r, more, hrun, hr, ⟨xs, last, hmore, hlast, hrest⟩, rfl⟩
    refine ⟨x :: xs, last, ?_, hlast, ?_⟩
    · rw [bind_run hrun, bind_run hmore]
      rfl
    · rw [List.mapM_cons, hr, hrest]
      rfl

/-- Once the first definition has been read, the rest of the text is read on its own. -/
theorem readsTo_of_run {cs cs' : List Char} {rs : List Tree} {word : String} {x : Definition}
    (hfront : (ofChars cs).front = some (.name word)) (hrun : Syntax.definition (ofChars cs) = .ok (x, ofChars cs')) :
    ReadsTo cs rs ↔ ∃ r more, x.toTree = .ok r ∧ ReadsTo cs' more ∧ rs = r :: more := by
  rw [readsTo_iff, tapeReadsTo_iff (Tape.lexical_ofChars cs) hfront]
  simp only [readsTo_iff]
  constructor
  · rintro ⟨y, rest, r, more, hy, hr, hmore, hrs⟩
    cases hrun.symm.trans hy
    exact ⟨r, more, hr, hmore, hrs⟩
  · rintro ⟨r, more, hr, hmore, hrs⟩
    exact ⟨x, ofChars cs', r, more, hrun, hr, hmore, hrs⟩

/-- A text whose first definition cannot be read is not read at all. -/
theorem not_readsTo_of_fails {cs : List Char} {word : String} (hfront : (ofChars cs).front = some (.name word))
    (h : Fails Syntax.definition (ofChars cs)) (rs : List Tree) : ¬ReadsTo cs rs := by
  rw [readsTo_iff, tapeReadsTo_iff (Tape.lexical_ofChars cs) hfront]
  rintro ⟨x, rest, r, more, hrun, -⟩
  exact not_fails_of_ok hrun h

/-- Where it is settled what the first definition is read as, so is what the text is read as. -/
theorem readsTo_of_settles {cs cs' : List Char} {rs : List Tree} {word : String} {R : Tree → Prop}
    (hfront : (ofChars cs).front = some (.name word))
    (h : Settles Syntax.definition Definition.toTree (ofChars cs) (ofChars cs') R) :
    ReadsTo cs rs ↔ ∃ r rest, R r ∧ ReadsTo cs' rest ∧ rs = r :: rest := by
  -- either the definition is read, and then in one way, or everything fails
  by_cases hsome : ∃ r, R r
  · obtain ⟨r, hr⟩ := hsome
    obtain ⟨x, hrun, hx⟩ := h.reads r hr
    have honly : ∀ r', x.toTree = .ok r' ↔ R r' := by
      intro r'
      constructor
      · intro hx'
        cases hx.symm.trans hx'
        exact hr
      · intro hr'
        obtain ⟨y, hyrun, hy⟩ := h.reads r' hr'
        cases hrun.symm.trans hyrun
        exact hy
    rw [readsTo_of_run hfront hrun]
    simp only [honly]
  · have hnone : ∀ r, ¬R r := fun r hr => hsome ⟨r, hr⟩
    refine ⟨fun hread => absurd hread (not_readsTo_of_fails hfront (h.fails hnone) rs), ?_⟩
    rintro ⟨r, rest, hr, -⟩
    exact absurd hr (hnone r)

/-! ## Single definitions -/

/-- Whether a definition of the type system has all parts that its text needs: no block and no union is
empty, and an object type has one interface at most, and none if it has directives. -/
def Tree.IsWhole : Tree → Prop
  | .objectType _ fields interfaces dirs _ =>
    fields.items ≠ [] ∧ interfaces.items.length ≤ 1 ∧ (interfaces.items = [] ∨ dirs.items = [])
  | .interfaceType _ fields _ _ | .inputType _ fields _ _ => fields.items ≠ []
  | .unionType _ members _ _ => members.items ≠ []
  | .enumType _ values _ _ => values.items ≠ []
  | _ => True

/-- Whether the text of a definition may go on with words behind it, or ends too early. -/
def Tree.RunsOn : Tree → Prop
  | .operation _ name vars dirs sels =>
    name.filter (· ≠ "") = Option.none ∧ vars.items = [] ∧ dirs.items = [] ∧ sels.items = []
  | .objectType _ _ interfaces dirs _ =>
    2 ≤ interfaces.items.length ∨ interfaces.items ≠ [] ∧ dirs.items ≠ []
  | .unionType _ members _ _ => members.items = []
  | _ => False

/-- What the text of one definition is read back as. -/
inductive DefinitionReadsBack : Tree → Tree → Prop
  | operation {kind : String} {name : Option String} {vars dirs : Seq Tree} {fs : SeqForm} {sels rs : List Tree}
      (hsome : sels ≠ []) (hsels : ReadBack sels rs) :
    DefinitionReadsBack (.operation kind name vars dirs ⟨fs, sels⟩)
      (.operation kind (name.filter (· ≠ "")) (.tuple (vars.items.map reading)) (.tuple (dirs.items.map reading))
        (.tuple rs))
  | fragment {name type : String} {dirs : Seq Tree} {fs : SeqForm} {sels rs : List Tree}
      (hsome : sels ≠ []) (hsels : ReadBack sels rs) :
    DefinitionReadsBack (.fragment name (.typeName type) dirs ⟨fs, sels⟩)
      (.fragment name (.typeName type) (.tuple (dirs.items.map reading)) (.tuple rs))
  | typeSystem {d : Tree} (htype : IsTypeSystem d) (hwhole : d.IsWhole) : DefinitionReadsBack d d.reading

/-- Whether a definition ends here, whatever its kind. -/
def Ends (k : List Char) : Prop := ∀ bad, Clear bad k

/-- An operation reads back if it selects something and its selections read back. -/
theorem definitionReadsBack_operation {kind : String} {name : Option String} {fv fd fs : SeqForm}
    {vars dirs sels : List Tree} {r : Tree} :
    DefinitionReadsBack (.operation kind name ⟨fv, vars⟩ ⟨fd, dirs⟩ ⟨fs, sels⟩) r ↔
      sels ≠ [] ∧ ∃ rs, ReadBack sels rs ∧ r = .operation kind (name.filter (· ≠ ""))
        (.tuple (vars.map reading)) (.tuple (dirs.map reading)) (.tuple rs) := by
  constructor
  · intro h
    cases h with
    | operation hsome hsels => exact ⟨hsome, _, hsels, rfl⟩
    | typeSystem htype => cases htype
  · rintro ⟨hsome, rs, hsels, rfl⟩
    exact .operation hsome hsels

/-- A fragment reads back if it selects something and its selections read back. -/
theorem definitionReadsBack_fragment {name type : String} {fd fs : SeqForm} {dirs sels : List Tree} {r : Tree} :
    DefinitionReadsBack (.fragment name (.typeName type) ⟨fd, dirs⟩ ⟨fs, sels⟩) r ↔
      sels ≠ [] ∧ ∃ rs, ReadBack sels rs ∧
        r = .fragment name (.typeName type) (.tuple (dirs.map reading)) (.tuple rs) := by
  constructor
  · intro h
    cases h with
    | fragment hsome hsels => exact ⟨hsome, _, hsels, rfl⟩
    | typeSystem htype => cases htype
  · rintro ⟨hsome, rs, hsels, rfl⟩
    exact .fragment hsome hsels

/-- A type system definition reads back if it has all parts its text needs. -/
theorem definitionReadsBack_typeSystem {d r : Tree} (h : IsTypeSystem d) :
    DefinitionReadsBack d r ↔ d.IsWhole ∧ r = d.reading := by
  constructor
  · intro hread
    cases hread with
    | operation => cases h
    | fragment => cases h
    | typeSystem _ hwhole => exact ⟨hwhole, rfl⟩
  · rintro ⟨hwhole, rfl⟩
    exact .typeSystem h hwhole

section Definition

variable {d : Tree} {k : List Char}

/-- It is settled what an operation or a fragment that does not run on is read as. -/
private theorem settles_executable (h : IsExecutable true d) (hk : Ends k) (hmore : ¬d.RunsOn) :
    ∃ p, Syntax.definitionOf? Option.none d.keyword = some p ∧
      Settles p Definition.toTree (ofChars (d.chars "" ++ k)) (ofChars k) (DefinitionReadsBack d) := by
  cases h with
  | operation hname hvars hdirs hsels =>
    rename_i kind name fv fd fs vars dirs sels
    refine ⟨Syntax.operation Option.none, by cases kind <;> rfl, ?_⟩
    exact (settles_operation hname hvars hdirs hsels.2 (hk _) hmore).congr fun r =>
      definitionReadsBack_operation.symm
  | fragment hname hon htype hdirs hsels =>
    exact ⟨Syntax.fragment Option.none, rfl, (settles_fragment hname hon htype hdirs hsels.2 (hk _)).congr fun r =>
      definitionReadsBack_fragment.symm⟩

/-- It is settled what a type system definition that does not run on is read as. -/
private theorem settles_typeSystem (h : IsTypeSystem d) (hshown : d.isSuppressed = false) (hk : Ends k)
    (hmore : ¬d.RunsOn) :
    ∃ p, Syntax.definitionOf? Option.none d.keyword = some p ∧
      Settles p Definition.toTree (ofChars (d.chars "" ++ k)) (ofChars k) fun r => d.IsWhole ∧ r = d.reading := by
  have hsimple : d.IsWhole → ∀ r, r = d.reading ↔ d.IsWhole ∧ r = d.reading :=
    fun hwhole r => ⟨fun hr => ⟨hwhole, hr⟩, fun hr => hr.2⟩
  cases h with
  | schema hquery hmutation hsubscription =>
    exact ⟨Syntax.schema Option.none, rfl,
      (settles_schema hquery hmutation hsubscription hshown (hk _)).congr (hsimple trivial)⟩
  | scalarType hname hdirs =>
    exact ⟨Syntax.scalarType Option.none, rfl, (settles_scalarType hname hdirs (hk _) _).congr (hsimple trivial)⟩
  | objectType hname hfields hinterfaces hdirs =>
    rename_i name fields dirs interfaces description
    refine ⟨Syntax.objectType Option.none, rfl, ?_⟩
    cases interfaces with
    | nil =>
      refine (settles_objectType hname hfields hdirs (hk _) description).congr fun r => ?_
      simp [Tree.IsWhole]
    | cons first more =>
      -- more interfaces, or one behind directives, would run on
      have hone : more = [] ∧ dirs = [] := by
        simp only [Tree.RunsOn, Seq.items_tuple, List.length_cons, not_or, not_and_or, not_not] at hmore
        refine ⟨List.eq_nil_of_length_eq_zero (by omega), hmore.2.resolve_left (by simp)⟩
      obtain ⟨rfl, rfl⟩ := hone
      refine (settles_objectType_one hname (hinterfaces first (by simp)) hfields (hk _) description).congr fun r => ?_
      simp [Tree.IsWhole]
  | interfaceType hname hfields hdirs =>
    exact ⟨Syntax.interfaceType Option.none, rfl, settles_interfaceType hname hfields hdirs (hk _) _⟩
  | unionType hname hmembers hdirs =>
    refine ⟨Syntax.unionType Option.none, rfl, ?_⟩
    have hsome := fun hempty => hmore (List.map_eq_nil_iff.2 hempty)
    exact (settles_unionType hname hmembers hdirs hsome (hk _) _).congr (hsimple hmore)
  | enumType hname hvalues hdirs =>
    exact ⟨Syntax.enumType Option.none, rfl, settles_enumType hname hvalues hdirs (hk _) _⟩
  | inputType hname hfields hdirs =>
    exact ⟨Syntax.inputType Option.none, rfl, settles_inputType hname hfields hdirs (hk _) _⟩
  | directiveDefinition hname hsome hlocations hargs =>
    exact ⟨Syntax.directiveDefinition Option.none, rfl,
      (settles_directiveDefinition hname hsome hlocations hargs (hk _) _).congr (hsimple trivial)⟩

/-- The text of a definition is read back, as far as it does not run on. -/
theorem settles_definition (h : IsDefinition d) (hshown : d.isSuppressed = false) (hk : Ends k)
    (hmore : ¬d.RunsOn) :
    Settles Syntax.definition Definition.toTree (ofChars (d.chars "" ++ k)) (ofChars k) (DefinitionReadsBack d) := by
  have hfront := front_definition h hshown (hk [.pipe])
  rcases h with h | h
  · obtain ⟨p, hp, hsettles⟩ := settles_executable h hk hmore
    exact hsettles.of_run (definition_run hfront hp)
  · obtain ⟨p, hp, hsettles⟩ := settles_typeSystem h hshown hk hmore
    exact (hsettles.of_run (definition_run hfront hp)).congr fun r => (definitionReadsBack_typeSystem h).symm

end Definition

/-! ## Documents in print -/

/-- The text of definitions, with an empty line between them. -/
def documentText (ds : List Tree) : List Char := series (·.chars "") [] ['\n', '\n'] [] ds

/-- The text of the definitions behind another one. -/
def tailText (ds : List Tree) : List Char := series (·.chars "") ['\n', '\n'] ['\n', '\n'] [] ds

/-- The text of a document is that of its first definition and what follows it. -/
theorem documentText_cons (d : Tree) (ds : List Tree) : documentText (d :: ds) = d.chars "" ++ tailText ds := rfl

/-- What follows a definition starts with a blank line. -/
theorem tailText_cons (d : Tree) (ds : List Tree) :
    tailText (d :: ds) = '\n' :: '\n' :: documentText (d :: ds) := rfl

/-- The blank line in front gives no token. -/
theorem ofChars_tailText (ds : List Tree) : ofChars (tailText ds) = ofChars (documentText ds) := by
  cases ds with
  | nil => rfl
  | cons d ds => rw [tailText_cons, Tape.ofChars_newline, Tape.ofChars_newline]

/-- A definition that shows in print. -/
def IsShown (d : Tree) : Prop := IsDefinition d ∧ d.isSuppressed = false

/-- Behind a definition there is another one, or nothing. -/
theorem ends_tailText {ds : List Tree} (h : ∀ d ∈ ds, IsShown d) : Ends (tailText ds) := by
  induction ds with
  | nil => exact clear_nil
  | cons d ds ih =>
    intro bad
    have hd := h d (by simp)
    have hrest := ih fun t ht => h t (List.mem_cons_of_mem _ ht)
    have hfront := front_definition hd.1 hd.2 (hrest _)
    refine ⟨by simp [tailText_cons, isBoundary, isNameChar], .name d.keyword, ?_, by simp⟩
    rw [ofChars_tailText, documentText_cons, hfront]

/-- What the text of definitions is read back as. The last three rules are for definitions whose text is
not all there: an operation takes the keyword behind it for its name, a union takes it for its only
member, and an object type takes its first interface and leaves the others to the next definition. -/
inductive DocumentReadsBack : List Tree → List Tree → Prop
  | nil : DocumentReadsBack [] []
  | cons {d r : Tree} {ds rs : List Tree} (h : DefinitionReadsBack d r) (hrest : DocumentReadsBack ds rs) :
    DocumentReadsBack (d :: ds) (r :: rs)
  | bareOperation {kind : String} {name : Option String} {fv fd fs : SeqForm} {next : Tree}
      {ds rs : List Tree} {vars dirs sels : Seq Tree} {cs : List Char} (hname : name.filter (· ≠ "") = Option.none)
      (htext : documentText (next :: ds) = next.keyword.toList ++ cs)
      (hrest : ReadsTo (kind.toList ++ cs) (.operation kind Option.none vars dirs sels :: rs)) :
    DocumentReadsBack (.operation kind name ⟨fv, []⟩ ⟨fd, []⟩ ⟨fs, []⟩ :: next :: ds)
      (.operation kind (some next.keyword) vars dirs sels :: rs)
  | emptyUnion {name : String} {dirs : List Tree} {description : Option String} {next : Tree}
      {ds rs : List Tree} {cs : List Char} (htext : documentText (next :: ds) = next.keyword.toList ++ cs)
      (hrest : ReadsTo cs rs) :
    DocumentReadsBack (.unionType name (.tuple []) (.tuple dirs) description :: next :: ds)
      (.unionType name (.tuple [.typeName next.keyword]) (.tuple (dirs.map reading)) Option.none :: rs)
  | manyInterfaces {name first second : String} {more : List String} {fields : List Tree}
      {description : Option String} {ds rs : List Tree}
      (hrest : ReadsTo ((Layout.commaList (second :: more)).toList ++ (fieldsText fields ++ tailText ds)) rs) :
    DocumentReadsBack
      (.objectType name (.tuple fields) (.tuple (first :: second :: more)) (.tuple []) description :: ds)
      (.objectType name (.tuple []) (.tuple [first]) (.tuple []) Option.none :: rs)

/-- What a text is read as depends on its tokens alone. -/
theorem readsTo_congr {cs cs' : List Char} (h : ofChars cs = ofChars cs') (rs : List Tree) :
    ReadsTo cs rs ↔ ReadsTo cs' rs := by
  rw [readsTo_iff, readsTo_iff, h]

/-- The empty text is read as no definitions. -/
theorem readsTo_nil {rs : List Tree} : ReadsTo [] rs ↔ rs = [] := by
  have hend : (ofChars []).front = some .endOfSource := by
    rw [Tape.ofChars_nil]
    rfl
  have hstop : definitionList (ofChars []) = .ok ([], ofChars []) := itemsWhile_stop hend (by simp)
  rw [readsTo_iff, TapeReadsTo, hstop]
  constructor
  · rintro ⟨xs, rest, hrun, -, hrs⟩
    cases hrun
    cases hrs
    rfl
  · rintro rfl
    exact ⟨[], _, rfl, hend, rfl⟩

/-- A definition whose text does not run on is read on its own. -/
theorem readsTo_cons {d : Tree} {ds rs : List Tree} (hd : IsShown d) (hds : ∀ t ∈ ds, IsShown t)
    (hmore : ¬d.RunsOn) :
    ReadsTo (documentText (d :: ds)) rs ↔
      ∃ r rest, DefinitionReadsBack d r ∧ ReadsTo (documentText ds) rest ∧ rs = r :: rest := by
  have hends := ends_tailText hds
  rw [documentText_cons, readsTo_of_settles (front_definition hd.1 hd.2 (hends _))
    (settles_definition hd.1 hd.2 hends hmore)]
  simp only [readsTo_congr (ofChars_tailText ds)]

end GraphDoc
