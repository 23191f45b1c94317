import GraphDoc.Proofs.Syntax.Documents

/-!
# Definitions that run on

The text of a definition without its last part goes on with the words of the definition behind it. One
lemma for each such kind of definition, and then what the text of all definitions is read back as.
-/

namespace GraphDoc

open GraphDoc.Parser GraphDoc.Tree
open Syntax (Definition Directive OperationKind Selection VariableDefinition maxDepth)
open Tape (ofChars)

/-! ## Operations -/

/-- What is read of an operation behind its name, before it is put together. -/
def operationParts : Parser (List VariableDefinition × List Directive × List Selection) := do
  let vars ← optionalMany .parenL Syntax.variableDefinition .parenR
  let directives ← Syntax.directives false maxDepth
  let selections ← Syntax.selectionSet maxDepth
  return (vars, directives, selections)

/-- The operation of the given parts. -/
def operationOf (kind : OperationKind) (name : Option String)
    (parts : List VariableDefinition × List Directive × List Selection) : Definition :=
  .operation { kind, name, vars := parts.1, directives := parts.2.1, selections := some parts.2.2 }

theorem operationBody_eq (kind : OperationKind) (name : Option String) :
    operationBody kind name = operationOf kind name <$> operationParts := by
  simp only [operationBody, operationParts, map_bind, map_pure]
  rfl

theorem operationBody_eq_ok {kind : OperationKind} {name : Option String} {tape rest : Tape} {x : Definition} :
    operationBody kind name tape = .ok (x, rest) ↔
      ∃ parts, operationParts tape = .ok (parts, rest) ∧ x = operationOf kind name parts := by
  rw [operationBody_eq]
  constructor
  · intro h
    obtain ⟨parts, mid, hrun, h⟩ := bind_run_eq_ok (f := fun parts => pure (operationOf kind name parts)) h
    cases h
    exact ⟨parts, hrun, rfl⟩
  · rintro ⟨parts, hrun, rfl⟩
    exact map_run hrun _

/-- The name of an operation shows in its tree and nowhere else. -/
theorem toTree_operationOf {kind : OperationKind} {name : Option String}
    {parts : List VariableDefinition × List Directive × List Selection} {r : Tree} :
    (operationOf kind name parts).toTree = .ok r ↔
      ∃ vars dirs sels, (operationOf kind Option.none parts).toTree =
          .ok (.operation kind.keyword Option.none vars dirs sels) ∧
        r = .operation kind.keyword name vars dirs sels := by
  -- the conversion of the parts does not look at the name
  have hparts : ∀ name r, (operationOf kind name parts).toTree = .ok r ↔
      ∃ vars dirs sels, parts.1.mapM VariableDefinition.toTree = .ok vars ∧
        Syntax.directiveTrees parts.2.1 = .ok dirs ∧ Selection.setTrees (some parts.2.2) = .ok sels ∧
        r = .operation kind.keyword name (.tuple vars) dirs sels := by
    intro name r
    constructor
    · intro h
      obtain ⟨vars, hvars, h⟩ := bind_eq_ok.1 h
      obtain ⟨dirs, hdirs, h⟩ := bind_eq_ok.1 h
      obtain ⟨sels, hsels, h⟩ := bind_eq_ok.1 h
      cases h
      exact ⟨vars, dirs, sels, hvars, hdirs, hsels, rfl⟩
    · rintro ⟨vars, dirs, sels, hvars, hdirs, hsels, rfl⟩
      simp only [operationOf, Definition.toTree, Syntax.Operation.toTree, hvars, hdirs, hsels]
      rfl
  rw [hparts]
  constructor
  · rintro ⟨vars, dirs, sels, hvars, hdirs, hsels, rfl⟩
    exact ⟨.tuple vars, dirs, sels, (hparts _ _).2 ⟨vars, dirs, sels, hvars, hdirs, hsels, rfl⟩, rfl⟩
  · rintro ⟨_, dirs, sels, h, rfl⟩
    obtain ⟨vars, dirs, sels, hvars, hdirs, hsels, h⟩ := (hparts _ _).1 h
    cases h
    exact ⟨vars, dirs, sels, hvars, hdirs, hsels, rfl⟩

theorem nameText_of_filter {name : Option String} (h : name.filter (· ≠ "") = Option.none) : nameText name = "" := by
  cases name with
  | none => rfl
  | some s =>
    have hs : s = "" := by simpa [Option.filter] using h
    exact if_pos hs

theorem exists_next_of_front {tape : Tape} {word : String} (h : tape.front = some (.name word)) :
    ∃ place rest, tape = .next (.name word) place rest := by
  cases tape with
  | next t place rest =>
    cases h
    exact ⟨place, rest, rfl⟩
  | _ => cases h

/-- The parts of an operation do not start with a name. -/
theorem operationParts_front {tape rest : Tape} {parts : List VariableDefinition × List Directive × List Selection}
    (h : operationParts tape = .ok (parts, rest)) : ∃ t, tape.front = some t ∧ ∀ w, t ≠ .name w := by
  cases hfront : tape.front with
  | none =>
    cases tape with
    | fault e => cases h
    | _ => cases hfront
  | some t =>
    refine ⟨t, rfl, ?_⟩
    rintro w rfl
    have hvars : optionalMany .parenL Syntax.variableDefinition .parenR tape = .ok ([], tape) := by
      rw [optionalMany, bind_run (peek_run hfront), if_neg (by simp)]
      rfl
    have hdirs : Syntax.directives false maxDepth tape = .ok ([], tape) := itemsWhile_stop hfront (by simp)
    have hfails : Fails operationParts tape :=
      .of_bind hvars (.of_bind hdirs (((nests_selectionSet maxDepth).fails hfront (by simp)).bind _))
    exact not_fails_of_ok h hfails

/-- An operation whose name is left out is read from its parts. -/
theorem operation_eq_ok {kind : OperationKind} {place : List Char} {tape rest : Tape} {x : Definition}
    {vars dirs sels : Seq Tree} (hx : x.toTree = .ok (.operation kind.keyword Option.none vars dirs sels)) :
    Syntax.operation Option.none (.next (.name kind.keyword) place tape) = .ok (x, rest) ↔
      operationBody kind Option.none tape = .ok (x, rest) := by
  cases hfront : tape.front with
  | none =>
    cases tape with
    | fault e =>
      constructor
      · intro h
        cases h
      · intro h
        cases h
    | _ => cases hfront
  | some t =>
    by_cases hname : ∃ w, t = .name w
    · obtain ⟨w, rfl⟩ := hname
      constructor
      · intro h
        -- the name would show in the tree
        obtain ⟨place', behind, rfl⟩ := exists_next_of_front hfront
        rw [operation_run_named, operationBody_eq_ok] at h
        obtain ⟨parts, -, rfl⟩ := h
        obtain ⟨_, _, _, -, htree⟩ := toTree_operationOf.1 hx
        cases htree
      · intro h
        obtain ⟨parts, hparts, -⟩ := operationBody_eq_ok.1 h
        obtain ⟨t, ht, hname⟩ := operationParts_front hparts
        rw [hfront] at ht
        cases ht
        exact absurd rfl (hname w)
    · rw [operation_run_unnamed hfront (fun w hw => hname ⟨w, hw⟩) kind place]

theorem documentText_bareOperation {kind : OperationKind} {name : Option String} {fv fd fs : SeqForm}
    (hname : name.filter (· ≠ "") = Option.none) (ds : List Tree) :
    documentText (.operation kind.keyword name ⟨fv, []⟩ ⟨fd, []⟩ ⟨fs, []⟩ :: ds) =
      kind.keyword.toList ++ tailText ds := by
  have hsels : ∀ s ∈ ([] : List Tree), IsSelection true (maxDepth - 1) s := by simp
  have hnone : operationText [] [] [] = [] := rfl
  rw [documentText_cons, chars_operation (by simp) (by simp) hsels, nameText_of_filter hname, hnone]
  simp

/-- An operation that is printed as its keyword only takes the keyword behind it for its name. -/
theorem readsTo_bareOperation {kind : OperationKind} {name : Option String} {fv fd fs : SeqForm} {next : Tree}
    {ds rs : List Tree} {cs : List Char} (hname : name.filter (· ≠ "") = Option.none)
    (hnext : isName next.keyword = true) (htext : documentText (next :: ds) = next.keyword.toList ++ cs) (hcs : Boundary cs) :
    ReadsTo (documentText (.operation kind.keyword name ⟨fv, []⟩ ⟨fd, []⟩ ⟨fs, []⟩ :: next :: ds)) rs ↔
      ∃ vars dirs sels more,
        ReadsTo (kind.keyword.toList ++ cs) (.operation kind.keyword Option.none vars dirs sels :: more) ∧
        rs = .operation kind.keyword (some next.keyword) vars dirs sels :: more := by
  have hp : Syntax.definitionOf? Option.none kind.keyword = some (Syntax.operation Option.none) := by
    cases kind <;> rfl
  have hrun : ∀ place rest, Syntax.definition (.next (.name kind.keyword) place rest) =
      Syntax.operation Option.none (.next (.name kind.keyword) place rest) := fun _ _ => definition_run rfl hp
  obtain ⟨place, place', htape⟩ : ∃ place place', ofChars (kind.keyword.toList ++ '\n' :: '\n' ::
      (next.keyword.toList ++ cs)) =
        .next (.name kind.keyword) place (.next (.name next.keyword) place' (ofChars cs)) := by
    rw [Tape.ofChars_name (isName_keyword kind) (by simp [isBoundary, isNameChar]), Tape.ofChars_newline,
      Tape.ofChars_newline, Tape.ofChars_name hnext hcs]
    exact ⟨_, _, rfl⟩
  have hlex := Tape.lexical_ofChars (kind.keyword.toList ++ '\n' :: '\n' :: (next.keyword.toList ++ cs))
  have hlex' := Tape.lexical_ofChars (kind.keyword.toList ++ cs)
  -- both sides run the same parser on the text behind the two keywords
  simp only [readsTo_iff]
  rw [htape] at hlex
  rw [Tape.ofChars_name (isName_keyword kind) hcs] at hlex' ⊢
  rw [documentText_bareOperation hname, tailText_cons, htext, htape, tapeReadsTo_iff hlex rfl, hrun,
    operation_run_named]
  simp only [tapeReadsTo_iff hlex' rfl, hrun, operationBody_eq_ok]
  constructor
  · rintro ⟨_, rest, r, more, ⟨parts, hparts, rfl⟩, htree, hmore, rfl⟩
    obtain ⟨vars, dirs, sels, hnone, rfl⟩ := toTree_operationOf.1 htree
    refine ⟨vars, dirs, sels, more, ⟨_, rest, _, more, ?_, hnone, hmore, rfl⟩, rfl⟩
    exact (operation_eq_ok hnone).2 (operationBody_eq_ok.2 ⟨parts, hparts, rfl⟩)
  · rintro ⟨vars, dirs, sels, more, ⟨x, rest, r, more', hx', hx, hmore, heq⟩, rfl⟩
    cases heq
    obtain ⟨parts, hparts, rfl⟩ := operationBody_eq_ok.1 ((operation_eq_ok hx).1 hx')
    exact ⟨_, rest, _, more, ⟨parts, hparts, rfl⟩, toTree_operationOf.2 ⟨vars, dirs, sels, hx, rfl⟩, hmore, rfl⟩

/-- At the end of the source, a keyword is no operation. -/
theorem not_readsTo_bareOperation {kind : OperationKind} {name : Option String} {fv fd fs : SeqForm}
    (hname : name.filter (· ≠ "") = Option.none) (rs : List Tree) :
    ¬ReadsTo (documentText [.operation kind.keyword name ⟨fv, []⟩ ⟨fd, []⟩ ⟨fs, []⟩]) rs := by
  have hp : Syntax.definitionOf? Option.none kind.keyword = some (Syntax.operation Option.none) := by
    cases kind <;> rfl
  have hfront : (ofChars (kind.keyword.toList ++ [])).front = some (.name kind.keyword) := by
    rw [Tape.ofChars_name (isName_keyword kind) boundary_nil]
    rfl
  have hend : (ofChars []).front = some .endOfSource := by
    rw [Tape.ofChars_nil]
    rfl
  have hbody : Settles (operationBody kind Option.none) Definition.toTree (ofChars (operationText [] [] [] ++ []))
      (ofChars []) _ := settles_operationBody (by simp) (by simp) (by simp) (clear_nil _) Option.none
  rw [documentText_bareOperation hname]
  refine not_readsTo_of_fails hfront ?_ rs
  rw [Fails, definition_run hfront hp, Tape.ofChars_name (isName_keyword kind) boundary_nil,
    operation_run_unnamed hend (by simp)]
  exact hbody.fails fun r hr => hr.1 rfl

/-! ## Unions -/

section Union

variable {name : String} {dirs : List Tree} {description : Option String}

private theorem isTypeSystem_emptyUnion (description : Option String) (hname : isName name = true)
    (hdirs : ∀ t ∈ dirs, IsDirective true maxDepth t) :
    IsTypeSystem (.unionType name (.tuple []) (.tuple dirs) description) := by
  rw [← List.map_nil (f := Tree.typeName)]
  exact .unionType hname (by simp) hdirs

/-- The members of a union without any are looked for behind it. -/
private theorem union_run (description : Option String) (hname : isName name = true)
    (hdirs : ∀ t ∈ dirs, IsDirective true maxDepth t) {k : List Char} (hk : Clear [.pipe] k) :
    ∃ ds, Syntax.directiveTrees ds = .ok (.tuple (dirs.map reading)) ∧
      Syntax.definition (ofChars ((Tree.unionType name (.tuple []) (.tuple dirs) description).chars "" ++ k)) = (do
        let members ← separated .pipe Parser.name
        return .union { name, directives := ds, members } : Parser Definition) (ofChars k) := by
  have hunion := isTypeSystem_emptyUnion description hname hdirs
  have hfront := front_definition (.inr hunion) rfl hk
  have hclear : Clear [.at, .parenL] (' ' :: '=' :: ' ' :: k) :=
    clear_blank isBlank_space (clear_punct (m := .equals) (by decide) (by simp) _)
  have htext : (Tree.unionType name (.tuple []) (.tuple dirs) description).chars "" ++ k =
      headText "union" name dirs ++ ' ' :: '=' :: ' ' :: k := by
    have hchars := chars_unionType hdirs name description []
    rw [List.map_nil] at hchars
    rw [hchars]
    simp
  obtain ⟨ds, hds, hrun⟩ := head_read "union" (by decide) hname hdirs hclear fun name ds => do
    let members ← Syntax.members
    return Definition.union { name, directives := ds, members }
  refine ⟨ds, hds, ?_⟩
  rw [definition_run hfront (by rfl), htext]
  refine hrun.trans ?_
  rw [Syntax.members, bind_assoc, Tape.ofChars_space, Tape.ofChars_punct (m := .equals) (by decide),
    bind_run (skip_run ..), if_pos rfl, Tape.ofChars_space]

/-- A union without members takes the keyword behind it for a member. -/
theorem readsTo_emptyUnion (hname : isName name = true) (hdirs : ∀ t ∈ dirs, IsDirective true maxDepth t)
    {next : Tree} {ds rs : List Tree} {cs : List Char} (hnext : isName next.keyword = true)
    (htext : documentText (next :: ds) = next.keyword.toList ++ cs) (hcs : Clear [.pipe] cs) :
    ReadsTo (documentText (.unionType name (.tuple []) (.tuple dirs) description :: next :: ds)) rs ↔
      ∃ more, ReadsTo cs more ∧ rs = .unionType name (.tuple [.typeName next.keyword]) (.tuple (dirs.map reading))
        Option.none :: more := by
  have hunion := isTypeSystem_emptyUnion description hname hdirs
  -- the bar-separated list behind the equals sign starts with the next keyword
  have hnextFront : (ofChars (next.keyword.toList ++ cs)).front = some (.name next.keyword) := by
    rw [Tape.ofChars_name hnext hcs.1]
    rfl
  have htail : tailText (next :: ds) = '\n' :: '\n' :: (next.keyword.toList ++ cs) := by rw [tailText_cons, htext]
  have hk : Clear [.pipe] (tailText (next :: ds)) := by
    rw [htail]
    exact clear_ignored (by decide) ((front_ignored (by decide) _ _).2 ⟨_, hnextFront, by simp⟩)
  obtain ⟨t, hcsFront, ht⟩ := hcs.2
  obtain ⟨dt, hdt, hrun⟩ := union_run description hname hdirs hk
  have hmembers : separated .pipe Parser.name (ofChars (tailText (next :: ds))) = .ok ([next.keyword], ofChars cs) := by
    rw [htail, Tape.ofChars_newline, Tape.ofChars_newline, separated,
      bind_run (skip_pass hnextFront (by simp)), Tape.ofChars_name hnext hcs.1, bind_run (name_run ..),
      bind_run (itemsWhile_stop hcsFront (by simpa using ht .pipe (by simp)))]
    rfl
  rw [bind_run hmembers] at hrun
  have htree : (Definition.union { name, directives := dt, members := [next.keyword] }).toTree = .ok
      (.unionType name (.tuple [.typeName next.keyword]) (.tuple (dirs.map reading)) Option.none) := by
    simp only [Definition.toTree, Syntax.UnionType.toTree, hdt]
    rfl
  rw [documentText_cons, readsTo_of_run (front_definition (.inr hunion) rfl hk) hrun, htree]
  constructor
  · rintro ⟨r, more, hr, hmore, rfl⟩
    cases hr
    exact ⟨more, hmore, rfl⟩
  · rintro ⟨more, hmore, rfl⟩
    exact ⟨_, more, rfl, hmore, rfl⟩

/-- At the end of the source, a union without members is not read. -/
theorem not_readsTo_emptyUnion (hname : isName name = true) (hdirs : ∀ t ∈ dirs, IsDirective true maxDepth t)
    (rs : List Tree) :
    ¬ReadsTo (documentText [.unionType name (.tuple []) (.tuple dirs) description]) rs := by
  have hunion := isTypeSystem_emptyUnion description hname hdirs
  have hend : (ofChars []).front = some .endOfSource := by
    rw [Tape.ofChars_nil]
    rfl
  obtain ⟨dt, -, hrun⟩ := union_run description hname hdirs (clear_nil _)
  refine not_readsTo_of_fails (front_definition (.inr hunion) rfl (clear_nil _)) ?_ rs
  rw [Fails, hrun]
  exact (Fails.of_bind (skip_pass hend (by simp)) ((name_fails hend (by simp)).bind _)).bind _

end Union

/-! ## Object types -/

section ObjectType

variable {name first second : String} {more : List String} {fields dirs : List Tree} {description : Option String}
  {ds rs : List Tree}

/-- An object type without directives takes the first of its interfaces and leaves the others. -/
theorem readsTo_manyInterfaces (hname : isName name = true) (hfields : ∀ f ∈ fields, IsFieldDefinition f)
    (hinterfaces : ∀ n ∈ first :: second :: more, isName n = true) (hds : ∀ d ∈ ds, IsShown d) :
    ReadsTo (documentText
        (.objectType name (.tuple fields) (.tuple (first :: second :: more)) (.tuple []) description :: ds)) rs ↔
      ∃ rest, ReadsTo ((Layout.commaList (second :: more)).toList ++ (fieldsText fields ++ tailText ds)) rest ∧
        rs = .objectType name (.tuple []) (.tuple [first]) (.tuple []) Option.none :: rest := by
  have hends := ends_tailText hds
  have hobject : IsTypeSystem
      (.objectType name (.tuple fields) (.tuple (first :: second :: more)) (.tuple []) description) :=
    .objectType hname hfields hinterfaces (by simp)
  have hsecond := hinterfaces second (by simp)
  have hsplit : ∃ cs, (Layout.commaList (second :: more)).toList ++ (fieldsText fields ++ tailText ds) =
      second.toList ++ cs ∧ Boundary cs := by
    rw [Layout.toList_commaList, series, List.nil_append, List.nil_append, List.append_assoc]
    refine ⟨_, rfl, ?_⟩
    cases more with
    | nil => exact (clear_fieldsText fields List.not_mem_nil _).1
    | cons third more => simp [series, isBoundary, isNameChar]
  obtain ⟨cs, hsecondText, hcs⟩ := hsplit
  have hfront : (ofChars (second.toList ++ cs)).front = some (.name second) := by
    rw [Tape.ofChars_name hsecond hcs]
    rfl
  -- the comma is blank, so a name stands where an ampersand or a brace should
  have hcomma : ofChars (',' :: ' ' :: (second.toList ++ cs)) = ofChars (second.toList ++ cs) := by
    rw [Tape.ofChars_ignored (by decide), Tape.ofChars_space]
  have hclear : Clear [.amp, .at, .parenL] (',' :: ' ' :: (second.toList ++ cs)) :=
    ⟨by simp [isBoundary, isNameChar], .name second, by rw [hcomma, hfront], by simp⟩
  have htext : (Tree.objectType name (.tuple fields) (.tuple (first :: second :: more)) (.tuple [])
        description).chars "" ++ tailText ds =
      "type".toList ++ ' ' :: (name.toList ++ ' ' :: ("implements".toList ++ ' ' :: (first.toList ++
        ',' :: ' ' :: (second.toList ++ cs)))) := by
    have hnone : directivesText [] = [] := rfl
    rw [chars_objectType (by simp) name description hfields, headText, hnone, ← hsecondText, Layout.toList_commaList,
      interfacesText, if_neg (by simp), String.toList_append, Layout.toList_commaList]
    simp [series]
  have hrun : Syntax.definition (ofChars ((Tree.objectType name (.tuple fields) (.tuple (first :: second :: more))
        (.tuple []) description).chars "" ++ tailText ds)) =
      .ok (.object { name, interfaces := [first] }, ofChars (second.toList ++ cs)) := by
    rw [definition_run (front_definition (.inr hobject) rfl (hends _)) (by rfl), htext,
      objectType_run hname (hinterfaces first (by simp)) hclear,
      hcomma, Syntax.fieldDefinitions, optionalMany, bind_assoc, bind_run (peek_run hfront)]
    rfl
  rw [documentText_cons, readsTo_of_run (front_definition (.inr hobject) rfl (hends _)) hrun, hsecondText]
  constructor
  · rintro ⟨r, rest, hr, hrest, rfl⟩
    cases hr
    exact ⟨rest, hrest, rfl⟩
  · rintro ⟨rest, hrest, rfl⟩
    exact ⟨_, rest, rfl, hrest, rfl⟩

/-- An object type with directives does not take its interfaces, and no definition starts with them. -/
theorem not_readsTo_directedInterfaces (hname : isName name = true) (hfields : ∀ f ∈ fields, IsFieldDefinition f)
    (hinterfaces : ∀ n ∈ first :: more, isName n = true) (hdirs : ∀ t ∈ dirs, IsDirective true maxDepth t)
    (hsome : dirs ≠ []) (hds : ∀ d ∈ ds, IsShown d) (rs : List Tree) :
    ¬ReadsTo (documentText (.objectType name (.tuple fields) (.tuple (first :: more)) (.tuple dirs) description ::
      ds)) rs := by
  have hends := ends_tailText hds
  have hobject : IsTypeSystem
      (.objectType name (.tuple fields) (.tuple (first :: more)) (.tuple dirs) description) :=
    .objectType hname hfields hinterfaces hdirs
  obtain ⟨cs, hcs⟩ : ∃ cs, (interfacesText (first :: more)).toList ++ (fieldsText fields ++ tailText ds) =
      ' ' :: ("implements".toList ++ ' ' :: cs) := by
    rw [interfacesText, if_neg (by simp)]
    exact ⟨(Layout.commaList (first :: more)).toList ++ (fieldsText fields ++ tailText ds), by simp⟩
  -- behind the directives stands a word that starts no definition
  have hfront : (ofChars (' ' :: ("implements".toList ++ ' ' :: cs))).front = some (.name "implements") := by
    rw [Tape.ofChars_space, Tape.ofChars_name (by decide) (by simp [isBoundary, isNameChar])]
    rfl
  have hclear : Clear [.at, .parenL] (' ' :: ("implements".toList ++ ' ' :: cs)) :=
    ⟨by simp [isBoundary, isNameChar], _, hfront, by simp⟩
  have htext : (Tree.objectType name (.tuple fields) (.tuple (first :: more)) (.tuple dirs)
        description).chars "" ++ tailText ds =
      "type".toList ++ ' ' :: (name.toList ++ (directivesText dirs ++ ' ' :: ("implements".toList ++ ' ' :: cs))) := by
    rw [chars_objectType hdirs name description hfields, headText, ← hcs]
    simp
  obtain ⟨dt, -, hparts⟩ := fieldsType_read hname hdirs hclear (fun hempty => absurd hempty hsome) Definition.object
  have hrun : Syntax.definition (ofChars ((Tree.objectType name (.tuple fields) (.tuple (first :: more))
        (.tuple dirs) description).chars "" ++ tailText ds)) =
      .ok (.object { name, directives := dt }, ofChars (' ' :: ("implements".toList ++ ' ' :: cs))) := by
    rw [definition_run (front_definition (.inr hobject) rfl (hends _)) (by rfl), htext,
      Tape.ofChars_name (by decide) (by simp [isBoundary, isNameChar]), Syntax.objectType, bind_run (keyword_run ..),
      Tape.ofChars_space, hparts, Syntax.fieldDefinitions, optionalMany, bind_assoc, bind_run (peek_run hfront)]
    rfl
  rw [documentText_cons, readsTo_of_run (front_definition (.inr hobject) rfl (hends _)) hrun]
  rintro ⟨r, rest, -, hrest, -⟩
  exact not_readsTo_of_fails hfront (definition_fails hfront (.inr rfl)) rest hrest

end ObjectType

/-! ## All definitions -/

theorem not_runsOn_of_readsBack {d r : Tree} (h : DefinitionReadsBack d r) : ¬d.RunsOn := by
  cases h with
  | operation hsome => exact fun hruns => hsome hruns.2.2.2
  | fragment => exact id
  | typeSystem htype hwhole =>
    cases htype with
    | objectType hname hfields hinterfaces hdirs =>
      obtain ⟨-, hone, hfree⟩ := hwhole
      rintro (htwo | ⟨hsome, hdirected⟩)
      · omega
      · exact hfree.elim hsome hdirected
    | unionType => exact hwhole
    | _ => exact id

/-- The text behind the keyword of a definition that has others behind it. -/
private theorem exists_documentText_eq {d : Tree} {ds : List Tree} (hd : IsShown d) (hds : ∀ t ∈ ds, IsShown t) :
    isName d.keyword = true ∧ ∃ cs, documentText (d :: ds) = d.keyword.toList ++ cs ∧ Clear [.pipe] cs := by
  obtain ⟨hname, cs, htext, hclear⟩ := exists_chars_eq_keyword hd.1 hd.2
  refine ⟨hname, cs ++ tailText ds, ?_, hclear _ (ends_tailText hds _)⟩
  rw [documentText_cons, htext, List.append_assoc]

section RunningOn

variable {ds rs : List Tree} (hds : ∀ t ∈ ds, IsShown t)

include hds

/-- An operation of which only the keyword is printed takes its name from what follows. -/
private theorem readsTo_iff_bareOperation {kind : OperationKind} {name : Option String} {fv fd fs : SeqForm}
    (hname : name.filter (· ≠ "") = Option.none) :
    ReadsTo (documentText (.operation kind.keyword name ⟨fv, []⟩ ⟨fd, []⟩ ⟨fs, []⟩ :: ds)) rs ↔
      DocumentReadsBack (.operation kind.keyword name ⟨fv, []⟩ ⟨fd, []⟩ ⟨fs, []⟩ :: ds) rs := by
  have hruns : (Tree.operation kind.keyword name ⟨fv, []⟩ ⟨fd, []⟩ ⟨fs, []⟩).RunsOn := ⟨hname, rfl, rfl, rfl⟩
  cases ds with
  | nil =>
    refine ⟨fun h => absurd h (not_readsTo_bareOperation hname rs), fun hread => ?_⟩
    cases hread with
    | cons hfirst => exact absurd hruns (not_runsOn_of_readsBack hfirst)
  | cons next ds =>
    obtain ⟨hnext, cs, htext, hcs⟩ := exists_documentText_eq (hds next (by simp))
      fun t ht => hds t (List.mem_cons_of_mem _ ht)
    rw [readsTo_bareOperation hname hnext htext hcs.1]
    constructor
    · rintro ⟨vars, dirs, sels, more, hread, rfl⟩
      exact .bareOperation hname htext hread
    · intro hread
      cases hread with
      | cons hfirst => exact absurd hruns (not_runsOn_of_readsBack hfirst)
      | bareOperation _ htext' hrest =>
        cases List.append_cancel_left (htext.symm.trans htext')
        exact ⟨_, _, _, _, hrest, rfl⟩

/-- A union without members takes the keyword that follows for a member. -/
private theorem readsTo_iff_emptyUnion {name : String} {dirs : List Tree} {description : Option String}
    (hname : isName name = true) (hdirs : ∀ t ∈ dirs, IsDirective true maxDepth t) :
    ReadsTo (documentText (.unionType name (.tuple []) (.tuple dirs) description :: ds)) rs ↔
      DocumentReadsBack (.unionType name (.tuple []) (.tuple dirs) description :: ds) rs := by
  have hruns : (Tree.unionType name (.tuple []) (.tuple dirs) description).RunsOn := rfl
  cases ds with
  | nil =>
    refine ⟨fun h => absurd h (not_readsTo_emptyUnion hname hdirs rs), fun hread => ?_⟩
    cases hread with
    | cons hfirst => exact absurd hruns (not_runsOn_of_readsBack hfirst)
  | cons next ds =>
    obtain ⟨hnext, cs, htext, hcs⟩ := exists_documentText_eq (hds next (by simp))
      fun t ht => hds t (List.mem_cons_of_mem _ ht)
    rw [readsTo_emptyUnion hname hdirs hnext htext hcs]
    constructor
    · rintro ⟨more, hmore, rfl⟩
      exact .emptyUnion htext hmore
    · intro hread
      cases hread with
      | cons hfirst => exact absurd hruns (not_runsOn_of_readsBack hfirst)
      | emptyUnion htext' hrest =>
        cases List.append_cancel_left (htext.symm.trans htext')
        exact ⟨_, hrest, rfl⟩

/-- An object type with several interfaces, or with directives in front of them, loses some of them. -/
private theorem readsTo_iff_interfaces {name : String} {interfaces : List String} {fields dirs : List Tree}
    {description : Option String} (hname : isName name = true) (hfields : ∀ f ∈ fields, IsFieldDefinition f)
    (hinterfaces : ∀ n ∈ interfaces, isName n = true) (hdirs : ∀ t ∈ dirs, IsDirective true maxDepth t)
    (hruns : (Tree.objectType name (.tuple fields) (.tuple interfaces) (.tuple dirs) description).RunsOn) :
    ReadsTo (documentText (.objectType name (.tuple fields) (.tuple interfaces) (.tuple dirs) description :: ds)) rs ↔
      DocumentReadsBack (.objectType name (.tuple fields) (.tuple interfaces) (.tuple dirs) description :: ds) rs := by
  obtain ⟨first, more, rfl⟩ : ∃ first more, interfaces = first :: more := by
    rcases hruns with htwo | ⟨hsome, -⟩
    · exact List.exists_cons_of_length_pos (Nat.lt_of_lt_of_le Nat.two_pos htwo)
    · exact List.exists_cons_of_ne_nil hsome
  by_cases hempty : dirs = []
  · subst hempty
    obtain ⟨second, more, rfl⟩ : ∃ second rest, more = second :: rest := by
      refine List.exists_cons_of_length_pos ?_
      have htwo := hruns.resolve_right fun h => h.2 rfl
      simp only [Seq.items_tuple, List.length_cons] at htwo
      omega
    rw [readsTo_manyInterfaces hname hfields hinterfaces hds]
    constructor
    · rintro ⟨rest, hrest, rfl⟩
      exact .manyInterfaces hrest
    · intro hread
      cases hread with
      | cons hfirst => exact absurd hruns (not_runsOn_of_readsBack hfirst)
      | manyInterfaces hrest => exact ⟨_, hrest, rfl⟩
  · refine ⟨fun h => absurd h (not_readsTo_directedInterfaces hname hfields hinterfaces hdirs hempty hds rs), ?_⟩
    intro hread
    cases hread with
    | cons hfirst => exact absurd hruns (not_runsOn_of_readsBack hfirst)
    | manyInterfaces => exact absurd rfl hempty

/-- A definition that runs on is read as the last rules of `DocumentReadsBack` say. -/
private theorem readsTo_runsOn {d : Tree} (hd : IsShown d) (hruns : d.RunsOn) :
    ReadsTo (documentText (d :: ds)) rs ↔ DocumentReadsBack (d :: ds) rs := by
  obtain ⟨h | h, -⟩ := hd
  · cases h with
    | fragment => exact hruns.elim
    | operation =>
      obtain ⟨hnone, rfl, rfl, rfl⟩ := hruns
      exact readsTo_iff_bareOperation hds hnone
  · cases h with
    | objectType hname hfields hinterfaces hdirs =>
      exact readsTo_iff_interfaces hds hname hfields hinterfaces hdirs hruns
    | @unionType name members dirs description hname hmembers hdirs =>
      obtain rfl : members = [] := List.map_eq_nil_iff.1 hruns
      exact readsTo_iff_emptyUnion hds hname hdirs
    | _ => exact hruns.elim

end RunningOn

/-- What the text of definitions is read back as is what the rules say. -/
theorem readsTo_documentText_iff {ds rs : List Tree} (h : ∀ d ∈ ds, IsShown d) :
    ReadsTo (documentText ds) rs ↔ DocumentReadsBack ds rs := by
  -- on the definitions; one that runs on takes the place of the step
  induction ds generalizing rs with
  | nil =>
    refine readsTo_nil.trans ⟨?_, ?_⟩
    · rintro rfl
      exact .nil
    · intro hread
      cases hread
      rfl
  | cons d ds ih =>
    have hd := h d (by simp)
    have hds : ∀ t ∈ ds, IsShown t := fun t ht => h t (List.mem_cons_of_mem _ ht)
    by_cases hruns : d.RunsOn
    · exact readsTo_runsOn hds hd hruns
    · rw [readsTo_cons hd hds hruns]
      constructor
      · rintro ⟨r, rest, hr, hrest, rfl⟩
        exact .cons hr ((ih hds).1 hrest)
      · intro hread
        cases hread with
        | cons hr hrest => exact ⟨_, _, hr, (ih hds).2 hrest, rfl⟩
        | bareOperation hname => exact absurd ⟨hname, rfl, rfl, rfl⟩ hruns
        | emptyUnion => exact absurd rfl hruns
        | manyInterfaces => exact absurd (.inl (by simp)) hruns

end GraphDoc
