import GraphDoc.Proofs.Syntax.Written

/-!
# Printed parts of definitions are read back

Defaults, variables, input values, field definitions, enum values and lists of names, as they stand inside
printed definitions.
-/

namespace GraphDoc

open GraphDoc.Parser GraphDoc.Tree
open Syntax (Converted EnumValueDefinition FieldDefinition InputValue TypeRef Value VariableDefinition)
open Tape (ofChars)

/-! ## Defaults -/

theorem defaultText_given {t : Tree} (h : t ≠ .none) :
    (defaultText t).toList = ' ' :: '=' :: ' ' :: t.chars "" := by
  have htext : defaultText t = Layout.default (t.printed "") := by
    cases t
    case none => exact absurd rfl h
    all_goals rfl
  rw [htext, Layout.default]
  simp [chars]

theorem opens_default (t : Tree) : Opens '=' (defaultText t).toList := by
  by_cases h : t = .none
  · subst h
    exact .inl rfl
  · rw [defaultText_given h]
    exact .inr ⟨[' '], _, isBlank_space, rfl⟩

/-- The text of a default is read back. -/
theorem reads_default {t : Tree} (h : IsDefault t) :
    Reads Syntax.defaultValue Syntax.defaultTree [.equals] (defaultText t).toList t.reading := by
  by_cases hnone : t = .none
  · subst hnone
    refine .pass (fun k hk => hk.2) (.pure ?_)
    rw [reading_eq]
    rfl
  · have hvalue := (written_literal (h.resolve_left hnone)).reads
    rw [literal_eq_reading hnone] at hvalue
    rw [defaultText_given hnone]
    exact .space (.skip (by decide) (.space (.map (hvalue.mono (by simp)))))

/-! ## Descriptions -/

/-- No description stands in front of a token that is not a string. -/
theorem Reads.noDescription {β γ : Type} {f : Option Syntax.StringLiteral → Parser β} {conv : β → Converted γ}
    {bad : List Punct} {cs : List Char} {r : γ}
    (hstart : Starts (fun t => (∃ m, t = .punct m) ∨ ∃ s, t = .name s) bad cs)
    (h : Reads (f Option.none) conv bad cs r) : Reads (Syntax.description >>= f) conv bad cs r := by
  intro k hk
  obtain ⟨t, hfront, ht⟩ := hstart k hk
  have hrun : Syntax.description (ofChars (cs ++ k)) = .ok (Option.none, ofChars (cs ++ k)) := by
    rw [Syntax.description, bind_run (peek_run hfront)]
    rcases ht with ⟨m, rfl⟩ | ⟨s, rfl⟩ <;> rfl
  rw [bind_run hrun]
  exact h k hk

/-! ## Variables and input values -/

/-- The type, default and directives of a variable or an input value. -/
private theorem reads_typed {γ : Type} {f : TypeRef → Option Value → List Syntax.Directive → Parser γ}
    {conv : γ → Converted Tree} {type default : Tree} {dirs : List Tree} {r : Tree}
    (htype : IsType Syntax.maxDepth type) (hdefault : IsDefault default)
    (hdirs : ∀ t ∈ dirs, IsDirective true Syntax.maxDepth t)
    (hf : ∀ ty de ds, ty.toTree = .ok type.reading → Syntax.defaultTree de = .ok default.reading →
      Syntax.directiveTrees ds = .ok (.tuple (dirs.map reading)) →
      Reads (f ty de ds) conv [.bang, .equals, .at, .parenL] [] r) :
    Reads (do
      let ty ← Syntax.typeRef Syntax.maxDepth
      let de ← Syntax.defaultValue
      let ds ← Syntax.constDirectives
      f ty de ds) conv [.bang, .equals, .at, .parenL]
      (type.chars "" ++ ((defaultText default).toList ++ (directivesText dirs ++ []))) r := by
  refine (reads_type htype).bind (fun k hk => ?_) fun ty hty => ?_
  · rw [List.append_assoc, List.append_nil]
    exact (opens_default default).clear (m := .equals) (by decide) (by simp)
      ((opens_directives hdirs).clear (m := .at) (by decide) (by simp) (hk.mono (by simp)))
  refine (reads_default hdefault).bind (fun k hk => ?_) fun de hde => ?_
  · rw [List.append_nil]
    exact (opens_directives hdirs).clear (m := .at) (by decide) (by simp) (hk.mono (by simp))
  refine (reads_directives hdirs).bind (fun k hk => ?_) fun ds hds => hf ty de ds hty hde hds
  exact hk.mono (by simp)

/-- The text of a variable is read back. -/
theorem written_variableDefinition {t : Tree} (h : IsVariable t) :
    Written Syntax.variableDefinition VariableDefinition.toTree (· = .punct .dollar)
      [.bang, .equals, .at, .parenL] "" t t.reading := by
  obtain ⟨hname, htype, hdefault⟩ := h
  rename_i name type default
  have htext : (Tree.variableDefinition name type default).chars "" = '$' :: (name.toList ++
      ':' :: ' ' :: (type.chars "" ++ ((defaultText default).toList ++ (directivesText [] ++ [])))) := by
    have hnone : directivesText [] = [] := rfl
    rw [(printsAs_variableDefinition (stable_type htype) hdefault "" name).chars_eq, hnone]
    simp [chars]
  have hread : (Tree.variableDefinition name type default).reading =
      .variableDefinition name type.reading default.reading := reading_eq _
  have hstart := starts_punct (o := '$') (m := .dollar) (by decide) [.bang, .equals, .at, .parenL]
    (name.toList ++ ':' :: ' ' :: (type.chars "" ++ ((defaultText default).toList ++ (directivesText [] ++ []))))
  rw [← htext] at hstart
  refine ⟨hstart, .noDescription (hstart.mono fun _ ht => .inl ⟨_, ht⟩) ?_⟩
  rw [htext, hread, Syntax.variableName, bind_assoc]
  refine .expect (by decide) (.name hname (fun k _ => boundary_colon _ k) (.expect (by decide) (.space ?_)))
  refine reads_typed htype hdefault (by simp) fun ty de ds hty hde hds => .pure ?_
  have hempty : ds = [] := by
    cases ds with
    | nil => rfl
    | cons d ds =>
      obtain ⟨ts, hts, heq⟩ := map_eq_ok.1 hds
      cases heq
      exact absurd (mapM_eq_ok.1 hts) (by simp)
  subst hempty
  simp only [VariableDefinition.toTree, hty, hde]
  rfl

/-- The text of an input value is read back. -/
theorem written_inputValue {t : Tree} (h : IsInputValue t) :
    Written Syntax.inputValue InputValue.toTree (fun tok => ∃ s, tok = .name s)
      [.bang, .equals, .at, .parenL] "" t t.reading := by
  obtain ⟨hname, htype, hdefault, hdirs⟩ := h
  rename_i name type default dirs description
  have htext : (Tree.inputValue name type default (.tuple dirs) description).chars "" = name.toList ++
      ':' :: ' ' :: (type.chars "" ++ ((defaultText default).toList ++ (directivesText dirs ++ []))) := by
    rw [(printsAs_inputValue (stable_type htype) hdefault (fun t ht => stable_directive (hdirs t ht)) ""
      name description).chars_eq, directivesText]
    simp [chars]
  have hread : (Tree.inputValue name type default (.tuple dirs) description).reading =
      .inputValue name type.reading default.reading (.tuple (dirs.map reading)) Option.none := reading_eq _
  have hstart : Starts (· = .name name) [.bang, .equals, .at, .parenL]
      ((Tree.inputValue name type default (.tuple dirs) description).chars "") := by
    rw [htext]
    exact starts_name hname fun k _ => boundary_colon _ k
  refine ⟨hstart.mono fun _ ht => ⟨_, ht⟩, .noDescription (hstart.mono fun _ ht => .inr ⟨_, ht⟩) ?_⟩
  rw [htext, hread]
  refine .name hname (fun k _ => boundary_colon _ k) (.expect (by decide) (.space ?_))
  refine reads_typed htype hdefault hdirs fun ty de ds hty hde hds => .pure ?_
  simp only [InputValue.toTree, hty, hde, hds]
  rfl

theorem reads_argumentDefinitions {args : List Tree} (h : ∀ a ∈ args, IsInputValue a) :
    Reads Syntax.argumentDefinitions (·.mapM InputValue.toTree) [.parenL] (parensText args) (args.map reading) := by
  refine reads_parens ⟨_, Syntax.ensures_inputValue⟩ (fun t ht => written_inputValue (h t ht)) ?_ (by simp)
  rintro _ ⟨s, rfl⟩
  simp

theorem reads_variables {vars : List Tree} (h : ∀ v ∈ vars, IsVariable v) :
    Reads (optionalMany .parenL Syntax.variableDefinition .parenR) (·.mapM VariableDefinition.toTree) [.parenL]
      (parensText vars) (vars.map reading) := by
  refine reads_parens ⟨_, Syntax.ensures_variableDefinition⟩ (fun t ht => written_variableDefinition (h t ht))
    ?_ (by simp)
  rintro _ rfl
  simp

/-! ## Fields and enum values -/

/-- The text of a field definition is read back. -/
theorem written_fieldDefinition {t : Tree} (h : IsFieldDefinition t) :
    Written Syntax.fieldDefinition FieldDefinition.toTree (fun tok => ∃ s, tok = .name s)
      [.bang, .at, .parenL] "" t t.reading := by
  obtain ⟨hname, htype, hargs, hdirs⟩ := h
  rename_i name type args dirs description
  have htext : (Tree.fieldDefinition name type (.tuple args) (.tuple dirs) description).chars "" =
      name.toList ++ (parensText args ++ ':' :: ' ' :: (type.chars "" ++ (directivesText dirs ++ []))) := by
    rw [(printsAs_fieldDefinition (stable_type htype) (fun a ha => stable_inputValue (hargs a ha))
      (fun t ht => stable_directive (hdirs t ht)) "" name description).chars_eq, parensText, directivesText]
    simp [chars]
  have hread : (Tree.fieldDefinition name type (.tuple args) (.tuple dirs) description).reading =
      .fieldDefinition name type.reading (.tuple (args.map reading)) (.tuple (dirs.map reading)) Option.none :=
    reading_eq _
  have hcolon : ∀ cs, Clear [.parenL] (':' :: cs) := fun cs => clear_punct (m := .colon) (by decide) (by simp) cs
  have hbody : ∀ k cs, Boundary (parensText args ++ ':' :: cs ++ k) := by
    intro k cs
    rw [List.append_assoc]
    exact (opens_parens args).boundary (m := .parenL) (by decide) (hcolon _).1
  have hstart : Starts (· = .name name) [.bang, .at, .parenL]
      ((Tree.fieldDefinition name type (.tuple args) (.tuple dirs) description).chars "") := by
    rw [htext]
    exact starts_name hname fun k _ => hbody k _
  refine ⟨hstart.mono fun _ ht => ⟨_, ht⟩, .noDescription (hstart.mono fun _ ht => .inr ⟨_, ht⟩) ?_⟩
  rw [htext, hread]
  refine .name hname (fun k _ => hbody k _) ?_
  refine (reads_argumentDefinitions hargs).bind (fun k _ => hcolon _) fun as has => .expect (by decide) (.space ?_)
  refine (reads_type htype).bind (fun k hk => ?_) fun ty hty => ?_
  · rw [List.append_nil]
    exact (opens_directives hdirs).clear (m := .at) (by decide) (by simp) (hk.mono (by simp))
  refine (reads_directives hdirs).bind (fun k hk => hk.mono (by simp)) fun ds hds => .pure ?_
  simp only [FieldDefinition.toTree, hty, has, hds]
  rfl

theorem chars_enumValue (name : String) {dirs : List Tree} (hdirs : ∀ t ∈ dirs, IsDirective true Syntax.maxDepth t)
    (description : Option String) :
    (Tree.enumValueDefinition name (.tuple dirs) description).chars "" =
      ' ' :: ' ' :: (name.toList ++ (directivesText dirs ++ ['\n'])) := by
  rw [(printsAs_enumValueDefinition (fun t ht => stable_directive (hdirs t ht)) "" name description).chars_eq,
    directivesText]
  simp [Layout.step]

/-- The line of an enum value is read back. -/
theorem written_enumLine {name : String} {dirs : List Tree} (hname : isName name = true)
    (hfree : name ∉ ["true", "false", "null"]) (hdirs : ∀ t ∈ dirs, IsDirective true Syntax.maxDepth t)
    (description : Option String) :
    Starts (fun tok => ∃ s, tok = .name s) [.at, .parenL] (name.toList ++ directivesText dirs) ∧
      Reads Syntax.enumValueDefinition EnumValueDefinition.toTree [.at, .parenL]
        (name.toList ++ directivesText dirs) (Tree.enumValueDefinition name (.tuple dirs) description).reading := by
  have hread : (Tree.enumValueDefinition name (.tuple dirs) description).reading =
      .enumValueDefinition name (.tuple (dirs.map reading)) Option.none := reading_eq _
  have hbody : ∀ k, Clear [.at, .parenL] k → Boundary (directivesText dirs ++ k) :=
    fun k hk => (opens_directives hdirs).boundary (m := .at) (by decide) hk.1
  have hstart : Starts (· = .name name) [.at, .parenL] (name.toList ++ directivesText dirs) :=
    starts_name hname hbody
  have hvalue : ((Token.name name).value?.any (· ∈ ["true", "false", "null"])) = false := by
    simpa [Token.value?] using hfree
  refine ⟨hstart.mono fun _ ht => ⟨_, ht⟩, .noDescription (hstart.mono fun _ ht => .inr ⟨_, ht⟩) ?_⟩
  rw [Syntax.enumValueName, bind_assoc, hread]
  refine .peek hstart ?_
  rintro _ rfl
  rw [if_neg (ne_true_of_eq_false hvalue)]
  refine .name hname hbody ?_
  rw [← List.append_nil (directivesText dirs)]
  refine (reads_directives hdirs).bind (fun k hk => hk) fun ds hds => .pure ?_
  rw [EnumValueDefinition.toTree, hds]
  rfl

/-- The text of an enum value is read back. -/
theorem written_enumValue {t : Tree} (h : IsEnumValue t) :
    Written Syntax.enumValueDefinition EnumValueDefinition.toTree (fun tok => ∃ s, tok = .name s)
      [.at, .parenL] "" t t.reading := by
  obtain ⟨hname, hfree, hdirs⟩ := h
  rename_i name dirs description
  obtain ⟨hstart, hreads⟩ := written_enumLine hname hfree hdirs description
  have htext : (Tree.enumValueDefinition name (.tuple dirs) description).chars "" =
      ' ' :: ' ' :: (name.toList ++ directivesText dirs ++ ['\n']) := by
    rw [chars_enumValue name hdirs, List.append_assoc]
  constructor
  · intro k hk
    rw [htext, List.cons_append, List.cons_append, Tape.ofChars_space, Tape.ofChars_space, List.append_assoc]
    exact hstart ('\n' :: k) (clear_ignored (by decide) hk.2)
  · rw [htext]
    exact .space (.space (hreads.ignoredBehind (by decide)))

/-! ## Blocks -/

/-- The block of a type definition, which is not empty, is read line by line. -/
theorem reads_fields {α : Type} {item : Parser α} {conv : α → Converted Tree} {bad : List Punct}
    {ts : List Tree} (hone : ∃ P, Ensures 1 item P)
    (h : ∀ t ∈ ts, Written item conv (fun tok => ∃ s, tok = .name s) bad "" t t.reading) (hclose : .braceR ∉ bad)
    (hsome : ts ≠ []) :
    Reads (optionalMany .braceL item .braceR) (·.mapM conv) [.braceL]
      (Layout.fields (ts.map (·.printed ""))).toList (ts.map reading) := by
  have hlead : IsBlank ['\n', ' ', ' '] := by simp [IsBlank, Tape.isIgnored]
  have hglue : IsBlank [' ', ' '] := by simp [IsBlank, Tape.isIgnored]
  have hpost : IsBlank ['\n'] := by simp [IsBlank, Tape.isIgnored]
  -- a field starts with a name, a line break ends it and an indent leads to the next
  have hseries : IsSeries item conv (· ≠ .punct .braceR) (fun tok => ∃ s, tok = .name s) bad [' ', ' '] ['\n']
      (chars · "") reading ts := {
    one := hone
    blank_glue := hglue
    blank_post := hpost
    reads := fun t ht => (h t ht).reads
    starts := fun t ht => (h t ht).starts
    clear := by
      rintro _ ⟨s, rfl⟩
      simp
    goes := by
      rintro _ ⟨s, rfl⟩
      simp
    boundary := by simp [isBoundary, isNameChar] }
  have hopen : Punct.ofChar? '{' = some .braceL := by decide
  have hchar : Punct.ofChar? '}' = some .braceR := by decide
  have hreads := Reads.optionalMany hseries hlead isBlank_nil hopen hchar hclose
  rw [if_neg hsome] at hreads
  rw [Layout.toList_fields (by simpa using hsome), series_map]
  exact .space hreads

/-- The values of an enum type, of which there are some, are read one by one. -/
theorem reads_enumValues {ts : List Tree} (h : ∀ t ∈ ts, IsEnumValue t) (hsome : ts ≠ []) :
    Reads Syntax.enumValues (·.mapM EnumValueDefinition.toTree) [.braceL]
      (" \x7b\n" ++ String.join (ts.map (·.printed "")) ++ "\x7d").toList (ts.map reading) := by
  have hpost : IsBlank ['\n'] := by simp [IsBlank, Tape.isIgnored]
  -- the lines of values bring their own indents and line breaks
  have hseries : IsSeries Syntax.enumValueDefinition EnumValueDefinition.toTree (· ≠ .punct .braceR)
      (fun tok => ∃ s, tok = .name s) [.at, .parenL] [] [] (chars · "") reading ts := {
    one := ⟨_, Syntax.ensures_enumValueDefinition⟩
    blank_glue := isBlank_nil
    blank_post := isBlank_nil
    reads := fun t ht => (written_enumValue (h t ht)).reads
    starts := fun t ht => (written_enumValue (h t ht)).starts
    clear := by
      rintro _ ⟨s, rfl⟩
      simp
    goes := by
      rintro _ ⟨s, rfl⟩
      simp
    boundary := by
      intro t ht k
      obtain ⟨hname, hfree, hdirs⟩ := h t ht
      rw [chars_enumValue _ hdirs]
      simp [isBoundary, isNameChar] }
  have hopen : Punct.ofChar? '{' = some .braceL := by decide
  have hchar : Punct.ofChar? '}' = some .braceR := by decide
  have hreads := Reads.optionalMany hseries hpost isBlank_nil hopen hchar (by simp)
  have htext : (" \x7b\n" ++ String.join (ts.map (·.printed "")) ++ "\x7d").toList =
      ' ' :: bracketed '{' '}' [] (series (chars · "") ['\n'] [] [] ts) := by
    obtain ⟨t, ts, rfl⟩ := List.exists_cons_of_ne_nil hsome
    rw [String.toList_append, String.toList_append, toList_join_eq_series, series_map]
    simp [bracketed, series, chars]
  rw [if_neg hsome] at hreads
  rw [htext]
  exact .space hreads

/-! ## Lists of names -/

theorem toList_bars (first : String) (rest : List String) :
    (" | ".intercalate (first :: rest)).toList =
      first.toList ++ series (fun n : String => '|' :: ' ' :: n.toList) [' '] [' '] [] rest := by
  induction rest generalizing first with
  | nil => simp [series]
  | cons second rest ih =>
    rw [String.intercalate_cons_cons, String.toList_append, String.toList_append, ih, series]
    simp

/-- Names with bars between them are read one by one. -/
theorem reads_separated {item : Parser String} (hone : ∃ P, Ensures 1 item P) {names : List String}
    (hnames : ∀ n ∈ names, isName n = true) (h : ∀ n ∈ names, Reads item pure [] n.toList n)
    (hsome : names ≠ []) :
    Reads (separated .pipe item) pure [.pipe] (" | ".intercalate names).toList names := by
  obtain ⟨first, rest, rfl⟩ := List.exists_cons_of_ne_nil hsome
  obtain ⟨P, hone⟩ := hone
  -- each name but the first has its bar in front
  have hseries : IsSeries (do advance; item) pure (· = .punct .pipe) (· = .punct .pipe) [] [' '] []
      (fun n : String => '|' :: ' ' :: n.toList) id rest := {
    one := ⟨P, ensures_advance hone⟩
    blank_glue := isBlank_space
    blank_post := isBlank_nil
    reads := by
      intro n hn k hk
      obtain ⟨x, hrun, hx⟩ := h n (by simp [hn]) k hk
      refine ⟨x, ?_, hx⟩
      rw [List.cons_append, Tape.ofChars_punct (m := .pipe) (by decide), bind_run (advance_run ..),
        List.cons_append, Tape.ofChars_space]
      exact hrun
    starts := fun n hn => starts_punct (by decide) _ _
    clear := by simp
    goes := by simp
    boundary := by simp [isBoundary, isNameChar] }
  rw [toList_bars]
  intro k hk
  obtain ⟨tok, hfront, htok⟩ := hk.2
  have hrest : Clear [] (series (fun n : String => '|' :: ' ' :: n.toList) [' '] [' '] [] rest ++ k) :=
    hseries.clear_rest (hk.mono (by simp))
  obtain ⟨x, hrun, hx⟩ := h first (by simp) _ hrest
  obtain ⟨xs, hruns, hxs⟩ := hseries.run isBlank_space (hk.mono (by simp))
    ⟨tok, hfront, by simpa using htok .pipe (by simp)⟩
  obtain ⟨tok', hfront', htok'⟩ := front_name (hnames first (by simp)) [.pipe] hrest.1
  refine ⟨x :: xs, ?_, ?_⟩
  · rw [List.append_assoc, separated, bind_run (skip_pass hfront' (htok' .pipe (by simp))), bind_run hrun,
      bind_run hruns]
    rfl
  · cases hx
    rw [eq_of_mapM_pure hxs]
    rfl

theorem reads_name {s : String} (h : isName s = true) : Reads name pure [] s.toList s := by
  rw [← bind_pure name, ← List.append_nil s.toList]
  exact .name h (fun k hk => hk.1) (.pure rfl)

theorem isName_of_mem_locationNames : ∀ s ∈ Syntax.locationNames, isName s = true := by decide

theorem reads_location {s : String} (h : s ∈ Syntax.locationNames) : Reads Syntax.location pure [] s.toList s := by
  intro k hk
  obtain ⟨t, hfront, -⟩ := hk.2
  have hname := isName_of_mem_locationNames s h
  have hhead : head (ofChars (s.toList ++ k)) = .ok ((.name s, s.toList ++ k), ofChars (s.toList ++ k)) := by
    rw [Tape.ofChars_name hname hk.1]
    rfl
  refine ⟨s, ?_, rfl⟩
  rw [Syntax.location, bind_run hhead, Tape.ofChars_name hname hk.1]
  show (name >>= _) _ = _
  rw [bind_run (name_run ..), bind_run (peek_run hfront), if_pos h]
  rfl

/-- The members of a union, of which there are some, are read one by one. -/
theorem reads_members {names : List String} (h : ∀ n ∈ names, isName n = true) (hsome : names ≠ []) :
    Reads Syntax.members pure [.pipe] (" = " ++ " | ".intercalate names).toList names := by
  have hreads := reads_separated ⟨_, ensures_name⟩ h (fun n hn => reads_name (h n hn)) hsome
  have htext : (" = " ++ " | ".intercalate names).toList = ' ' :: '=' :: ' ' :: (" | ".intercalate names).toList := by
    simp
  rw [htext]
  exact .space (.skip (by decide) (.space hreads))

end GraphDoc
