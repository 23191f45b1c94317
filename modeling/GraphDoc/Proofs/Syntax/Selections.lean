import GraphDoc.Proofs.Syntax.ReadBack

/-!
# Printed selections are read back

Printed selections are read back as `ReadBack` says; where it gives nothing, they are not read at all.
-/

namespace GraphDoc

open GraphDoc.Parser GraphDoc.Tree
open Syntax (Selection)
open Tape (ofChars)

/-! ## Rows of selections -/

section Rows

variable {loose : Bool} {d : Nat} {nested : Parser (List Selection)} {indent : String}

/-- The characters of a field: alias, name, arguments, directives and selections. -/
theorem chars_field {name : String} {aliasName : Option String} {fa fd fs : SeqForm} {args dirs sels : List Tree}
    (hargs : ∀ a ∈ args, IsArgument false d a) (hdirs : ∀ t ∈ dirs, IsDirective false d t)
    (hsels : ∀ s ∈ sels, IsSelection loose (d - 1) s) (indent : String) :
    (Tree.field name aliasName ⟨fa, args⟩ ⟨fd, dirs⟩ ⟨fs, sels⟩).chars indent =
      indent.toList ++ (fieldHead name aliasName args dirs ++ setText indent sels) := by
  have hprint := printsAs_field (fun a ha => stable_argument (hargs a ha))
    (fun t ht => stable_directive (hdirs t ht)) (fun s hs => stable_selection (hsels s hs) (indent ++ Layout.step))
    name aliasName fa fd fs
  rw [hprint.chars_eq, ← toList_selections_printed, fieldHead, partsText, parensText, directivesText]
  simp

/-- The characters of a spread: three dots, name and directives. -/
theorem chars_fragmentSpread {name : String} {fd : SeqForm} {dirs : List Tree}
    (hdirs : ∀ t ∈ dirs, IsDirective false d t) (indent : String) :
    (Tree.fragmentSpread name ⟨fd, dirs⟩).chars indent = indent.toList ++
      '.' :: '.' :: '.' :: (name.toList ++ directivesText dirs) := by
  rw [(printsAs_fragmentSpread (fun t ht => stable_directive (hdirs t ht)) indent name fd).chars_eq, directivesText]
  simp

/-- The characters of an inline fragment: three dots, condition, directives and selections. -/
theorem chars_inlineFragment {type : Tree} {fd fs : SeqForm} {dirs sels : List Tree} (htype : IsCondition type)
    (hdirs : ∀ t ∈ dirs, IsDirective false d t) (hsels : ∀ s ∈ sels, IsSelection loose (d - 1) s)
    (indent : String) :
    (Tree.inlineFragment type ⟨fd, dirs⟩ ⟨fs, sels⟩).chars indent = indent.toList ++
      '.' :: '.' :: '.' :: ((conditionText type).toList ++
        (directivesText dirs ++ setText indent sels)) := by
  have hprint := printsAs_inlineFragment htype (fun t ht => stable_directive (hdirs t ht))
    (fun s hs => stable_selection (hsels s hs) (indent ++ Layout.step)) fd fs
  rw [hprint.chars_eq, ← toList_selections_printed, directivesText]
  simp

/-- A field starts with a name. -/
theorem front_fieldHead {name : String} {aliasName : Option String} {args dirs : List Tree} {k : List Char}
    (hname : isName name = true) (halias : IsLabel aliasName) (hdirs : ∀ t ∈ dirs, IsDirective false d t)
    (hk : Boundary k) : ∃ w, (ofChars (fieldHead name aliasName args dirs ++ k)).front = some (.name w) := by
  have hbody : Boundary (partsText args dirs ++ k) := by
    rw [partsText, List.append_assoc]
    exact (opens_parens _).boundary (m := .parenL) (by decide)
      ((opens_directives hdirs).boundary (m := .at) (by decide) hk)
  rcases isLabel_cases halias with ⟨htext, -⟩ | ⟨label, hlabel, htext, -⟩
  · rw [fieldHead_unlabelled htext, Tape.ofChars_name hname hbody]
    exact ⟨name, rfl⟩
  · rw [fieldHead_labelled htext, Tape.ofChars_name hlabel (by simp [isBoundary, isNameChar])]
    exact ⟨label, rfl⟩

/-- A selection starts with a name or with three dots. -/
theorem front_selection {t : Tree} (h : IsSelection loose d t) (hindent : IsBlank indent.toList) {k : List Char}
    (hk : Boundary k) : Front [.colon, .parenL, .at, .braceL] (t.chars indent ++ k) := by
  cases h with
  | field hname halias hargs hdirs hdepth hsels =>
    rw [chars_field hargs hdirs hsels, List.append_assoc, front_blank hindent, List.append_assoc]
    obtain ⟨w, hw⟩ := front_fieldHead hname halias hdirs ((opens_setText indent _).boundary (m := .braceL)
      (by decide) hk)
    exact ⟨.name w, hw, by simp⟩
  | spread hname hon hdirs =>
    rw [chars_fragmentSpread hdirs, List.append_assoc, front_blank hindent]
    exact front_spread (by simp) _
  | inline htype hdirs hsome hdepth hsels =>
    rw [chars_inlineFragment htype hdirs hsels, List.append_assoc, front_blank hindent]
    exact front_spread (by simp) _

/-- What stands behind a selection does not go on with it. -/
theorem clear_rows {ss : List Tree} (h : ∀ s ∈ ss, IsSelection loose d s) (hindent : IsBlank indent.toList)
    {last : List Char} (hlast : IsBlank last) (k : List Char) :
    Clear [.colon, .parenL, .at, .braceL] ('\n' :: (rows indent ss ++ (last ++ '}' :: k))) := by
  refine clear_ignored (by decide) ?_
  cases ss with
  | nil => exact (clear_blank hlast (clear_punct (m := .braceR) (by decide) (by simp) k)).2
  | cons s ss =>
    rw [rows, series, List.nil_append, List.append_assoc]
    exact front_selection (h s (by simp)) hindent (by simp [isBoundary, isNameChar])

/-- The rows of a set come one after the other, each with its line break. -/
theorem rows_cons (indent : String) (s : Tree) (ss : List Tree) (tail : List Char) :
    rows indent (s :: ss) ++ tail = s.chars indent ++ '\n' :: (rows indent ss ++ tail) := by
  simp [rows, series]

/-- Without three dots a selection is a field. -/
theorem selection_run_field {tape : Tape} {t : Token} (hfront : tape.front = some t) (ht : t ≠ .punct .spread) :
    Syntax.selection d nested tape = Syntax.field d nested tape := by
  rw [Syntax.selection, bind_run (peek_run hfront), if_neg ht]

/-- A selection starts with three dots or a name. -/
theorem selection_fails {tape : Tape} {t : Token} (hfront : tape.front = some t) (ht : t ≠ .punct .spread)
    (hname : ∀ w, t ≠ .name w) : Fails (Syntax.selection d nested) tape := by
  rw [Fails, selection_run_field hfront ht]
  exact (name_fails hfront hname).bind _

theorem directives_stop {tape : Tape} {t : Token} (hfront : tape.front = some t) (ht : t ≠ .punct .at) :
    Syntax.directives false d tape = .ok ([], tape) :=
  itemsWhile_stop hfront (by simpa using ht)

theorem inlineBody_fails_at (hn : Nests d nested) {tape : Tape} {t : Token} (hfront : tape.front = some t)
    (hat : t ≠ .punct .at) (hbrace : t ≠ .punct .braceL) (type : Option String) :
    Fails (inlineBody d nested type) tape :=
  Fails.of_bind (directives_stop hfront hat) ((hn.fails hfront hbrace).bind _)

/-- What stands behind the type condition of an inline fragment, or behind a field's name that is taken for
one. -/
theorem settles_inlineParts (hn : Nests d nested) {args dirs sels : List Tree}
    (hdirs : ∀ t ∈ dirs, IsDirective false d t) (hindent : IsBlank indent.toList) (hdepth : sels = [] ∨ 0 < d)
    (hsels : ∀ s ∈ sels, IsSelection true (d - 1) s) {k : List Char}
    (hk : Clear [.colon, .parenL, .at, .braceL] k) (type : Option String) :
    Settles (inlineBody d nested type) Selection.toTree
      (ofChars (partsText args dirs ++ (setText indent sels ++ k))) (ofChars k) fun r =>
        args = [] ∧ sels ≠ [] ∧ ∃ rs, ReadBack sels rs ∧
          r = .inlineFragment (Syntax.conditionTree type) (.tuple (dirs.map reading)) (.tuple rs) := by
  by_cases hargs : args = []
  · subst hargs
    have hparts : partsText [] dirs = directivesText dirs := rfl
    rw [hparts]
    by_cases hempty : sels = []
    · subst hempty
      exact .of_fails (inlineBody_fails hn hdirs (hk.mono (by simp)) type) fun r hr => hr.2.1 rfl
    · rw [setText, if_neg hempty]
      have hbody := settles_inlineBody hn hdirs hindent (hdepth.resolve_left hempty) hsels type k
      exact hbody.congr fun r => ⟨fun hr => ⟨rfl, hempty, hr⟩, fun hr => hr.2.2⟩
  · have hfront := front_arguments hargs dirs (setText indent sels ++ k)
    exact .of_fails (inlineBody_fails_at hn hfront (by simp) (by simp) type) fun r hr => hargs hr.1

/-- The row of selections in front of a closing brace. -/
def selectionRow (d : Nat) (nested : Parser (List Selection)) : Parser (List Selection) :=
  itemsWhile (· ≠ .punct .braceR) (Syntax.selection d nested)

theorem selectionRow_step (hn : Nests d nested) {tape : Tape} {t : Token} (hlex : tape.Lexical)
    (hfront : tape.front = some t) (ht : t ≠ .punct .braceR) :
    selectionRow d nested tape = (do
      let first ← Syntax.selection d nested
      let rest ← selectionRow d nested
      return first :: rest : Parser (List Selection)) tape :=
  itemsWhile_step (Syntax.ensures_selection hn.ensures) hlex hfront (by simpa using ht)

theorem selectionRow_fails (hn : Nests d nested) {tape : Tape} {t : Token} (hlex : tape.Lexical)
    (hfront : tape.front = some t) (ht : t ≠ .punct .braceR) (h : Fails (Syntax.selection d nested) tape) :
    Fails (selectionRow d nested) tape := by
  rw [Fails, selectionRow_step hn hlex hfront ht]
  exact h.bind _

/-! ## Three dots alone -/

section Bare

/-- Three dots and the characters behind them. -/
def dotted (place cs : List Char) : Tape := .next (.punct .spread) place (ofChars cs)

theorem lexical_dotted (place cs : List Char) : (dotted place cs).Lexical :=
  ⟨trivial, Tape.lexical_ofChars cs⟩

theorem front_colon (cs : List Char) : (ofChars (':' :: cs)).front = some (.punct .colon) := by
  rw [Tape.ofChars_punct (m := .colon) (by decide)]
  rfl

/-- Three dots with no name behind them. -/
theorem bare_fails (hn : Nests d nested) {cs : List Char} {t : Token} (hfront : (ofChars cs).front = some t)
    (hname : ∀ w, t ≠ .name w) (hat : t ≠ .punct .at) (hbrace : t ≠ .punct .braceL) (place : List Char) :
    Fails (selectionRow d nested) (dotted place cs) := by
  refine selectionRow_fails hn (lexical_dotted place cs) rfl (by simp) ?_
  rw [Fails, dotted, selection_run_spread, spread_run_bare hfront hname]
  exact inlineBody_fails_at hn hfront hat hbrace Option.none

/-- Three dots that take a name for their own leave nothing that could stand behind them. -/
theorem bare_name_fails (hn : Nests d nested) {w : String} (hname : isName w = true) (hw : w ≠ "on")
    {cs : List Char} (hcs : Boundary cs) {m : Punct} (hfront : (ofChars cs).front = some (.punct m))
    (hm : m ∉ [.at, .spread, .braceR]) (place : List Char) :
    Fails (selectionRow d nested) (dotted place (w.toList ++ cs)) := by
  simp only [List.mem_cons, List.not_mem_nil, or_false, not_or] at hm
  have hrest : Fails (selectionRow d nested) (ofChars cs) :=
    selectionRow_fails hn (Tape.lexical_ofChars cs) hfront (by simpa using hm.2.2)
      (selection_fails hfront (by simpa using hm.2.1) (by simp))
  have hitem : Syntax.selection d nested (dotted place (w.toList ++ cs)) = .ok (.spread w [], ofChars cs) := by
    rw [dotted, Tape.ofChars_name hname hcs, selection_run_spread, spread_run_name hw,
      bind_run (directives_stop hfront (by simpa using hm.1))]
    rfl
  rw [Fails, selectionRow_step hn (lexical_dotted ..) rfl (by simp)]
  exact Fails.of_bind hitem (hrest.bind _)

/-- Three dots and the word `on` with no name behind them. -/
theorem bare_on_fails (hn : Nests d nested) {cs : List Char} (hcs : Boundary cs) {t : Token}
    (hfront : (ofChars cs).front = some t) (hname : ∀ w, t ≠ .name w) (place : List Char) :
    Fails (selectionRow d nested) (dotted place ("on".toList ++ cs)) := by
  refine selectionRow_fails hn (lexical_dotted ..) rfl (by simp) ?_
  rw [Fails, dotted, Tape.ofChars_name (by decide) hcs, selection_run_spread, spread_run_on]
  exact (name_fails hfront hname).bind _

/-- Three dots and the word `on` in front of a name. -/
theorem bare_on_run {name : String} (hname : isName name = true) {cs : List Char} (hcs : Boundary cs)
    {blank : List Char} (hblank : IsBlank blank) (place : List Char) :
    Syntax.selection d nested (dotted place ("on".toList ++ '\n' :: (blank ++ (name.toList ++ cs)))) =
      inlineBody d nested (some name) (ofChars cs) := by
  rw [dotted, Tape.ofChars_name (by decide) (by simp [isBoundary, isNameChar]), Tape.ofChars_newline,
    ofChars_blank hblank, selection_run_spread, spread_run_on, Tape.ofChars_name hname hcs, bind_run (name_run ..)]
  rfl

/-- Three dots in front of a label and a colon. -/
theorem bare_labelled_fails (hn : Nests d nested) {label : String} (hlabel : isName label = true)
    (place cs : List Char) : Fails (selectionRow d nested) (dotted place (label.toList ++ ':' :: cs)) := by
  have hboundary : Boundary (':' :: cs) := by simp [isBoundary, isNameChar]
  by_cases hon : label = "on"
  · subst hon
    exact bare_on_fails hn hboundary (front_colon cs) (by simp) place
  · exact bare_name_fails hn hlabel hon hboundary (front_colon cs) (by simp) place

variable {name : String} {args dirs sels : List Tree} {cs : List Char} {after : Tape} {Rs : List Tree → Prop}

private theorem clear_set (hcs : Clear [.colon, .parenL, .at, .braceL] cs) (indent : String) (sels : List Tree) :
    Clear [.at, .parenL] (setText indent sels ++ cs) :=
  (opens_setText indent sels).clear (m := .braceL) (by decide) (by simp) (hcs.mono (by simp))

private theorem boundary_parts (hdirs : ∀ t ∈ dirs, IsDirective false d t)
    (hcs : Clear [.colon, .parenL, .at, .braceL] cs) (indent : String) (args sels : List Tree) :
    Boundary (partsText args dirs ++ (setText indent sels ++ cs)) :=
  (clear_partsText hdirs args (by simp) ((clear_set hcs indent sels).mono (List.nil_subset _))).1

/-- Three dots in front of a field without a label, which is not called `on`. -/
theorem settles_bare_spread (hn : Nests d nested) (hname : isName name = true) (hon : name ≠ "on")
    (hdirs : ∀ t ∈ dirs, IsDirective false d t) (hcs : Clear [.colon, .parenL, .at, .braceL] cs)
    (hrest : Settles (selectionRow d nested) (·.mapM Selection.toTree) (ofChars cs) after Rs) (place : List Char) :
    Settles (selectionRow d nested) (·.mapM Selection.toTree)
      (dotted place (name.toList ++ (partsText args dirs ++ (setText indent sels ++ cs)))) after fun rs =>
        args = [] ∧ sels = [] ∧
          ∃ rest, Rs rest ∧ rs = .fragmentSpread name (.tuple (dirs.map reading)) :: rest := by
  have hset := clear_set hcs indent sels
  have hone := Syntax.ensures_selection hn.ensures
  have hlex := lexical_dotted place (name.toList ++ (partsText args dirs ++ (setText indent sels ++ cs)))
  by_cases hargs : args = []
  · subst hargs
    by_cases hsels : sels = []
    · subst hsels
      refine (Settles.step hone hlex rfl (by simp) (settles_spread hname hon hdirs hset place) hrest).congr ?_
      intro rs
      constructor
      · rintro ⟨_, rest, rfl, hrest, rfl⟩
        exact ⟨rfl, rfl, rest, hrest, rfl⟩
      · rintro ⟨-, -, rest, hrest, rfl⟩
        exact ⟨_, rest, rfl, hrest, rfl⟩
    · -- a brace is left behind
      have hfront := front_setText hsels indent cs
      have hrow : Fails (selectionRow d nested) (ofChars (setText indent sels ++ cs)) :=
        selectionRow_fails hn (Tape.lexical_ofChars _) hfront (by simp) (selection_fails hfront (by simp) (by simp))
      have hnone : ∀ rs : List Tree, ¬ False := fun _ h => h
      refine (Settles.step hone hlex rfl (by simp) (settles_spread hname hon hdirs hset place)
        (.of_fails hrow hnone)).congr fun rs => ?_
      simp [hsels]
  · -- a parenthesis is left behind
    have hfront := front_arguments hargs dirs (setText indent sels ++ cs)
    have hfails := bare_name_fails hn hname hon (boundary_parts hdirs hcs indent args sels) hfront (by simp) place
    exact .of_fails hfails fun rs hrs => hargs hrs.1

/-- Three dots in front of a field called `on` that is not a mere name. -/
theorem bare_on_parts_fails (hn : Nests d nested) (hdirs : ∀ t ∈ dirs, IsDirective false d t)
    (hsome : ¬(args = [] ∧ dirs = [] ∧ sels = [])) (hcs : Clear [.colon, .parenL, .at, .braceL] cs)
    (place : List Char) :
    Fails (selectionRow d nested)
      (dotted place ("on".toList ++ (partsText args dirs ++ (setText indent sels ++ cs)))) := by
  obtain ⟨m, hfront⟩ := front_parts hdirs hsome indent cs
  exact bare_on_fails hn (boundary_parts hdirs hcs indent args sels) hfront (by simp) place

/-- Three dots and the word `on` in front of a field without a label. -/
theorem settles_bare_condition (hn : Nests d nested) (hname : isName name = true)
    (hdirs : ∀ t ∈ dirs, IsDirective false d t) (hindent : IsBlank indent.toList)
    (hdepth : sels = [] ∨ 0 < d) (hsels : ∀ s ∈ sels, IsSelection true (d - 1) s)
    (hcs : Clear [.colon, .parenL, .at, .braceL] cs)
    (hrest : Settles (selectionRow d nested) (·.mapM Selection.toTree) (ofChars cs) after Rs) (place : List Char) :
    Settles (selectionRow d nested) (·.mapM Selection.toTree)
      (dotted place ("on".toList ++ '\n' :: (indent.toList ++
        (name.toList ++ (partsText args dirs ++ (setText indent sels ++ cs)))))) after fun rs =>
        args = [] ∧ sels ≠ [] ∧ ∃ inner rest, ReadBack sels inner ∧ Rs rest ∧
          rs = .inlineFragment (.typeName name) (.tuple (dirs.map reading)) (.tuple inner) :: rest := by
  -- the dots, `on` and the name are the head of an inline fragment
  have hbody := boundary_parts hdirs hcs indent args sels
  refine (Settles.step (Syntax.ensures_selection hn.ensures) (lexical_dotted ..) rfl (by simp)
    ((settles_inlineParts hn hdirs hindent hdepth hsels hcs (some name)).of_run
      (bare_on_run hname hbody hindent place)) hrest).congr fun rs => ?_
  constructor
  · rintro ⟨_, rest, ⟨hargs, hsome, inner, hinner, rfl⟩, hrest, rfl⟩
    exact ⟨hargs, hsome, inner, rest, hinner, hrest, rfl⟩
  · rintro ⟨hargs, hsome, inner, rest, hinner, hrest, rfl⟩
    exact ⟨_, rest, ⟨hargs, hsome, inner, hinner, rfl⟩, hrest, rfl⟩

end Bare

/-! ## All rows -/

section All

variable {last k : List Char} {rest : List Tree} {fd fs : SeqForm}

/-- Whether the given selections, printed a line each in front of a closing brace, are settled. -/
def RowsSettle (d : Nat) (nested : Parser (List Selection)) (indent : String) (last k : List Char)
    (ss : List Tree) : Prop :=
  Settles (selectionRow d nested) (·.mapM Selection.toTree) (ofChars (rows indent ss ++ (last ++ '}' :: k)))
    (ofChars ('}' :: k)) (ReadBack ss)

variable {name : String} {aliasName : Option String} {args dirs sels : List Tree} {fa fd' fs' : SeqForm}

/-- Whether the first of the given selections is a field. -/
def StartsWithField (ss : List Tree) : Prop := ∃ n a b c s rest, ss = .field n a b c s :: rest

theorem not_readBack_bare {rs : List Tree} (hrest : ¬ StartsWithField rest) :
    ¬ ReadBack (.inlineFragment .none ⟨fd, []⟩ ⟨fs, []⟩ :: rest) rs := by
  intro h
  cases h with
  | inline hsome => exact hsome rfl
  | asSpread => exact hrest ⟨_, _, _, _, _, _, rfl⟩
  | asCondition => exact hrest ⟨_, _, _, _, _, _, rfl⟩

/-- Behind a row of selections that does not start with a field stands no name. -/
theorem front_of_not_startsWithField (hwf : ∀ s ∈ rest, IsSelection loose d s) (hindent : IsBlank indent.toList)
    (hlast : IsBlank last) (hrest : ¬ StartsWithField rest) (k : List Char) :
    ∃ m ∈ [Punct.spread, .braceR], (ofChars (rows indent rest ++ (last ++ '}' :: k))).front = some (.punct m) := by
  have hdots : ∀ cs, (ofChars (indent.toList ++ '.' :: '.' :: '.' :: cs)).front = some (.punct .spread) := by
    intro cs
    rw [ofChars_blank hindent, Tape.ofChars_spread]
    rfl
  cases rest with
  | nil =>
    refine ⟨.braceR, by simp, ?_⟩
    rw [rows, series, List.nil_append, ofChars_blank hlast, Tape.ofChars_punct (m := .braceR) (by decide)]
    rfl
  | cons s rest =>
    rw [rows_cons]
    cases hwf s (by simp) with
    | field => exact absurd ⟨_, _, _, _, _, _, rfl⟩ hrest
    | spread hname hon hdirs =>
      rw [chars_fragmentSpread hdirs, List.append_assoc]
      exact ⟨.spread, by simp, hdots _⟩
    | inline htype hdirs hsome hdepth hsels =>
      rw [chars_inlineFragment htype hdirs hsels, List.append_assoc]
      exact ⟨.spread, by simp, hdots _⟩

/-- Three dots and a mere field called `on` take the name of the field behind them. -/
theorem settles_bare_on (hn : Nests d nested) (hindent : IsBlank indent.toList) (hlast : IsBlank last)
    (hwf : ∀ s ∈ rest, IsSelection true d s)
    (ih : ∀ ss : List Tree, ss.length < rest.length → (∀ s ∈ ss, IsSelection true d s) →
      RowsSettle d nested indent last k ss)
    (halias : aliasName.filter (· ≠ "") = Option.none) (place : List Char) :
    Settles (selectionRow d nested) (·.mapM Selection.toTree)
      (dotted place ("on".toList ++ '\n' :: (rows indent rest ++ (last ++ '}' :: k)))) (ofChars ('}' :: k))
      (ReadBack (.inlineFragment .none ⟨fd, []⟩ ⟨fs, []⟩ ::
        .field "on" aliasName ⟨fa, []⟩ ⟨fd', []⟩ ⟨fs', []⟩ :: rest)) := by
  have hbound : ∀ cs, Boundary ('\n' :: cs) := by simp [isBoundary, isNameChar]
  -- `on` wants a type behind it: only the name of a field can be one
  by_cases hfield : StartsWithField rest
  · obtain ⟨n, a, ⟨fa'', as⟩, ⟨fd'', ds⟩, ⟨fs'', ss⟩, rest, rfl⟩ := hfield
    have htail : ∀ s ∈ rest, IsSelection true d s := fun s hs => hwf s (List.mem_cons_of_mem _ hs)
    cases hwf _ (List.mem_cons_self ..) with
    | field hname hlabel hargs hdirs hdepth hsels =>
      have hclear := clear_rows htail hindent hlast k
      rw [rows_cons, chars_field hargs hdirs hsels, List.append_assoc, List.append_assoc]
      rcases isLabel_cases hlabel with ⟨htext, hfilter⟩ | ⟨label, hname', htext, hfilter⟩
      · rw [fieldHead_unlabelled htext]
        have hrest : Settles (selectionRow d nested) (·.mapM Selection.toTree)
            (ofChars ('\n' :: (rows indent rest ++ (last ++ '}' :: k)))) (ofChars ('}' :: k)) (ReadBack rest) := by
          rw [Tape.ofChars_newline]
          exact ih rest (by simp) htail
        refine (settles_bare_condition hn hname hdirs hindent hdepth hsels hclear hrest place).congr fun rs => ?_
        constructor
        · rintro ⟨rfl, hsome, inner, rest, hinner, hrest, rfl⟩
          exact .asCondition halias hfilter hsome hinner hrest
        · intro h
          cases h with
          | inline hsome => exact absurd rfl hsome
          | asSpread hon => exact absurd rfl hon
          | asCondition _ _ hsome hinner hrest => exact ⟨rfl, hsome, _, _, hinner, hrest, rfl⟩
      · -- the label is taken, and a colon is left behind
        rw [fieldHead_labelled htext]
        refine .of_fails (selectionRow_fails hn (lexical_dotted ..) rfl (by simp) ?_) fun rs h => ?_
        · rw [Fails, bare_on_run hname' (by simp [isBoundary, isNameChar]) hindent]
          exact inlineBody_fails_at hn (front_colon _) (by simp) (by simp) (some label)
        · cases h with
          | inline hsome => exact hsome rfl
          | asSpread hon => exact hon rfl
          | asCondition _ hnone =>
            rw [hfilter] at hnone
            cases hnone
  · obtain ⟨m, hm, hfront⟩ := front_of_not_startsWithField hwf hindent hlast hfield k
    rw [← Tape.ofChars_newline] at hfront
    refine .of_fails (bare_on_fails hn (hbound _) hfront (by simp) place) fun rs h => ?_
    cases h with
    | inline hsome => exact hsome rfl
    | asSpread hon => exact hon rfl
    | asCondition => exact hfield ⟨_, _, _, _, _, _, rfl⟩

/-- Three dots alone take the name of the field behind them. -/
theorem settles_bare (hn : Nests d nested) (hindent : IsBlank indent.toList) (hlast : IsBlank last)
    (hwf : ∀ s ∈ rest, IsSelection true d s)
    (ih : ∀ ss : List Tree, ss.length < rest.length → (∀ s ∈ ss, IsSelection true d s) →
      RowsSettle d nested indent last k ss) (place : List Char) :
    Settles (selectionRow d nested) (·.mapM Selection.toTree)
      (dotted place (rows indent rest ++ (last ++ '}' :: k))) (ofChars ('}' :: k))
      (ReadBack (.inlineFragment .none ⟨fd, []⟩ ⟨fs, []⟩ :: rest)) := by
  -- what the dots can take is a name, and only a field starts with one
  by_cases hfield : StartsWithField rest
  · obtain ⟨n, a, ⟨fa'', as⟩, ⟨fd'', ds⟩, ⟨fs'', ss⟩, rest, rfl⟩ := hfield
    have htail : ∀ s ∈ rest, IsSelection true d s := fun s hs => hwf s (List.mem_cons_of_mem _ hs)
    cases hwf _ (List.mem_cons_self ..) with
    | field hname hlabel hargs hdirs hdepth hsels =>
      have hclear := clear_rows htail hindent hlast k
      rw [rows_cons, chars_field hargs hdirs hsels, List.append_assoc, List.append_assoc, dotted,
        ofChars_blank hindent]
      rcases isLabel_cases hlabel with ⟨htext, hfilter⟩ | ⟨label, hname', htext, hfilter⟩
      · rw [fieldHead_unlabelled htext]
        by_cases hon : n = "on"
        · subst hon
          by_cases hmere : as = [] ∧ ds = [] ∧ ss = []
          · obtain ⟨rfl, rfl, rfl⟩ := hmere
            exact settles_bare_on hn hindent hlast htail
              (fun ss hss => ih ss (Nat.lt_trans hss (by simp))) hfilter place
          · refine .of_fails (bare_on_parts_fails hn hdirs hmere hclear place) fun rs h => ?_
            cases h with
            | inline hsome => exact hsome rfl
            | asSpread hon => exact hon rfl
            | asCondition => exact hmere ⟨rfl, rfl, rfl⟩
        · have hrest : Settles (selectionRow d nested) (·.mapM Selection.toTree)
              (ofChars ('\n' :: (rows indent rest ++ (last ++ '}' :: k)))) (ofChars ('}' :: k)) (ReadBack rest) := by
            rw [Tape.ofChars_newline]
            exact ih rest (by simp) htail
          refine (settles_bare_spread hn hname hon hdirs hclear hrest place).congr fun rs => ?_
          constructor
          · rintro ⟨rfl, rfl, rest, hrest, rfl⟩
            exact .asSpread hon hfilter hrest
          · intro h
            cases h with
            | inline hsome => exact absurd rfl hsome
            | asSpread _ _ hrest => exact ⟨rfl, rfl, _, hrest, rfl⟩
            | asCondition => exact absurd rfl hon
      · rw [fieldHead_labelled htext]
        refine .of_fails (bare_labelled_fails hn hname' place _) fun rs h => ?_
        cases h with
        | inline hsome => exact hsome rfl
        | asSpread _ hnone | asCondition hnone =>
          rw [hfilter] at hnone
          cases hnone
  · obtain ⟨m, hm, hfront⟩ := front_of_not_startsWithField hwf hindent hlast hfield k
    refine .of_fails (bare_fails hn hfront (by simp) ?_ ?_ place) fun rs => not_readBack_bare hfield
    · rintro ⟨⟩
      simp at hm
    · rintro ⟨⟩
      simp at hm

/-- Rows behind a field. -/
theorem settles_rows_field (hn : Nests d nested) (hindent : IsBlank indent.toList) (hname : isName name = true)
    (halias : IsLabel aliasName) (hargs : ∀ a ∈ args, IsArgument false d a)
    (hdirs : ∀ t ∈ dirs, IsDirective false d t) (hdepth : sels = [] ∨ 0 < d)
    (hsels : ∀ s ∈ sels, IsSelection true (d - 1) s) {cs : List Char} {after : Tape}
    (hcs : Clear [.colon, .parenL, .at, .braceL] cs)
    (hrest : Settles (selectionRow d nested) (·.mapM Selection.toTree) (ofChars cs) after (ReadBack rest)) :
    Settles (selectionRow d nested) (·.mapM Selection.toTree)
      (ofChars ((Tree.field name aliasName ⟨fa, args⟩ ⟨fd, dirs⟩ ⟨fs, sels⟩).chars indent ++ cs)) after
      (ReadBack (.field name aliasName ⟨fa, args⟩ ⟨fd, dirs⟩ ⟨fs, sels⟩ :: rest)) := by
  have hset : Boundary (setText indent sels ++ cs) := (clear_set hcs indent sels).1
  rw [chars_field hargs hdirs hsels, List.append_assoc, List.append_assoc, ofChars_blank hindent]
  obtain ⟨w, hfront⟩ := front_fieldHead hname halias hdirs hset
  have hitem := (settles_field hn hname halias hargs hdirs hindent hdepth hsels hcs).of_run
    (selection_run_field hfront (by simp))
  refine (Settles.step (Syntax.ensures_selection hn.ensures) (Tape.lexical_ofChars _) hfront (by simp) hitem
    hrest).congr fun rs => ?_
  constructor
  · rintro ⟨_, rrest, ⟨inner, hinner, rfl⟩, hrrest, rfl⟩
    exact .field hinner hrrest
  · intro h
    cases h with
    | field hinner hrrest => exact ⟨_, _, ⟨_, hinner, rfl⟩, hrrest, rfl⟩

/-- Rows behind a fragment spread. -/
theorem settles_rows_spread (hn : Nests d nested) (hindent : IsBlank indent.toList) (hname : isName name = true)
    (hon : name ≠ "on") (hdirs : ∀ t ∈ dirs, IsDirective false d t) {cs : List Char} {after : Tape}
    (hcs : Clear [.colon, .parenL, .at, .braceL] cs)
    (hrest : Settles (selectionRow d nested) (·.mapM Selection.toTree) (ofChars cs) after (ReadBack rest)) :
    Settles (selectionRow d nested) (·.mapM Selection.toTree)
      (ofChars ((Tree.fragmentSpread name ⟨fd, dirs⟩).chars indent ++ cs)) after
      (ReadBack (.fragmentSpread name ⟨fd, dirs⟩ :: rest)) := by
  rw [chars_fragmentSpread hdirs, List.append_assoc, ofChars_blank hindent]
  simp only [List.cons_append, List.append_assoc]
  rw [Tape.ofChars_spread]
  refine (Settles.step (Syntax.ensures_selection hn.ensures) (lexical_dotted ..) rfl (by simp)
    (settles_spread hname hon hdirs (hcs.mono (by simp)) _) hrest).congr fun rs => ?_
  constructor
  · rintro ⟨_, rrest, rfl, hrrest, rfl⟩
    exact .spread hrrest
  · intro h
    cases h with
    | spread hrrest => exact ⟨_, _, rfl, hrrest, rfl⟩

/-- Rows behind an inline fragment that is more than three dots. -/
theorem settles_rows_inline {type : Tree} (hn : Nests d nested) (hindent : IsBlank indent.toList)
    (htype : IsCondition type) (hdirs : ∀ t ∈ dirs, IsDirective false d t) (hdepth : sels = [] ∨ 0 < d)
    (hsels : ∀ s ∈ sels, IsSelection true (d - 1) s) (hmore : ¬(type = .none ∧ dirs = [] ∧ sels = []))
    {cs : List Char} {after : Tape} (hcs : Clear [.colon, .parenL, .at, .braceL] cs)
    (hrest : Settles (selectionRow d nested) (·.mapM Selection.toTree) (ofChars cs) after (ReadBack rest)) :
    Settles (selectionRow d nested) (·.mapM Selection.toTree)
      (ofChars ((Tree.inlineFragment type ⟨fd, dirs⟩ ⟨fs, sels⟩).chars indent ++ cs)) after
      (ReadBack (.inlineFragment type ⟨fd, dirs⟩ ⟨fs, sels⟩ :: rest)) := by
  have hbody := boundary_parts hdirs hcs indent [] sels
  -- without a condition, a punctuator follows the dots, so nothing is taken for a name
  have hfree : type = .none → ∃ t, (ofChars (partsText [] dirs ++ (setText indent sels ++ cs))).front = some t ∧
      ∀ w, t ≠ .name w := by
    intro hnone
    by_cases hempty : dirs = []
    · subst hempty
      exact ⟨_, front_setText (fun hsels => hmore ⟨hnone, rfl, hsels⟩) indent cs, by simp⟩
    · exact ⟨_, front_directives hdirs hempty _, by simp⟩
  have hitem := (settles_inlineParts hn hdirs hindent hdepth hsels hcs (conditionName type)).of_run
    (inline_run htype hbody hfree)
  have htext : (Tree.inlineFragment type ⟨fd, dirs⟩ ⟨fs, sels⟩).chars indent ++ cs = indent.toList ++
      '.' :: '.' :: '.' :: ((conditionText type).toList ++ (partsText [] dirs ++ (setText indent sels ++ cs))) := by
    have hparts : partsText [] dirs = directivesText dirs := rfl
    rw [chars_inlineFragment htype hdirs hsels, hparts]
    simp
  rw [htext, ofChars_blank hindent]
  refine (Settles.step (Syntax.ensures_selection hn.ensures) (Tape.lexical_ofChars _)
    (by rw [Tape.ofChars_spread]; rfl) (by simp) hitem hrest).congr fun rs => ?_
  rw [conditionTree_conditionName htype]
  constructor
  · rintro ⟨_, rrest, ⟨-, hsome, inner, hinner, rfl⟩, hrrest, rfl⟩
    exact .inline hsome hinner hrrest
  · intro h
    cases h with
    | inline hsome hinner hrrest => exact ⟨_, _, ⟨rfl, hsome, _, hinner, rfl⟩, hrrest, rfl⟩
    | asSpread => exact absurd ⟨rfl, rfl, rfl⟩ hmore
    | asCondition => exact absurd ⟨rfl, rfl, rfl⟩ hmore

/-- Printed selections are read back as `ReadBack` says, and not at all where it says nothing. -/
theorem settles_rows (hn : Nests d nested) (hindent : IsBlank indent.toList) (hlast : IsBlank last)
    (ss : List Tree) (hwf : ∀ s ∈ ss, IsSelection true d s) : RowsSettle d nested indent last k ss := by
  -- on the number of selections, since three dots may take up to two of them
  induction hlen : ss.length using Nat.strong_induction_on generalizing ss with
  | _ n ih =>
    subst hlen
    cases ss with
    | nil =>
      have hfront : (ofChars ('}' :: k)).front = some (.punct .braceR) := by
        rw [Tape.ofChars_punct (m := .braceR) (by decide)]
        rfl
      rw [RowsSettle, rows, series, List.nil_append, ofChars_blank hlast]
      constructor
      · intro rs h
        cases h
        exact ⟨[], itemsWhile_stop hfront (by simp), rfl⟩
      · exact fun hnone => absurd .nil (hnone [])
    | cons s rest =>
      have htail : ∀ s ∈ rest, IsSelection true d s := fun s hs => hwf s (List.mem_cons_of_mem _ hs)
      have hcs := clear_rows htail hindent hlast k
      have hrest : Settles (selectionRow d nested) (·.mapM Selection.toTree)
          (ofChars ('\n' :: (rows indent rest ++ (last ++ '}' :: k)))) (ofChars ('}' :: k)) (ReadBack rest) := by
        rw [Tape.ofChars_newline]
        exact ih rest.length (by simp) rest htail rfl
      rw [RowsSettle, rows_cons]
      cases hwf s (List.mem_cons_self ..) with
      | field hname halias hargs hdirs hdepth hsels =>
        exact settles_rows_field hn hindent hname halias hargs hdirs hdepth hsels hcs hrest
      | spread hname hon hdirs => exact settles_rows_spread hn hindent hname hon hdirs hcs hrest
      | inline htype hdirs hsome hdepth hsels =>
        rename_i type fd fs dirs sels
        by_cases hbare : type = .none ∧ dirs = [] ∧ sels = []
        · obtain ⟨rfl, rfl, rfl⟩ := hbare
          rw [chars_inlineFragment htype hdirs hsels, List.append_assoc, ofChars_blank hindent]
          show Settles _ _ (ofChars ('.' :: '.' :: '.' :: '\n' :: (rows indent rest ++ (last ++ '}' :: k)))) _ _
          rw [Tape.ofChars_spread, Tape.ofChars_newline]
          refine settles_bare hn hindent hlast htail (fun ss hss hss' => ?_) _
          exact ih ss.length (Nat.lt_trans hss (by simp)) ss hss' rfl
        · exact settles_rows_inline hn hindent htype hdirs hdepth hsels hbare hcs hrest

end All

end Rows

/-! ## Selection sets -/

theorem isBlank_step {indent : String} (h : IsBlank indent.toList) : IsBlank (indent ++ Layout.step).toList := by
  intro c hc
  rw [String.toList_append, List.mem_append] at hc
  rcases hc with hc | hc
  · exact h c hc
  · have hspace : c = ' ' := by simpa [Layout.step] using hc
    subst hspace
    decide

/-- What a selection set is read back as depends on the selections in it only. -/
theorem nests_selectionSet (d : Nat) : Nests d (Syntax.selectionSet d) := by
  -- on the depth: the sets inside are those of one level less
  induction d with
  | zero =>
    refine ⟨Syntax.ensures_selectionSet 0, fun hfront _ => ?_, ?_⟩
    · rw [Syntax.selectionSet]
      exact failHere_fails hfront _
    · intro sels indent hindent hdepth
      exact absurd hdepth (by simp)
  | succ d ih =>
    refine ⟨Syntax.ensures_selectionSet (d + 1), fun hfront ht => (expect_fails hfront ht).bind _, ?_⟩
    intro sels indent hindent _ hsels k
    have hindent' : IsBlank (indent ++ Layout.step).toList := isBlank_step hindent
    have hrow := settles_rows (k := k) ih hindent' hindent sels hsels
    have htext : setBody indent sels ++ k =
        '{' :: '\n' :: (rows (indent ++ Layout.step) sels ++ (indent.toList ++ '}' :: k)) := by
      simp [setBody]
    rw [htext, Tape.ofChars_punct (m := .braceL) (by decide), Tape.ofChars_newline]
    refine Settles.of_run ?_ (bind_run (expect_run ..) _)
    refine (hrow.map fun xs rs hxs => ⟨xs, ?_, hxs⟩).congr fun rs => ?_
    · rw [Tape.ofChars_punct (m := .braceR) (by decide), bind_run (expect_run ..)]
      rfl
    · constructor
      · rintro ⟨r, hr, h⟩
        exact h ▸ hr
      · exact fun h => ⟨rs, h, rfl⟩

end GraphDoc
