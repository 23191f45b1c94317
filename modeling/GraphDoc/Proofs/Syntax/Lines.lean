import GraphDoc.Proofs.Syntax.Executables

/-!
# Lines of printed texts

A line break in print always comes from the layout: values, types, arguments and directives are printed in one
line, since a string escapes the breaks inside it. So a mark in place of each line break keeps all that a text
says, and shows where a line ends.
-/

namespace GraphDoc

open GraphDoc.Tree
open Syntax (OperationKind maxDepth)

/-! ## Marks -/

/-- Whether the characters hold nothing below the space, and so no line break. -/
def IsLine (cs : List Char) : Prop := ∀ c ∈ cs, ' ' ≤ c

/-- The characters with a mark in place of each line break. -/
def marked (cs : List Char) : List Char := cs.map fun c => if c = '\n' then '&' else c

@[simp]
theorem isLine_nil : IsLine [] := by simp [IsLine]

@[simp]
theorem isLine_cons (c : Char) (cs : List Char) : IsLine (c :: cs) ↔ ' ' ≤ c ∧ IsLine cs := by
  simp [IsLine]

@[simp]
theorem isLine_append (cs ds : List Char) : IsLine (cs ++ ds) ↔ IsLine cs ∧ IsLine ds := by
  simp [IsLine, or_imp, forall_and]

/-- Marks are set character by character. -/
@[simp]
theorem marked_append (cs ds : List Char) : marked (cs ++ ds) = marked cs ++ marked ds := List.map_append

/-- There is nothing to mark in a line. -/
theorem IsLine.marked_eq {cs : List Char} (h : IsLine cs) : marked cs = cs := by
  induction cs with
  | nil => rfl
  | cons c cs ih =>
    obtain ⟨hc, hcs⟩ := (isLine_cons c cs).1 h
    have hbreak : c ≠ '\n' := by
      rintro rfl
      exact absurd hc (by decide)
    rw [marked, List.map_cons, if_neg hbreak]
    exact congrArg (c :: ·) (ih hcs)

/-- A series is a line if its items and what stands between them are. -/
theorem isLine_series {τ : Type} {text : τ → List Char} {first glue post : List Char} {ts : List τ}
    (hfirst : IsLine first) (hglue : IsLine glue) (hpost : IsLine post) (h : ∀ t ∈ ts, IsLine (text t)) :
    IsLine (series text first glue post ts) := by
  induction ts generalizing first with
  | nil => exact isLine_nil
  | cons t ts ih =>
    have hrest := ih hglue fun s hs => h s (List.mem_cons_of_mem _ hs)
    simp [series, hfirst, h t (by simp), hpost, hrest]

/-! ## Names, numbers and strings -/

/-- The space is the character of code 32. -/
theorem space_le_iff {c : Char} : ' ' ≤ c ↔ 32 ≤ c.toNat := by
  rw [Char.le_def, UInt32.le_iff_toNat_le]
  rfl

/-- No character of a name stands below the space. -/
theorem space_le_of_isNameChar {c : Char} (h : isNameChar c = true) : ' ' ≤ c := by
  have hletter : isNameChar c = ((decide (c.val ≥ 'A'.val ∧ c.val ≤ 'Z'.val) ||
      decide (c.val ≥ 'a'.val) && decide (c.val ≤ 'z'.val)) || c.isDigit || c == '_') := rfl
  simp only [hletter, Char.isDigit, Bool.or_eq_true, Bool.and_eq_true, decide_eq_true_eq, beq_iff_eq] at h
  rw [Char.le_def]
  rcases h with ((h | h) | h) | rfl
  · exact UInt32.le_trans (by decide) h.1
  · exact UInt32.le_trans (by decide) h.1
  · exact UInt32.le_trans (by decide) h.1
  · decide

/-- A name is a line. -/
theorem isLine_name {s : String} (h : isName s = true) : IsLine s.toList :=
  fun c hc => space_le_of_isNameChar (isNameChar_of_isName h c hc)

/-- A run of digits is a line. -/
theorem isLine_digits {ds : List Char} (h : IsDigits ds) : IsLine ds := by
  intro c hc
  exact space_le_of_isNameChar (by simp [isNameChar, h.2 c hc])

/-- The text of a number is a line. -/
theorem isLine_numeral (n : Numeral) : IsLine n.chars := by
  have hsign : IsLine n.sign := by
    rcases n.sign_ok with h | h <;> simp [h]
  have hfraction : IsLine n.fraction := by
    rcases n.fraction_ok with h | ⟨ds, h, hds⟩
    · simp [h]
    · simp [h, isLine_digits hds]
  have hexponent : IsLine n.exponent := by
    rcases n.exponent_ok with h | ⟨mark, sign, ds, h, hmark, hsign, hds⟩
    · simp [h]
    · rcases hmark with rfl | rfl <;> rcases hsign with rfl | rfl | rfl <;> simp [h, isLine_digits hds]
  simp [Numeral.chars, hsign, isLine_digits n.whole_ok.1, hfraction, hexponent]

/-- The text of a float is a line. -/
theorem isLine_floatText {s : String} (h : IsFloatText s) : IsLine s.toList := by
  obtain ⟨n, hn⟩ := h
  unfold Numeral.token at hn
  split at hn
  · cases hn
  · cases hn
    rw [String.toList_ofList]
    exact isLine_numeral n

/-- Hexadecimal digits are a line. -/
theorem isLine_hexDigits (width n : Nat) : IsLine (Text.hexDigits width n) := by
  have hdigit : ∀ m : Nat, m < 16 → ' ' ≤ Nat.digitChar m := by decide
  induction width generalizing n with
  | zero => exact isLine_nil
  | succ width ih => simp [Text.hexDigits, ih, hdigit (n % 16) (Nat.mod_lt n (by omega))]

/-- A string literal escapes its line breaks. -/
theorem isLine_quote (s : String) : IsLine (Text.quote s).toList := by
  have hescape : ∀ c, IsLine (Text.escape c) := by
    intro c
    unfold Text.escape
    split_ifs
    all_goals simp [isLine_hexDigits, space_le_iff]
    omega
  have hall : IsLine (s.toList.flatMap Text.escape) := by
    intro c hmem
    obtain ⟨d, -, hd⟩ := List.mem_flatMap.1 hmem
    exact hescape d c hd
  simp [Text.quote, hall]

/-! ## Values and types -/

/-- Items between commas are a line. -/
theorem isLine_commas {ts : List Tree} (h : ∀ t ∈ ts, IsLine (t.chars "")) :
    IsLine (Layout.commaList (ts.map (·.printed ""))).toList := by
  rw [Layout.toList_commaList, series_map]
  exact isLine_series isLine_nil (by simp) isLine_nil h

/-- Entries between braces are a line. -/
theorem isLine_object (es : List (String × Tree)) (hkeys : ∀ e ∈ es, isName e.1 = true)
    (h : ∀ e ∈ es, IsLine (e.2.chars "")) :
    IsLine (Layout.object (es.map fun e => entryText e.1 e.2)).toList := by
  have hentries : ∀ e ∈ es, IsLine (entryText e.1 e.2).toList := by
    intro e he
    rw [toList_entryText]
    simp [isLine_name (hkeys e he), h e he]
  rw [Layout.object, String.toList_append, String.toList_append, Layout.toList_commaList, series_map]
  simp [isLine_series isLine_nil _ isLine_nil hentries]

/-- A value is printed in one line. -/
theorem isLine_literal {isConst : Bool} {d : Nat} {t : Tree} (h : IsLiteral isConst d t) : IsLine (t.chars "") := by
  -- only the quoted text could hold the end of a line, and quoting escapes it
  induction h with
  | none | nullValue => exact isLine_name (s := "null") (by decide)
  | bool b =>
    cases b with
    | false => exact isLine_name (s := "false") (by decide)
    | true => exact isLine_name (s := "true") (by decide)
  | @int d n h =>
    obtain ⟨m, hchars, -⟩ := Integer.exists_numeral n
    rw [(printsAs_int h "").chars_eq, ← hchars]
    exact isLine_numeral m
  | float h =>
    rw [(printsAs_float h "").chars_eq]
    exact isLine_floatText (Binary64.isFloatText_text h)
  | str s => exact isLine_quote s
  | symbol h => exact isLine_name h
  | floatValue h => exact isLine_floatText h
  | enumValue h => exact isLine_name h
  | «variable» hconst h =>
    show IsLine ("$" ++ _).toList
    simp [isLine_name h]
  | seq h ih =>
    rw [(printsAs_seq (fun t ht => stable_literal (h t ht)) "" _).chars_eq]
    simp [isLine_commas ih]
  | @map d entries hkeys hvalues ih =>
    rw [(printsAs_map hkeys (fun e he => stable_literal (hvalues e he)) "").chars_eq]
    have hobject := isLine_object ((mergeEntries Key.same entries).map fun e => (e.1.label, e.2))
    rw [List.map_map] at hobject
    refine hobject ?_ ?_
    · intro e he
      obtain ⟨f, hf, rfl⟩ := List.mem_map.1 he
      obtain ⟨v, hv⟩ := (mem_mergeEntries hf).1
      exact hkeys (f.1, v) hv
    · intro e he
      obtain ⟨f, hf, rfl⟩ := List.mem_map.1 he
      obtain ⟨k, hk⟩ := (mem_mergeEntries hf).2
      exact ih (k, f.2) hk
  | inputObject hkeys hvalues ih =>
    rw [(printsAs_inputObject hkeys (fun e he => stable_literal (hvalues e he)) "" _).chars_eq]
    refine isLine_object _ ?_ ?_
    · intro e he
      obtain ⟨v, hv⟩ := (mem_mergeEntries he).1
      exact hkeys (e.1, v) hv
    · intro e he
      obtain ⟨k, hk⟩ := (mem_mergeEntries he).2
      exact ih (k, e.2) hk

/-- A type is printed in one line. -/
theorem isLine_type {d : Nat} {t : Tree} (h : IsType d t) : IsLine (t.chars "") := by
  induction h with
  | typeName h => exact isLine_name h
  | listType h ih =>
    rw [chars_listType (stable_type h)]
    simp [ih]
  | nonNullType h hbare ih =>
    rw [chars_nonNullType (stable_type h)]
    simp [ih]

/-- A default is printed in one line. -/
theorem isLine_default {t : Tree} (h : IsDefault t) : IsLine (defaultText t).toList := by
  by_cases hnone : t = .none
  · subst hnone
    exact isLine_nil
  · rw [defaultText_given hnone]
    simp [isLine_literal (h.resolve_left hnone)]

/-! ## Arguments, directives and parts of definitions -/

/-- Arguments in parentheses are printed in one line. -/
theorem isLine_parens {ts : List Tree} (h : ∀ t ∈ ts, IsLine (t.chars "")) : IsLine (parensText ts) := by
  rw [parensText, Layout.toList_parens, series_map]
  split
  · exact isLine_nil
  · have hitems : IsLine (series (fun t : Tree => (t.printed "").toList) [] [',', ' '] [] ts) :=
      isLine_series isLine_nil (by simp) isLine_nil h
    simp [bracketed, hitems]

/-- An argument is printed in one line. -/
theorem isLine_argument {isConst : Bool} {d : Nat} {t : Tree} (h : IsArgument isConst d t) : IsLine (t.chars "") := by
  obtain ⟨hname, hvalue⟩ := h
  have hline : IsLine (printed _ "").toList := isLine_literal hvalue
  rw [(printsAs_argument (stable_literal hvalue) "" _).chars_eq]
  simp [isLine_name hname, hline]

/-- Directives are printed in one line. -/
theorem isLine_directives {isConst : Bool} {d : Nat} {ts : List Tree} (h : ∀ t ∈ ts, IsDirective isConst d t) :
    IsLine (directivesText ts) := by
  have hone : ∀ t ∈ ts, IsLine (t.chars "") := by
    intro t ht
    obtain ⟨hname, hargs⟩ := h t ht
    rw [(printsAs_directive (fun a ha => stable_argument (hargs a ha)) "" _ _).chars_eq, String.toList_append,
      ← parensText]
    simp [isLine_name hname, isLine_parens fun a ha => isLine_argument (hargs a ha)]
  rw [directivesText, Layout.toList_directives, series_map]
  exact isLine_series (by simp) (by simp) isLine_nil hone

/-- A variable definition is printed in one line. -/
theorem isLine_variable {t : Tree} (h : IsVariable t) : IsLine (t.chars "") := by
  obtain ⟨hname, htype, hdefault⟩ := h
  have hline : IsLine (printed _ "").toList := isLine_type htype
  rw [(printsAs_variableDefinition (stable_type htype) hdefault "" _).chars_eq]
  simp [isLine_name hname, hline, isLine_default hdefault]

/-- An input value is printed in one line. -/
theorem isLine_inputValue {t : Tree} (h : IsInputValue t) : IsLine (t.chars "") := by
  obtain ⟨hname, htype, hdefault, hdirs⟩ := h
  have hline : IsLine (printed _ "").toList := isLine_type htype
  have hline' : IsLine (directivesText _) := isLine_directives hdirs
  rw [(printsAs_inputValue (stable_type htype) hdefault (fun t ht => stable_directive (hdirs t ht)) "" _ _).chars_eq,
    String.toList_append, ← directivesText]
  simp [isLine_name hname, hline, isLine_default hdefault, hline']

/-- A field definition is printed in one line. -/
theorem isLine_fieldDefinition {t : Tree} (h : IsFieldDefinition t) : IsLine (t.chars "") := by
  obtain ⟨hname, htype, hargs, hdirs⟩ := h
  have hline : IsLine (printed _ "").toList := isLine_type htype
  have hargs' : IsLine (Layout.parens _).toList := isLine_parens fun a ha => isLine_inputValue (hargs a ha)
  have hdirs' : IsLine (Layout.directives _).toList := isLine_directives hdirs
  rw [(printsAs_fieldDefinition (stable_type htype) (fun a ha => stable_inputValue (hargs a ha))
    (fun t ht => stable_directive (hdirs t ht)) "" _ _).chars_eq]
  simp [isLine_name hname, hline, hargs', hdirs']

/-- Names between bars are a line. -/
theorem isLine_bars {names : List String} (h : ∀ n ∈ names, isName n = true) :
    IsLine (" | ".intercalate names).toList := by
  rw [toList_intercalate_eq_series]
  exact isLine_series isLine_nil (by simp) isLine_nil fun n hn => isLine_name (h n hn)

/-- The interfaces of a type are printed in one line. -/
theorem isLine_interfaces {names : List String} (h : ∀ n ∈ names, isName n = true) :
    IsLine (interfacesText names).toList := by
  have hnames : IsLine (Layout.commaList names).toList := by
    rw [Layout.toList_commaList]
    exact isLine_series isLine_nil (by simp) isLine_nil fun n hn => isLine_name (h n hn)
  unfold interfacesText
  split
  · exact isLine_nil
  · simp [hnames]

/-- The head of a definition is printed in one line. -/
theorem isLine_headText {word name : String} {dirs : List Tree} (hword : isName word = true)
    (hname : isName name = true) (hdirs : ∀ t ∈ dirs, IsDirective true maxDepth t) :
    IsLine (headText word name dirs) := by
  simp [headText, isLine_name hword, isLine_name hname, isLine_directives hdirs]

/-- A directive definition is printed in one line. -/
theorem isLine_directiveDefinition {name : String} {locations : List String} {args : List Tree}
    (hname : isName name = true) (hlocations : ∀ n ∈ locations, n ∈ Syntax.locationNames)
    (hargs : ∀ a ∈ args, IsInputValue a) (description : Option String) :
    IsLine ((Tree.directiveDefinition name (.tuple locations) (.tuple args) description).chars "") := by
  have hbars := isLine_bars fun n hn => isName_of_mem_locationNames n (hlocations n hn)
  have hwords := And.intro (isLine_name (s := "directive") (by decide)) (isLine_name (s := "on") (by decide))
  have hparens := isLine_parens fun a ha => isLine_inputValue (hargs a ha)
  rw [chars_directiveDefinition hargs]
  simp only [isLine_append, isLine_cons]
  exact ⟨hwords.1, by decide, by decide, isLine_name hname, hparens, by decide, hwords.2, by decide, hbars⟩

/-- The head of a fragment, up to its selections. -/
theorem isLine_fragmentHead {name type : String} {dirs : List Tree} (hname : isName name = true)
    (htype : isName type = true) (hdirs : ∀ t ∈ dirs, IsDirective false maxDepth t) :
    IsLine ("fragment".toList ++ ' ' :: (name.toList ++ ' ' :: ("on".toList ++ ' ' :: (type.toList ++
      directivesText dirs)))) := by
  have hwords := And.intro (isLine_name (s := "fragment") (by decide)) (isLine_name (s := "on") (by decide))
  simp only [isLine_append, isLine_cons]
  exact ⟨hwords.1, by decide, isLine_name hname, by decide, hwords.2, by decide, isLine_name htype,
    isLine_directives hdirs⟩

/-- A root is printed in one line. -/
theorem isLine_rootText {root : OperationKind × String} (h : isName root.2 = true) : IsLine (rootText root) := by
  simp [rootText, isLine_name (isName_keyword root.1), isLine_name h]

/-! ## Heads of selections -/

/-- The alias of a field stays in the line of the field. -/
theorem isLine_label {label : Option String} (h : IsLabel label) : IsLine (labelText label).toList := by
  rcases isLabel_cases h with ⟨htext, -⟩ | ⟨s, hs, htext, -⟩
  · rw [htext]
    exact isLine_nil
  · rw [htext]
    simp [isLine_name hs]

/-- A field up to its selections is printed in one line. -/
theorem isLine_fieldHead {d : Nat} {name : String} {aliasName : Option String} {args dirs : List Tree}
    (hname : isName name = true) (halias : IsLabel aliasName) (hargs : ∀ a ∈ args, IsArgument false d a)
    (hdirs : ∀ t ∈ dirs, IsDirective false d t) : IsLine (fieldHead name aliasName args dirs) := by
  simp [fieldHead, partsText, isLine_label halias, isLine_name hname, isLine_directives hdirs,
    isLine_parens fun a ha => isLine_argument (hargs a ha)]

/-- A type condition stays in the line of its fragment. -/
theorem isLine_condition {type : Tree} (h : IsCondition type) : IsLine (conditionText type).toList := by
  rcases h with rfl | ⟨name, rfl, hname⟩
  · exact isLine_nil
  · show IsLine (" on " ++ name).toList
    simp [isLine_name hname]

/-- The name of an operation stays in the line of its keyword. -/
theorem isLine_nameText {label : Option String} (h : IsLabel label) : IsLine (nameText label).toList := by
  rcases nameText_cases h with ⟨htext, -⟩ | ⟨s, hs, htext, -⟩
  · rw [htext]
    exact isLine_nil
  · rw [htext]
    simp [isLine_name hs]

end GraphDoc
