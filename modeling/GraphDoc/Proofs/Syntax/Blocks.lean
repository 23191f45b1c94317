import GraphDoc.Proofs.Syntax.MarkedDefinitions

/-!
# Definitions in print are blocks

A definition is printed as lines of which none is empty: a head in one line and, for all that has parts, a line
for each part and one for the closing brace. So line feeds are the only characters below the space in print, a
printed text stays as it is when its line breaks are unified, and its empty lines stand exactly between definitions.
-/

namespace GraphDoc

open GraphDoc.Tree

/-! ## Blocks -/

/-- Whether the characters are lines, of which none is empty. -/
inductive IsBlock : List Char → Prop
  | line {cs : List Char} (h : IsLine cs) (hsome : cs ≠ []) : IsBlock cs
  | under {cs ds : List Char} (h : IsBlock cs) (hunder : IsBlock ds) : IsBlock (cs ++ '\n' :: ds)

/-- Whether line feeds are the only characters below the space. -/
def IsPrint (cs : List Char) : Prop := ∀ c ∈ cs, c = '\n' ∨ ' ' ≤ c

theorem IsLine.isPrint {cs : List Char} (h : IsLine cs) : IsPrint cs := fun c hc => .inr (h c hc)

@[simp]
theorem isPrint_append (cs ds : List Char) : IsPrint (cs ++ ds) ↔ IsPrint cs ∧ IsPrint ds := by
  simp [IsPrint, or_imp, forall_and]

theorem IsBlock.isPrint {cs : List Char} (h : IsBlock cs) : IsPrint cs := by
  induction h with
  | line h => exact h.isPrint
  | under _ _ ih ih' =>
    rw [← List.singleton_append, isPrint_append, isPrint_append]
    exact ⟨ih, by simp [IsPrint], ih'⟩

/-- The first line of a block may be longer. -/
theorem IsBlock.lineBefore {cs : List Char} (h : IsBlock cs) {start : List Char} (hstart : IsLine start) :
    IsBlock (start ++ cs) := by
  induction h with
  | line h hsome => exact .line (by simp [hstart, h]) (by simp [hsome])
  | under _ hunder ih =>
    rw [← List.append_assoc]
    exact .under ih hunder

/-- A head, lines in braces and what stands in front of the closing brace make a block. -/
theorem isBlock_lines {τ : Type} {line : τ → List Char} {head last : List Char} {ts : List τ} (hhead : IsLine head)
    (hlast : IsLine last) (h : ∀ t ∈ ts, IsBlock (line t)) : IsBlock (head ++ linesText line last ts) := by
  have hrows : IsBlock (series line [] [] ['\n'] ts ++ (last ++ ['}'])) := by
    induction ts with
    | nil => exact .line (by simp [series, hlast]) (by simp [series])
    | cons t ts ih =>
      have hrest := ih fun s hs => h s (List.mem_cons_of_mem _ hs)
      simpa [series] using IsBlock.under (h t (by simp)) hrest
  have hopen : IsBlock (head ++ [' ', '{']) := .line (by simp [hhead]) (by simp)
  simpa [linesText] using hopen.under hrows

/-! ## Selections -/

/-- A head with its selections makes a block, also if there are no selections. -/
theorem isBlock_set {indent : String} (hindent : IsIndent indent) {head : List Char} {sels : List Tree}
    (hhead : IsLine head) (hsome : head ≠ []) (h : ∀ s ∈ sels, IsBlock (s.chars (indent ++ Layout.step))) :
    IsBlock (head ++ setText indent sels) := by
  by_cases hempty : sels = []
  · rw [hempty, setText, if_pos rfl, List.append_nil]
    exact .line hhead hsome
  · rw [setText_eq indent hempty]
    exact isBlock_lines hhead hindent.isLine h

/-- A selection is a block, at any indent. -/
theorem isBlock_selection {d : Nat} {t : Tree} (h : IsSelection true d t) {indent : String}
    (hindent : IsIndent indent) : IsBlock (t.chars indent) := by
  induction h generalizing indent with
  | field hname halias hargs hdirs hdepth hsels ih =>
    rename_i name aliasName fa fd fs args dirs sels
    have hsome : fieldHead name aliasName args dirs ≠ [] := by
      simp [fieldHead, ne_empty_of_isName hname]
    rw [chars_field hargs hdirs hsels]
    refine (isBlock_set hindent (isLine_fieldHead hname halias hargs hdirs) hsome fun s hs => ?_).lineBefore
      hindent.isLine
    exact ih s hs hindent.deeper
  | spread hname _ hdirs =>
    rw [chars_fragmentSpread hdirs]
    exact .line (by simp [hindent.isLine, isLine_name hname, isLine_directives hdirs]) (by simp)
  | inline htype hdirs hsome hdepth hsels ih =>
    rename_i type fd fs dirs sels
    have hhead : IsLine ('.' :: '.' :: '.' :: ((conditionText type).toList ++ directivesText dirs)) := by
      simp [isLine_condition htype, isLine_directives hdirs]
    have hset := isBlock_set hindent hhead (by simp) fun s hs => ih s hs hindent.deeper
    rw [chars_inlineFragment htype hdirs hsels]
    refine IsBlock.lineBefore ?_ hindent.isLine
    simpa using hset

/-! ## Definitions -/

section Parts

variable {head : List Char} (hhead : IsLine head)

include hhead

theorem isBlock_fields {fields : List Tree} (h : ∀ f ∈ fields, IsLine (f.chars "")) :
    IsBlock (head ++ fieldsText fields) := by
  rw [fieldsText_eq_lines]
  refine isBlock_lines hhead isLine_nil fun f hf => .line ?_ (by simp [Layout.step])
  simp [isIndent_step.isLine, h f hf]

theorem isBlock_values {values : List Tree} (h : ∀ v ∈ values, IsEnumValue v) :
    IsBlock (head ++ valuesText values) := by
  rw [valuesText_eq_lines h]
  refine isBlock_lines hhead isLine_nil fun v hv => .line ?_ (by simp [Layout.step])
  obtain ⟨hname, -, hdirs⟩ := h v hv
  simp [isIndent_step.isLine, valueLine, isLine_name hname, isLine_directives hdirs]

end Parts

theorem isBlock_executable {d : Tree} (h : IsExecutable true d) : IsBlock (d.chars "") := by
  have hindent : IsIndent "" := by simp [IsIndent]
  cases h with
  | operation hname hvars hdirs hsels =>
    rename_i kind name fv fd fs vars dirs sels
    have hhead : IsLine (kind.keyword.toList ++ ((nameText name).toList ++ partsText vars dirs)) := by
      simp [partsText, isLine_name (isName_keyword kind), isLine_nameText hname, isLine_directives hdirs,
        isLine_parens fun v hv => isLine_variable (hvars v hv)]
    have hset := isBlock_set hindent hhead (by simp [ne_empty_of_isName (isName_keyword kind)])
      fun s hs => isBlock_selection (hsels.2 s hs) hindent.deeper
    rw [chars_operation hvars hdirs hsels.2, operationText]
    simpa using hset
  | fragment hname hon htype hdirs hsels =>
    rename_i name type fd fs dirs sels
    have hset := isBlock_set hindent (isLine_fragmentHead hname htype hdirs) (by simp)
      fun s hs => isBlock_selection (hsels.2 s hs) hindent.deeper
    rw [chars_fragment hdirs hsels.2]
    simpa using hset

theorem isBlock_typeSystem {d : Tree} (h : IsTypeSystem d) (hshown : d.isSuppressed = false) :
    IsBlock (d.chars "") := by
  cases h with
  | schema hquery hmutation hsubscription =>
    rename_i query mutation subscription description
    obtain ⟨hsome, htext⟩ := toList_schema hquery hmutation hsubscription hshown
    rw [(printsAs_schema query mutation subscription description "").chars_eq, htext, rootLines_eq hsome]
    refine isBlock_lines (isLine_name (by decide)) isLine_nil fun root hroot => .line ?_ (by simp [Layout.step])
    have hname := isName_of_mem_givenRoots hquery hmutation hsubscription root hroot
    simp [isIndent_step.isLine, isLine_rootText hname]
  | scalarType hname hdirs =>
    rw [chars_scalarType hdirs]
    exact .line (isLine_headText (by decide) hname hdirs) (by simp [headText])
  | objectType hname hfields hinterfaces hdirs =>
    rename_i name fields dirs interfaces description
    have hhead : IsLine (headText "type" name dirs ++ (interfacesText interfaces).toList) := by
      rw [isLine_append]
      exact ⟨isLine_headText (by decide) hname hdirs, isLine_interfaces hinterfaces⟩
    rw [chars_objectType hdirs name description hfields, ← List.append_assoc]
    exact isBlock_fields hhead fun f hf => isLine_fieldDefinition (hfields f hf)
  | interfaceType hname hfields hdirs =>
    rw [chars_interfaceType hdirs _ _ hfields]
    exact isBlock_fields (isLine_headText (by decide) hname hdirs) fun f hf => isLine_fieldDefinition (hfields f hf)
  | unionType hname hmembers hdirs =>
    rename_i name members dirs description
    rw [chars_unionType hdirs]
    refine .line ?_ (by simp [headText])
    simp only [isLine_append, isLine_cons]
    exact ⟨isLine_headText (by decide) hname hdirs, by decide, by decide, by decide, isLine_bars hmembers⟩
  | enumType hname hvalues hdirs =>
    rw [chars_enumType hdirs _ _ hvalues]
    exact isBlock_values (isLine_headText (by decide) hname hdirs) hvalues
  | inputType hname hfields hdirs =>
    rw [chars_inputType hdirs _ _ hfields]
    exact isBlock_fields (isLine_headText (by decide) hname hdirs) fun f hf => isLine_inputValue (hfields f hf)
  | directiveDefinition hname hsome hlocations hargs =>
    exact .line (isLine_directiveDefinition hname hlocations hargs _) (by simp [chars_directiveDefinition hargs])

/-- A definition that shows is printed as a block. -/
theorem isBlock_definition {d : Tree} (h : IsShown d) : IsBlock (d.chars "") := by
  obtain ⟨h | h, hshown⟩ := h
  · exact isBlock_executable h
  · exact isBlock_typeSystem h hshown

/-- The text of definitions has no character below the space but line feeds. -/
theorem isPrint_documentText {ds : List Tree} (h : ∀ d ∈ ds, IsShown d) : IsPrint (documentText ds) := by
  have hseries : ∀ first : List Char, IsPrint first → IsPrint (series (·.chars "") first ['\n', '\n'] [] ds) := by
    induction ds with
    | nil => exact fun _ _ => isLine_nil.isPrint
    | cons d ds ih =>
      intro first hfirst
      have hrest := ih (fun t ht => h t (List.mem_cons_of_mem _ ht)) ['\n', '\n'] (by simp [IsPrint])
      simp [series, hfirst, (isBlock_definition (h d (by simp))).isPrint, hrest]
  exact hseries [] isLine_nil.isPrint

/-! ## Line breaks -/

/-- Without carriage returns, a text has its line breaks unified. -/
theorem unifyBreaks_eq_self {cs : List Char} (h : '\r' ∉ cs) : Text.unifyBreaks cs = cs := by
  induction cs with
  | nil => rfl
  | cons c cs ih =>
    rw [List.mem_cons, not_or] at h
    have hc : c ≠ '\r' := fun heq => h.1 heq.symm
    rw [Text.unifyBreaks, if_neg hc, ih h.2]
    simp [hc]

theorem IsPrint.not_mem_return {cs : List Char} (h : IsPrint cs) : '\r' ∉ cs := by
  intro hmem
  exact absurd (h '\r' hmem) (by decide)

/-! ## Texts between empty lines -/

/-- The parts of a text between its empty lines: two line feeds in a row end a part. -/
def Text.parts : List Char → List (List Char)
  | [] => [[]]
  | '\n' :: '\n' :: cs => [] :: parts cs
  | c :: cs => (parts cs).modifyHead (c :: ·)

/-- The blocks of a text: what stands between its empty lines, if anything does. -/
def Text.blocks (text : String) : List String :=
  ((Text.parts text.toList).filter (· ≠ [])).map String.ofList

theorem Text.parts_cons {c : Char} {cs : List Char} (h : c = '\n' → cs.head? ≠ some '\n') :
    Text.parts (c :: cs) = (Text.parts cs).modifyHead (c :: ·) := by
  rw [Text.parts.eq_3]
  rintro ds rfl rfl
  exact h rfl rfl

theorem IsLine.ne_newline {cs : List Char} (h : IsLine cs) {c : Char} (hc : c ∈ cs) : c ≠ '\n' := by
  rintro rfl
  exact absurd (h _ hc) (by decide)

theorem IsBlock.ne_nil {cs : List Char} (h : IsBlock cs) : cs ≠ [] := by
  cases h with
  | line _ hsome => exact hsome
  | under => simp

theorem IsBlock.head?_ne {cs : List Char} (h : IsBlock cs) (k : List Char) : (cs ++ k).head? ≠ some '\n' := by
  induction h generalizing k with
  | @line cs h hsome =>
    cases cs with
    | nil => exact absurd rfl hsome
    | cons c cs => simpa using h.ne_newline List.mem_cons_self
  | under _ _ ih =>
    rw [List.append_assoc]
    exact ih _

/-- A line is part of what the text behind it starts with. -/
theorem IsLine.parts_append {cs : List Char} (h : IsLine cs) (k : List Char) :
    Text.parts (cs ++ k) = (Text.parts k).modifyHead (cs ++ ·) := by
  induction cs with
  | nil =>
    rw [List.nil_append]
    cases Text.parts k <;> rfl
  | cons c cs ih =>
    have hc := h.ne_newline (List.mem_cons_self (a := c))
    rw [List.cons_append, Text.parts_cons (absurd · hc), ih fun d hd => h d (List.mem_cons_of_mem _ hd)]
    cases Text.parts k <;> rfl

theorem IsBlock.parts_append {cs : List Char} (h : IsBlock cs) (k : List Char) :
    Text.parts (cs ++ k) = (Text.parts k).modifyHead (cs ++ ·) := by
  induction h generalizing k with
  | line h => exact h.parts_append k
  | under _ hunder ih ih' =>
    rw [List.append_assoc, ih, List.cons_append, Text.parts_cons fun _ => hunder.head?_ne k, ih']
    cases Text.parts k <;> simp

/-- The text of definitions, if there are any, falls into their texts. -/
theorem parts_documentText {d : Tree} {ds : List Tree} (h : ∀ t ∈ d :: ds, IsShown t) :
    Text.parts (documentText (d :: ds)) = (d :: ds).map (·.chars "") := by
  induction ds generalizing d with
  | nil =>
    rw [documentText_cons, (isBlock_definition (h d (by simp))).parts_append]
    simp [tailText, series, Text.parts]
  | cons e ds ih =>
    rw [documentText_cons, (isBlock_definition (h d (by simp))).parts_append, tailText_cons, Text.parts,
      ih fun t ht => h t (List.mem_cons_of_mem _ ht)]
    simp

/-- The blocks of the text of definitions are their texts. -/
theorem blocks_documentText {ds : List Tree} (h : ∀ d ∈ ds, IsShown d) :
    Text.blocks (String.ofList (documentText ds)) = ds.map (·.printed "") := by
  cases ds with
  | nil => rfl
  | cons d ds =>
    have hsome : ((d :: ds).map (·.chars "")).filter (· ≠ []) = (d :: ds).map (·.chars "") := by
      refine List.filter_eq_self.2 fun cs hcs => ?_
      obtain ⟨t, ht, rfl⟩ := List.mem_map.1 hcs
      simpa using (isBlock_definition (h t ht)).ne_nil
    rw [Text.blocks, String.toList_ofList, parts_documentText h, hsome, List.map_map]
    exact List.map_congr_left fun t _ => String.ofList_toList

end GraphDoc
