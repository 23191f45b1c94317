import GraphDoc.Proofs.Syntax.Parsed
import GraphDoc.Proofs.Tree.Stable

/-!
# Printed phrases are read back

The printed text of a well-formed value, type, argument or directive is read as the phrase it stands for.
-/

namespace GraphDoc

open GraphDoc.Parser GraphDoc.Tree
open Syntax (Argument Converted Directive TypeRef Value)
open Tape (ofChars)

/-- Whether the text of a tree is read by the given parser, and as the given tree. -/
structure Written {α : Type} (p : Parser α) (conv : α → Converted Tree) (start : Token → Prop)
    (bad : List Punct) (indent : String) (t r : Tree) : Prop where
  starts : Starts start bad (t.chars indent)
  reads : Reads p conv bad (t.chars indent) r

/-- A parenthesised row in print, left out when it is empty. -/
def parensText (ts : List Tree) : List Char := (Layout.parens (ts.map (·.printed ""))).toList

/-- Directives in print. -/
def directivesText (ts : List Tree) : List Char := (Layout.directives (ts.map (·.printed ""))).toList

theorem isBlank_nil : IsBlank [] := by simp [IsBlank]

theorem isBlank_comma : IsBlank [',', ' '] := by
  simp [IsBlank, Tape.isIgnored]

theorem isBlank_space : IsBlank [' '] := by
  simp [IsBlank, Tape.isIgnored]

/-- Items in a row up to a closing punctuator. -/
theorem isSeries_commas {α : Type} {item : Parser α} {conv : α → Converted Tree} {start : Token → Prop}
    {bad : List Punct} {close : Punct} {ts : List Tree} {r : Tree → Tree} (hone : ∃ P, Ensures 1 item P)
    (h : ∀ t ∈ ts, Written item conv start bad "" t (r t))
    (hgoes : ∀ tok, start tok → ∀ m ∈ close :: bad, tok ≠ .punct m) :
    IsSeries item conv (· ≠ .punct close) start bad [',', ' '] [] (chars · "") r ts where
  one := hone
  blank_glue := isBlank_comma
  blank_post := isBlank_nil
  reads := fun t ht => (h t ht).reads
  starts := fun t ht => (h t ht).starts
  clear := fun tok htok m hm => hgoes tok htok m (List.mem_cons_of_mem _ hm)
  goes := fun tok htok => by simpa using hgoes tok htok close (List.mem_cons_self ..)
  boundary := by simp [isBoundary, isNameChar]

/-! ## Values of one token -/

/-- The text of a float is one token. -/
theorem ofChars_floatText {s : String} (h : IsFloatText s) {k : List Char} (hk : Boundary k) :
    ofChars (s.toList ++ k) = .next (.float s) (s.toList ++ k) (ofChars k) := by
  obtain ⟨n, hn⟩ := h
  have hchars : s.toList = n.chars := by
    unfold Numeral.token at hn
    split at hn
    · cases hn
    · cases hn
      exact String.toList_ofList
  rw [hchars, Tape.ofChars_numeral n hk, hn]

/-- The text of an integer is one token. -/
theorem ofChars_integerText (n : Int) {k : List Char} (hk : Boundary k) :
    ofChars ((Integer.text n).toList ++ k) =
      .next (.int (Integer.text n)) ((Integer.text n).toList ++ k) (ofChars k) := by
  obtain ⟨m, hchars, htoken⟩ := Integer.exists_numeral n
  rw [← hchars, Tape.ofChars_numeral m hk, htoken]

/-- Whether a value is written as one token. -/
def IsToken (s : String) (tok : Token) : Prop :=
  ∀ k, Boundary k → ofChars (s.toList ++ k) = .next tok (s.toList ++ k) (ofChars k)

/-- A literal printed as one token is read back. -/
private theorem written_token {isConst : Bool} {d : Nat} {t : Tree} {s : String} {tok : Token} {v : Value}
    (hprint : PrintsAs "" t s) (htok : IsToken s tok) (hne : tok ≠ .punct .bracketR)
    (hconv : v.toTree = .ok t.literal)
    (hrun : ∀ place rest, Syntax.value isConst d (.next tok place rest) = .ok (v, rest)) :
    Written (Syntax.value isConst d) Value.toTree (· ≠ .punct .bracketR) [] "" t t.literal := by
  constructor
  · intro k hk
    rw [hprint.chars_eq, htok k hk.1]
    exact ⟨tok, rfl, hne⟩
  · intro k hk
    rw [hprint.chars_eq, htok k hk.1]
    exact ⟨v, hrun _ _, hconv⟩

/-- A literal printed as a bare word is read back. -/
private theorem written_word {isConst : Bool} {d : Nat} {t : Tree} {s : String} (hprint : PrintsAs "" t s)
    (hs : isName s = true) (hconv : t.literal = ofWord s) :
    Written (Syntax.value isConst d) Value.toTree (· ≠ .punct .bracketR) [] "" t t.literal := by
  have htree : (Syntax.valueOfName s).toTree = .ok t.literal := by
    rw [hconv, Syntax.toTree_valueOfName]
  refine written_token hprint (fun k hk => Tape.ofChars_name hs hk) (by simp) htree ?_
  cases d <;> exact fun _ _ => rfl

/-! ## Lists and objects -/

/-- A text that opens with a mark starts with it. -/
theorem starts_punct {o : Char} {m : Punct} (ho : Punct.ofChar? o = some m) (bad : List Punct)
    (cs : List Char) : Starts (· = .punct m) bad (o :: cs) := by
  intro k _
  rw [List.cons_append, Tape.ofChars_punct ho]
  exact ⟨.punct m, rfl, rfl⟩

theorem Starts.mono {start start' : Token → Prop} {bad : List Punct} {cs : List Char}
    (h : Starts start bad cs) (himp : ∀ t, start t → start' t) : Starts start' bad cs := by
  intro k hk
  obtain ⟨t, hfront, ht⟩ := h k hk
  exact ⟨t, hfront, himp t ht⟩

/-- A text that opens with a name starts with it. -/
theorem starts_name {s : String} {bad : List Punct} {cs : List Char} (hs : isName s = true)
    (hclear : ∀ k, Clear bad k → Boundary (cs ++ k)) : Starts (· = .name s) bad (s.toList ++ cs) := by
  intro k hk
  rw [List.append_assoc, Tape.ofChars_name hs (hclear k hk)]
  exact ⟨.name s, rfl, rfl⟩

theorem boundary_colon (cs k : List Char) : Boundary (':' :: cs ++ k) := by
  simp [isBoundary, isNameChar]

/-- An entry is its name, a colon and its value. -/
theorem toList_entryText (name : String) (t : Tree) :
    (entryText name t).toList = name.toList ++ ':' :: ' ' :: (t.chars "" ++ []) := by
  simp [entryText, chars]

/-- What is written between braces is read entry by entry. -/
private theorem reads_entries {isConst : Bool} {d : Nat} {es : List (String × Tree)}
    (hkeys : ∀ e ∈ es, isName e.1 = true)
    (hvalues : ∀ e ∈ es, Written (Syntax.value isConst d) Value.toTree (· ≠ .punct .bracketR) [] "" e.2
      e.2.literal) :
    Reads (any .braceL (Syntax.objectField (Syntax.value isConst d)) .braceR) (·.mapM Syntax.fieldEntry) []
      (Layout.object (es.map fun e => entryText e.1 e.2)).toList (es.map fun e => (e.1, e.2.literal)) := by
  -- entries start with a name and have a comma between them
  have hseries : IsSeries (Syntax.objectField (Syntax.value isConst d)) Syntax.fieldEntry
      (· ≠ .punct .braceR) (fun tok => ∃ s, tok = .name s) [] [',', ' '] []
      (fun e : String × Tree => (entryText e.1 e.2).toList) (fun e => (e.1, e.2.literal)) es := {
    one := ⟨_, Syntax.ensures_objectField (Syntax.ensures_value isConst d)⟩
    blank_glue := isBlank_comma
    blank_post := isBlank_nil
    clear := by simp
    goes := by
      rintro _ ⟨s, rfl⟩
      simp
    boundary := by simp [isBoundary, isNameChar]
    starts := by
      intro e he
      rw [toList_entryText]
      exact (starts_name (hkeys e he) fun k _ => boundary_colon _ k).mono fun _ ht => ⟨_, ht⟩
    reads := by
      intro e he
      rw [toList_entryText]
      refine .name (hkeys e he) (fun k _ => boundary_colon _ k) (.expect (by decide) (.space ?_))
      refine (hvalues e he).reads.bind (fun k hk => hk) fun v hv => .pure ?_
      rw [Syntax.fieldEntry, hv]
      rfl }
  have htext : (Layout.object (es.map fun e => entryText e.1 e.2)).toList =
      bracketed '{' '}' [] (series (fun e : String × Tree => (entryText e.1 e.2).toList) [] [',', ' '] [] es) := by
    rw [Layout.object, String.toList_append, String.toList_append, Layout.toList_commaList, series_map]
    simp [bracketed]
  rw [htext]
  exact .any hseries isBlank_nil isBlank_nil (by decide) (by decide) (by simp)

/-- An object in print is read back. -/
private theorem written_object {isConst : Bool} {d : Nat} {t : Tree} (es : List (String × Tree))
    (hprint : PrintsAs "" t (Layout.object (es.map fun e => entryText e.1 e.2)))
    (hliteral : t.literal = .inputObject (.tuple (ofEntries (es.map fun e => (e.1, e.2.literal)))))
    (hkeys : ∀ e ∈ es, isName e.1 = true)
    (hvalues : ∀ e ∈ es, Written (Syntax.value isConst d) Value.toTree (· ≠ .punct .bracketR) [] "" e.2
      e.2.literal) :
    Written (Syntax.value isConst (d + 1)) Value.toTree (· ≠ .punct .bracketR) [] "" t t.literal := by
  have hstart : Starts (· = .punct .braceL) [] (t.chars "") := by
    rw [hprint.chars_eq, Layout.object, String.toList_append, String.toList_append]
    exact starts_punct (by decide) [] _
  refine ⟨hstart.mono (by simp), ?_⟩
  refine Reads.peek hstart ?_
  rintro _ rfl
  rw [hprint.chars_eq, hliteral]
  refine Reads.map ((reads_entries hkeys hvalues).imp fun fields hfields => ?_)
  rw [Value.toTree, Syntax.fieldTrees_eq_mapM, hfields]
  rfl

/-- A list in print is read back. -/
private theorem written_seq {isConst : Bool} {d : Nat} {form : SeqForm} {items : List Tree}
    (hstable : ∀ t ∈ items, Stable "" t)
    (h : ∀ t ∈ items, Written (Syntax.value isConst d) Value.toTree (· ≠ .punct .bracketR) [] "" t t.literal) :
    Written (Syntax.value isConst (d + 1)) Value.toTree (· ≠ .punct .bracketR) [] "" (.seq ⟨form, items⟩)
      (Tree.seq ⟨form, items⟩).literal := by
  have htext : (Tree.seq ⟨form, items⟩).chars "" =
      bracketed '[' ']' [] (series (chars · "") [] [',', ' '] [] items) := by
    rw [(printsAs_seq hstable "" form).chars_eq, String.toList_append, String.toList_append,
      Layout.toList_commaList, series_map]
    simp [bracketed, chars]
  have hstart : Starts (· = .punct .bracketL) [] ((Tree.seq ⟨form, items⟩).chars "") := by
    rw [htext]
    exact starts_punct (by decide) [] _
  refine ⟨hstart.mono (by simp), Reads.peek hstart ?_⟩
  rintro _ rfl
  rw [htext, literal_seq]
  have hseries : IsSeries _ _ (· ≠ .punct .bracketR) _ _ _ _ _ _ _ :=
    isSeries_commas ⟨_, Syntax.ensures_value isConst d⟩ h (by simp)
  refine Reads.map ((Reads.any hseries isBlank_nil isBlank_nil (by decide) (by decide) (by simp)).imp ?_)
  intro values hvalues
  rw [Value.toTree, Syntax.toTrees_eq_mapM, hvalues]
  rfl

/-- A variable in print is read back. -/
private theorem written_variable {d : Nat} {name : String} (hname : isName name = true) :
    Written (Syntax.value false d) Value.toTree (· ≠ .punct .bracketR) [] "" (.variable name)
      (Tree.variable name).literal := by
  have htext : (Tree.variable name).chars "" = '$' :: (name.toList ++ []) := by
    have hprint : PrintsAs "" (.variable name) ("$" ++ name) := ⟨rfl, by rw [normal_eq]; rfl⟩
    rw [hprint.chars_eq]
    simp
  have hstart : Starts (· = .punct .dollar) [] ((Tree.variable name).chars "") := by
    rw [htext]
    exact starts_punct (by decide) [] _
  have hliteral : (Tree.variable name).literal = .variable name := by
    rw [literal, reading_eq]
    rfl
  have hreads : Reads (Value.variable <$> Syntax.variableName) Value.toTree [] ((Tree.variable name).chars "")
      (Tree.variable name).literal := by
    rw [htext, hliteral]
    refine .map (.expect (by decide) ?_)
    rw [← bind_pure Parser.name]
    exact .name hname (fun k hk => hk.1) (.pure rfl)
  refine ⟨hstart.mono (by simp), ?_⟩
  cases d <;>
  · refine Reads.peek hstart ?_
    rintro _ rfl
    exact hreads

/-- The text of a value is read back. -/
theorem written_literal {isConst : Bool} {d : Nat} {t : Tree} (h : IsLiteral isConst d t) :
    Written (Syntax.value isConst d) Value.toTree (· ≠ .punct .bracketR) [] "" t t.literal := by
  -- a token for each plain value; for lists and objects, the items by induction
  induction h with
  | none | nullValue =>
    exact written_word ⟨rfl, by rw [normal_eq]; rfl⟩ (by decide) (by rw [literal, reading_eq]; rfl)
  | bool b =>
    cases b <;>
      exact written_word ⟨rfl, by rw [normal_eq]; rfl⟩ (by decide) (by rw [literal, reading_eq]; rfl)
  | @int d n h =>
    have hconv : (Value.int (Integer.text n)).toTree = .ok (Tree.int n).literal := by
      rw [Value.toTree, Integer.read_text h, literal, reading_eq]
      rfl
    refine written_token (printsAs_int h "") (fun k hk => ofChars_integerText n hk) (by simp) hconv ?_
    cases d <;> exact fun _ _ => rfl
  | @float d x h =>
    have hconv : (Value.float x.text).toTree = .ok (Tree.float x).literal := by
      rw [literal, reading_eq]
      rfl
    refine written_token (printsAs_float h "") (fun k hk => ofChars_floatText (Binary64.isFloatText_text h) hk)
      (by simp) hconv ?_
    cases d <;> exact fun _ _ => rfl
  | @floatValue d text h =>
    have hconv : (Value.float text).toTree = .ok (Tree.floatValue text).literal := by
      rw [literal, reading_eq]
      rfl
    refine written_token ⟨rfl, by rw [normal_eq]; rfl⟩ (fun k hk => ofChars_floatText h hk) (by simp) hconv ?_
    cases d <;> exact fun _ _ => rfl
  | @str d s =>
    have hconv : (Value.string ⟨s, false⟩).toTree = .ok (Tree.str s).literal := by
      rw [literal, reading_eq]
      rfl
    refine written_token ⟨rfl, by rw [normal_eq]; rfl⟩ (fun k hk => Tape.ofChars_quote hk s) (by simp) hconv ?_
    cases d <;> exact fun _ _ => rfl
  | symbol h =>
    refine written_word ⟨rfl, by rw [normal_eq]; rfl⟩ h ?_
    rw [literal_eq_reading (by simp), reading_eq]
    rfl
  | enumValue h =>
    refine written_word ⟨rfl, by rw [normal_eq]; rfl⟩ h ?_
    rw [literal_eq_reading (by simp), reading_eq]
    rfl
  | «variable» hconst h =>
    subst hconst
    exact written_variable h
  | seq h ih => exact written_seq (fun t ht => stable_literal (h t ht)) ih
  | @map d entries hkeys hvalues ih =>
    have hprint := printsAs_map hkeys (fun e he => stable_literal (hvalues e he)) ""
    refine written_object ((mergeEntries Key.same entries).map fun e => (e.1.label, e.2)) ?_ ?_ ?_ ?_
    · rw [List.map_map]
      exact hprint
    · rw [literal_eq_reading (by simp), reading_map, List.map_map]
      rfl
    · intro e he
      obtain ⟨f, hf, rfl⟩ := List.mem_map.1 he
      obtain ⟨v, hv⟩ := (mem_mergeEntries hf).1
      exact hkeys (f.1, v) hv
    · intro e he
      obtain ⟨f, hf, rfl⟩ := List.mem_map.1 he
      obtain ⟨k, hk⟩ := (mem_mergeEntries hf).2
      exact ih (k, f.2) hk
  | @inputObject d form entries hkeys hvalues ih =>
    have hprint := printsAs_inputObject hkeys (fun e he => stable_literal (hvalues e he)) "" form
    refine written_object (mergeEntries (· == ·) entries) hprint ?_ ?_ ?_
    · rw [literal_eq_reading (by simp), reading_inputObject]
    · intro e he
      obtain ⟨v, hv⟩ := (mem_mergeEntries he).1
      exact hkeys (e.1, v) hv
    · intro e he
      obtain ⟨k, hk⟩ := (mem_mergeEntries he).2
      exact ih (k, e.2) hk

/-! ## Types -/

/-- What is made of a type once the token behind it is known. -/
private def mark (r : TypeRef) : Parser TypeRef := do
  if ← skip .bang then return .nonNull r else return r

/-- Where no mark follows the type stays as it is. -/
private theorem reads_unmarked {r : TypeRef} {t : Tree} (hr : r.toTree = .ok t) :
    Reads (mark r) TypeRef.toTree [.bang] [] t :=
  .pass (fun _ hk => hk.2) (.pure hr)

/-- A mark that follows is read as that of the type. -/
private theorem reads_marked {bad : List Punct} {r : TypeRef} {t : Tree} (hr : r.toTree = .ok t) :
    Reads (mark r) TypeRef.toTree bad ['!'] (.nonNullType t) := by
  refine .skip (by decide) (.pure ?_)
  rw [TypeRef.toTree, hr]
  rfl

/-- A named type is read back, with or without a mark. -/
private theorem reads_typeName {inner : Parser TypeRef} {bad : List Punct} {name : String} (hname : isName name = true)
    {tail : List Char} (htail : ∀ k, Clear bad k → Boundary (tail ++ k)) {res : Tree}
    (hmark : ∀ r : TypeRef, r.toTree = .ok (.typeName name) → Reads (mark r) TypeRef.toTree bad tail res) :
    Reads (Syntax.typeRefWith inner) TypeRef.toTree bad ((Tree.typeName name).chars "" ++ tail) res := by
  rw [(printsAs_typeName "" name).chars_eq]
  refine .pass (fun k hk => ?_) ?_
  · rw [List.append_assoc]
    exact front_name hname _ (htail k hk)
  · intro k hk
    obtain ⟨x, hrun, hx⟩ := hmark (.named name) rfl k hk
    refine ⟨x, ?_, hx⟩
    rw [List.append_assoc, Tape.ofChars_name hname (htail k hk)]
    exact hrun

/-- A list type is read back, with or without a mark. -/
private theorem reads_listType {inner : Parser TypeRef} {bad : List Punct} {of : Tree} (hstable : Stable "" of)
    (hof : Reads inner TypeRef.toTree [.bang] (of.chars "") of.reading) {tail : List Char} {res : Tree}
    (hmark : ∀ r : TypeRef, r.toTree = .ok (.listType of.reading) →
      Reads (mark r) TypeRef.toTree bad tail res) :
    Reads (Syntax.typeRefWith inner) TypeRef.toTree bad ((Tree.listType of).chars "" ++ tail) res := by
  rw [chars_listType hstable, List.cons_append, List.append_assoc, List.singleton_append]
  refine .skip (by decide) (hof.bind (fun k _ => ?_) fun x hx => ?_)
  · exact clear_punct (m := .bracketR) (by decide) (by decide) _
  · refine .expect (by decide) (hmark (.list x) ?_)
    rw [TypeRef.toTree, hx]
    rfl

/-- The text of a type is read back, with and without a mark behind it. Behind a mark anything may follow. -/
private theorem reads_type_both {d : Nat} {t : Tree} (h : IsType d t) :
    Reads (Syntax.typeRef d) TypeRef.toTree [.bang] (t.chars "") t.reading ∧
      ((∀ s, t ≠ .nonNullType s) →
        Reads (Syntax.typeRef d) TypeRef.toTree [] (t.chars "" ++ ['!']) (.nonNullType t.reading)) := by
  -- the two go together: a mark behind a type is read with the type in front of it
  induction h with
  | @typeName d name hname =>
    have hread : (Tree.typeName name).reading = .typeName name := reading_eq _
    have hreads : ∀ (bad : List Punct) (tail : List Char) (res : Tree), (∀ k, Clear bad k → Boundary (tail ++ k)) →
        (∀ r : TypeRef, r.toTree = .ok (.typeName name) → Reads (mark r) TypeRef.toTree bad tail res) →
        Reads (Syntax.typeRef d) TypeRef.toTree bad ((Tree.typeName name).chars "" ++ tail) res := by
      intro bad tail res htail hmark
      cases d <;> exact reads_typeName hname htail hmark
    rw [hread]
    constructor
    · rw [← List.append_nil ((Tree.typeName name).chars "")]
      exact hreads _ [] _ (fun k hk => hk.1) fun r hr => reads_unmarked hr
    · intro _
      exact hreads _ ['!'] _ (by simp [isBoundary, isNameChar]) fun r hr => reads_marked hr
  | @listType d of hof ih =>
    have hread : (Tree.listType of).reading = .listType of.reading := reading_eq _
    rw [hread]
    constructor
    · rw [← List.append_nil ((Tree.listType of).chars "")]
      exact reads_listType (stable_type hof) ih.1 fun r hr => reads_unmarked hr
    · intro _
      exact reads_listType (stable_type hof) ih.1 fun r hr => reads_marked hr
  | @nonNullType d of hof hbare ih =>
    have hread : (Tree.nonNullType of).reading = .nonNullType of.reading := reading_eq _
    rw [hread, chars_nonNullType (stable_type hof)]
    exact ⟨(ih.2 hbare).mono (List.nil_subset _), fun hne => absurd rfl (hne of)⟩

/-- The text of a type is read back. -/
theorem reads_type {d : Nat} {t : Tree} (h : IsType d t) :
    Reads (Syntax.typeRef d) TypeRef.toTree [.bang] (t.chars "") t.reading :=
  (reads_type_both h).1

/-- The text of a type with a mark is read back, also in front of another mark. -/
theorem reads_markedType {d : Nat} {t : Tree} (h : IsType d t) (hbare : ∀ s, t ≠ .nonNullType s) :
    Reads (Syntax.typeRef d) TypeRef.toTree [] (t.chars "" ++ ['!']) (.nonNullType t.reading) :=
  (reads_type_both h).2 hbare

/-! ## Arguments and directives -/

/-- Whether the characters are none at all, or start with the given one behind blanks. -/
def Opens (c : Char) (cs : List Char) : Prop := cs = [] ∨ ∃ blank rest, IsBlank blank ∧ cs = blank ++ c :: rest

/-- A part that may be left out does not go on with a phrase in front of it, unless it opens with one of
the punctuators that do. -/
theorem Opens.clear {c : Char} {m : Punct} {cs k : List Char} {bad : List Punct} (h : Opens c cs)
    (hc : Punct.ofChar? c = some m) (hm : m ∉ bad) (hk : Clear bad k) : Clear bad (cs ++ k) := by
  rcases h with rfl | ⟨blank, rest, hblank, rfl⟩
  · exact hk
  · rw [List.append_assoc]
    exact clear_blank hblank (clear_punct hc hm _)

theorem Opens.boundary {c : Char} {m : Punct} {cs k : List Char} (h : Opens c cs)
    (hc : Punct.ofChar? c = some m) (hk : Boundary k) : Boundary (cs ++ k) := by
  rcases h with rfl | ⟨blank, rest, hblank, rfl⟩
  · exact hk
  · have hclear := clear_blank hblank (clear_punct hc List.not_mem_nil (rest ++ k))
    rw [List.append_assoc]
    exact hclear.1

/-- A part that is not left out starts with its punctuator. -/
theorem Opens.front {c : Char} {m : Punct} {cs : List Char} (h : Opens c cs) (hc : Punct.ofChar? c = some m)
    (hne : cs ≠ []) (k : List Char) : (ofChars (cs ++ k)).front = some (.punct m) := by
  obtain ⟨blank, rest, hblank, rfl⟩ := h.resolve_left hne
  rw [List.append_assoc, ofChars_blank hblank, List.cons_append, Tape.ofChars_punct hc]
  rfl

theorem opens_parens (ts : List Tree) : Opens '(' (parensText ts) := by
  rw [parensText, Layout.toList_parens]
  split
  · exact .inl rfl
  · exact .inr ⟨[], _, isBlank_nil, rfl⟩

theorem parensText_ne_nil {ts : List Tree} (h : ts ≠ []) : parensText ts ≠ [] := by
  simp [parensText, Layout.toList_parens, bracketed, h]

theorem opens_selections (indent : String) (items : List String) :
    Opens '{' (Layout.selections indent items).toList := by
  rw [Layout.toList_selections]
  split
  · exact .inl rfl
  · exact .inr ⟨[' '], _, isBlank_space, rfl⟩

/-- A parenthesised row in print is read item by item. -/
theorem reads_parens {α : Type} {item : Parser α} {conv : α → Converted Tree} {start : Token → Prop}
    {bad : List Punct} {ts : List Tree} {r : Tree → Tree} (hone : ∃ P, Ensures 1 item P)
    (h : ∀ t ∈ ts, Written item conv start bad "" t (r t))
    (hgoes : ∀ tok, start tok → ∀ m ∈ .parenR :: bad, tok ≠ .punct m) (hclose : .parenR ∉ bad) :
    Reads (optionalMany .parenL item .parenR) (·.mapM conv) [.parenL]
      (parensText ts) (ts.map r) := by
  have hopen : Punct.ofChar? '(' = some .parenL := by decide
  have hchar : Punct.ofChar? ')' = some .parenR := by decide
  have hreads := Reads.optionalMany (isSeries_commas hone h hgoes) isBlank_nil isBlank_nil hopen hchar hclose
  rw [parensText, Layout.toList_parens, series_map]
  simpa [chars] using hreads

/-- The text of an argument is read back. -/
theorem written_argument {isConst : Bool} {d : Nat} {t : Tree} (h : IsArgument isConst d t) :
    Written (Syntax.argument isConst d) Argument.toTree (fun tok => ∃ s, tok = .name s) [] "" t t.reading := by
  obtain ⟨hname, hvalue⟩ := h
  rename_i name value
  have htext : (Tree.argument name value).chars "" = name.toList ++ ':' :: ' ' :: (value.chars "" ++ []) := by
    rw [(printsAs_argument (stable_literal hvalue) "" name).chars_eq]
    simp [chars]
  have hread : (Tree.argument name value).reading = .argument name value.literal := reading_eq _
  constructor
  · rw [htext]
    exact (starts_name hname fun k _ => boundary_colon _ k).mono fun _ ht => ⟨_, ht⟩
  · rw [htext, hread]
    refine .name hname (fun k _ => boundary_colon _ k) (.expect (by decide) (.space ?_))
    refine (written_literal hvalue).reads.bind (fun k hk => hk) fun v hv => .pure ?_
    rw [Argument.toTree, hv]
    rfl

/-- Arguments are read back. -/
theorem reads_arguments {isConst : Bool} {d : Nat} {ts : List Tree}
    (h : ∀ t ∈ ts, IsArgument isConst d t) :
    Reads (Syntax.arguments isConst d) (·.mapM Argument.toTree) [.parenL]
      (parensText ts) (ts.map reading) := by
  refine reads_parens ⟨_, Syntax.ensures_argument isConst d⟩ (fun t ht => written_argument (h t ht)) ?_ (by simp)
  rintro _ ⟨s, rfl⟩
  simp

/-- The text of a directive is read back. -/
theorem written_directive {isConst : Bool} {d : Nat} {t : Tree} (h : IsDirective isConst d t) :
    Written (Syntax.directive isConst d) Directive.toTree (· = .punct .at) [.parenL] "" t t.reading := by
  obtain ⟨hname, hargs⟩ := h
  rename_i name form args
  have htext : (Tree.directive name ⟨form, args⟩).chars "" =
      '@' :: (name.toList ++ (parensText args ++ [])) := by
    rw [(printsAs_directive (fun a ha => stable_argument (hargs a ha)) "" name form).chars_eq, parensText]
    simp
  have hread : (Tree.directive name ⟨form, args⟩).reading = .directive name (.tuple (args.map reading)) :=
    reading_eq _
  constructor
  · rw [htext]
    exact starts_punct (by decide) _ _
  · rw [htext, hread]
    refine .expect (by decide) (.name hname (fun k hk => ?_) ?_)
    · rw [List.append_nil]
      exact (opens_parens _).boundary (m := .parenL) (by decide) hk.1
    · refine (reads_arguments hargs).bind (fun k hk => hk) fun as has => .pure ?_
      rw [Directive.toTree, has]
      rfl

theorem opens_directives {isConst : Bool} {d : Nat} {ts : List Tree} (h : ∀ t ∈ ts, IsDirective isConst d t) :
    Opens '@' (directivesText ts) := by
  rw [directivesText, Layout.toList_directives]
  cases ts with
  | nil => exact .inl rfl
  | cons t ts =>
    obtain ⟨hname, hargs⟩ := h t (by simp)
    rename_i name form args
    have hprint := printsAs_directive (fun a ha => stable_argument (hargs a ha)) "" name form
    have hchars : ∀ s : String, ("@" ++ name ++ s).toList = '@' :: (name.toList ++ s.toList) := by simp
    rw [List.map_cons, hprint.printed_eq, series, hchars]
    exact .inr ⟨[' '], _, isBlank_space, rfl⟩

theorem directivesText_ne_nil {ts : List Tree} (h : ts ≠ []) : directivesText ts ≠ [] := by
  obtain ⟨t, ts, rfl⟩ := List.exists_cons_of_ne_nil h
  simp [directivesText, Layout.toList_directives, series]

/-- Directives are read back. -/
theorem reads_directives {isConst : Bool} {d : Nat} {ts : List Tree} (h : ∀ t ∈ ts, IsDirective isConst d t) :
    Reads (Syntax.directives isConst d) Syntax.directiveTrees [.at, .parenL]
      (directivesText ts) (.tuple (ts.map reading)) := by
  have hseries : IsSeries (Syntax.directive isConst d) Directive.toTree (· = .punct .at) (· = .punct .at)
      [.parenL] [' '] [] (chars · "") reading ts := {
    one := ⟨_, Syntax.ensures_directive isConst d⟩
    blank_glue := isBlank_space
    blank_post := isBlank_nil
    reads := fun t ht => (written_directive (h t ht)).reads
    starts := fun t ht => (written_directive (h t ht)).starts
    clear := by simp
    goes := by simp
    boundary := by simp [isBoundary, isNameChar] }
  intro k hk
  obtain ⟨tok, hfront, htok⟩ := hk.2
  rw [directivesText, Layout.toList_directives, series_map]
  obtain ⟨ds, hrun, hds⟩ := hseries.run isBlank_space (hk.mono (by simp))
    ⟨tok, hfront, by simpa using htok .at (by simp)⟩
  refine ⟨ds, hrun, ?_⟩
  rw [Syntax.directiveTrees, hds]
  rfl

end GraphDoc
