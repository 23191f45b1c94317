import GraphDoc.Proofs.Syntax.Documents
import GraphDoc.Proofs.Syntax.Lines

/-!
# Marked texts can be read

Some texts that are printed cannot be read again, or are read as something else: an empty block, a list of
interfaces, an inline fragment without selections. Once the ends of lines are marked, a reader that knows the
layout gets back what was printed in these cases too. So no two definitions that differ in what is printed of
them share a text.
-/

namespace GraphDoc

open GraphDoc.Parser GraphDoc.Tree
open Syntax (Converted Definition Selection maxDepth)
open Tape (ofChars)

variable {α β τ : Type}

/-! ## Marked lines -/

/-- Whether a marked line ends here. -/
def EndsLine (k : List Char) : Prop := k = [] ∨ ∃ rest, k = '&' :: rest

/-- Whether a parser reads the given characters up to the end of a marked line, with the given result. -/
def ReadsLine (p : Parser α) (conv : α → Converted β) (cs : List Char) (r : β) : Prop :=
  ∀ k, EndsLine k → ∃ x, p (ofChars (cs ++ k)) = .ok (x, ofChars k) ∧ conv x = .ok r

/-- A line ends at a mark. -/
theorem endsLine_mark (k : List Char) : EndsLine ('&' :: k) := .inr ⟨k, rfl⟩

/-- Where a line ends, the mark is the one punctuator that may follow. -/
theorem EndsLine.clear {k : List Char} (h : EndsLine k) {bad : List Punct} (hbad : .amp ∉ bad) : Clear bad k := by
  rcases h with rfl | ⟨rest, rfl⟩
  · exact clear_nil bad
  · exact clear_punct (m := .amp) (by decide) hbad rest

/-- Where a line ends, names and numbers end. -/
theorem EndsLine.boundary {k : List Char} (h : EndsLine k) : Boundary k := by
  have hclear : Clear [] k := h.clear (by simp)
  exact hclear.1

/-- No name stands at the end of a line. -/
theorem EndsLine.front {k : List Char} (h : EndsLine k) : ∃ t, (ofChars k).front = some t ∧ ∀ w, t ≠ .name w := by
  rcases h with rfl | ⟨rest, rfl⟩
  · exact ⟨.endOfSource, by rw [Tape.ofChars_nil]; rfl, by simp⟩
  · exact ⟨.punct .amp, by rw [Tape.ofChars_punct (m := .amp) (by decide)]; rfl, by simp⟩

/-- What is read in front of anything clear is read in a line. -/
theorem Reads.line {p : Parser α} {conv : α → Converted β} {bad : List Punct} {cs : List Char} {r : β}
    (h : Reads p conv bad cs r) (hbad : .amp ∉ bad) : ReadsLine p conv cs r :=
  fun k hk => h k (hk.clear hbad)

/-! ## Blocks -/

/-- Lines in braces. -/
def linesText (line : τ → List Char) (last : List Char) (ts : List τ) : List Char :=
  ' ' :: '{' :: '\n' :: (series line [] [] ['\n'] ts ++ (last ++ ['}']))

/-- Marked lines in braces, or nothing at all. -/
def markedLines (item : Parser α) : Parser (List α) := do
  if ← skip .braceL then
    expect .amp
    itemsUntil .braceR do
      let x ← item
      expect .amp
      return x
  else return []

/-- Whether a line of a block is read. -/
structure IsRow (item : Parser α) (conv : α → Converted β) (line : List Char) (r : β) : Prop where
  indented : ∃ cs, line = ' ' :: cs
  front : ∀ k, ∃ tok, (ofChars (marked line ++ '&' :: k)).front = some tok ∧ tok ≠ .punct .braceR
  reads : ReadsLine item conv (marked line) r

/-- Lines between braces, with a mark after the brace and after each line. -/
theorem marked_linesText (line : τ → List Char) {last : List Char} (hlast : IsLine last) (ts : List τ) :
    marked (linesText line last ts) =
      ' ' :: '{' :: '&' :: (series (fun t => marked (line t) ++ ['&']) [] [] [] ts ++ (last ++ ['}'])) := by
  have hrows : marked (series line [] [] ['\n'] ts) = series (fun t => marked (line t) ++ ['&']) [] [] [] ts := by
    induction ts with
    | nil => rfl
    | cons t ts ih =>
      rw [series, series, ← ih]
      simp [marked]
  have hend : marked (last ++ ['}']) = last ++ ['}'] := IsLine.marked_eq (by simp [hlast])
  rw [← hrows, ← hend, ← marked_append]
  rfl

/-- A block is read line by line, and may be empty. -/
theorem reads_lines {item : Parser α} {conv : α → Converted β} {line : τ → List Char} {res : τ → β} {ts : List τ}
    {last : List Char} (hone : ∃ P, Ensures 0 item P) (h : ∀ t ∈ ts, IsRow item conv (line t) (res t))
    (hblank : IsBlank last) (hlast : IsLine last) :
    Reads (markedLines item) (·.mapM conv) [] (marked (linesText line last ts)) (ts.map res) := by
  obtain ⟨P, hone⟩ := hone
  -- each line ends with a mark, so the items need nothing between them
  have hseries : IsSeries (do let x ← item; expect .amp; return x) conv (· ≠ .punct .braceR) (· ≠ .punct .braceR) []
      [] [] (fun t => marked (line t) ++ ['&']) res ts := {
    one := ⟨P, hone.follow fun x hx => (ensures_expect .amp).lead fun _ _ => .pure hx⟩
    blank_glue := isBlank_nil
    blank_post := isBlank_nil
    reads := by
      intro t ht k _
      obtain ⟨x, hrun, hx⟩ := (h t ht).reads ('&' :: k) (endsLine_mark k)
      refine ⟨x, ?_, hx⟩
      rw [List.append_assoc]
      show (item >>= _) (ofChars (marked (line t) ++ '&' :: k)) = _
      rw [bind_run hrun, Tape.ofChars_punct (m := .amp) (by decide), bind_run (expect_run ..)]
      rfl
    starts := by
      intro t ht k _
      obtain ⟨tok, hfront, hne⟩ := (h t ht).front k
      exact ⟨tok, by rw [List.append_assoc]; exact hfront, hne⟩
    clear := by simp
    goes := by simp
    boundary := by
      intro t ht k
      obtain ⟨cs, hcs⟩ := (h t ht).indented
      simp [hcs, marked, isBoundary, isNameChar] }
  rw [marked_linesText line hlast]
  refine .space (.skip (by decide) (.expect (by decide) ?_))
  exact Reads.itemsUntil hseries isBlank_nil hblank (by decide) (by simp)

/-- Where no brace follows there are no lines. -/
theorem reads_noLines {item : Parser α} {conv : α → Converted β} :
    Reads (markedLines item) (·.mapM conv) [.braceL] [] [] :=
  .pass (fun _ hk => hk.2) (.pure rfl)

/-! ## Selections -/

/-- A marked selection set, which may be left out. -/
def markedSet : (depth : Nat) → Parser (List Selection)
  | 0 => return []
  | depth + 1 => markedLines (Syntax.selection depth (markedSet depth))

/-- A selection set is printed as lines between braces, one level deeper. -/
theorem setText_eq (indent : String) {sels : List Tree} (h : sels ≠ []) :
    setText indent sels = linesText (chars · (indent ++ Layout.step)) indent.toList sels := by
  rw [setText, if_neg h]
  rfl

/-- Whether an indent is made of spaces. -/
def IsIndent (indent : String) : Prop := ∀ c ∈ indent.toList, c = ' '

/-- An indent gives no token. -/
theorem IsIndent.isBlank {indent : String} (h : IsIndent indent) : IsBlank indent.toList := by
  intro c hc
  rw [h c hc]
  decide

/-- An indent is a line. -/
theorem IsIndent.isLine {indent : String} (h : IsIndent indent) : IsLine indent.toList := by
  intro c hc
  obtain rfl := h c hc
  decide

/-- One step more is an indent again. -/
theorem IsIndent.deeper {indent : String} (h : IsIndent indent) : IsIndent (indent ++ Layout.step) := by
  intro c hc
  rw [String.toList_append, List.mem_append] at hc
  rcases hc with hc | hc
  · exact h c hc
  · simpa [Layout.step] using hc

/-- Whether a reader of selection sets gets back the marked ones. -/
def ReadsSets (d : Nat) (nested : Parser (List Selection)) : Prop :=
  ∀ {sels : List Tree} {indent : String}, IsIndent indent → (sels = [] ∨ 0 < d) →
    (∀ s ∈ sels, IsSelection true (d - 1) s) →
    Reads nested (·.mapM Selection.toTree) [.braceL] (marked (setText indent sels)) (sels.map reading)

/-- A selection set opens with a brace, or is not printed at all. -/
theorem opens_markedSet (indent : String) (sels : List Tree) : Opens '{' (marked (setText indent sels)) := by
  unfold setText
  split
  · exact .inl rfl
  · exact .inr ⟨[' '], _, isBlank_space, rfl⟩

/-- A set that selects something is printed. -/
theorem markedSet_ne_nil {sels : List Tree} (h : sels ≠ []) (indent : String) : marked (setText indent sels) ≠ [] := by
  simp [setText, h, marked]

section Row

variable {d : Nat} {nested : Parser (List Selection)} {indent : String} {dirs sels : List Tree} {k : List Char}

/-- What stands behind the head of a selection does not go on with it. -/
theorem clear_markedSet (hk : EndsLine k) (indent : String) (sels : List Tree) {bad : List Punct}
    (hbad : .braceL ∉ bad ∧ .amp ∉ bad) :
    Clear bad (marked (setText indent sels) ++ k) :=
  (opens_markedSet indent sels).clear (m := .braceL) (by decide) hbad.1 (hk.clear hbad.2)

/-- No name goes on into a selection set. -/
theorem boundary_markedSet (hk : EndsLine k) (indent : String) (sels : List Tree) :
    Boundary (marked (setText indent sels) ++ k) :=
  (opens_markedSet indent sels).boundary (m := .braceL) (by decide) hk.boundary

/-- The selections of a field are read, or found to be missing. -/
theorem completed_run (hn : ReadsSets d nested) (hindent : IsIndent indent)
    (hdepth : sels = [] ∨ 0 < d) (hsels : ∀ s ∈ sels, IsSelection true (d - 1) s) (hk : EndsLine k)
    (finish : Option (List Selection) → Selection) :
    ∃ set, completed nested finish (ofChars (marked (setText indent sels) ++ k)) = .ok (finish set, ofChars k) ∧
      Selection.setTrees set = .ok (.tuple (sels.map reading)) := by
  -- without a brace in front, the field has no set at all
  by_cases hempty : sels = []
  · subst hempty
    have hclear : Clear [.braceL] k := hk.clear (by simp)
    obtain ⟨t, hfront, ht⟩ := hclear.2
    refine ⟨Option.none, ?_, rfl⟩
    rw [setText, if_pos rfl]
    show completed nested finish (ofChars k) = _
    rw [completed, bind_run (peek_run hfront), if_neg (ht .braceL (by simp))]
    rfl
  · have hfront := (opens_markedSet indent sels).front (m := .braceL) (by decide) (markedSet_ne_nil hempty indent) k
    obtain ⟨set, hrun, hset⟩ := hn hindent hdepth hsels k (hk.clear (by simp))
    refine ⟨some set, ?_, ?_⟩
    · rw [completed, bind_run (peek_run hfront), if_pos rfl, bind_map_left, bind_run hrun]
      rfl
    · have hset : set.mapM Selection.toTree = .ok (sels.map reading) := hset
      rw [Selection.setTrees, Syntax.selectionTrees_eq_mapM, hset]
      rfl

/-- A line of a block that starts with an indent and a token. -/
theorem isRow_indented {item : Parser α} {conv : α → Converted β} {head : List Char} {r : β}
    (hindent : IsIndent indent) (hsome : indent.toList ≠ [])
    (hfront : ∀ k, EndsLine k → ∃ t, (ofChars (marked head ++ k)).front = some t ∧ t ≠ .punct .braceR)
    (hreads : ReadsLine item conv (marked head) r) : IsRow item conv (indent.toList ++ head) r where
  indented := by
    obtain ⟨c, cs, hcs⟩ := List.exists_cons_of_ne_nil hsome
    obtain rfl : c = ' ' := hindent c (by simp [hcs])
    exact ⟨cs ++ head, by rw [hcs]; rfl⟩
  front := by
    intro k
    rw [marked_append, hindent.isLine.marked_eq, List.append_assoc, ofChars_blank hindent.isBlank]
    exact hfront _ (endsLine_mark k)
  reads := by
    intro k hk
    rw [marked_append, hindent.isLine.marked_eq, List.append_assoc, ofChars_blank hindent.isBlank]
    exact hreads k hk

/-- The text of an inline fragment without a type condition goes on with a punctuator, or the line ends: no name
stands behind its dots. -/
theorem front_inlineParts (hdirs : ∀ t ∈ dirs, IsDirective false d t) (hk : EndsLine k) (indent : String) :
    ∃ t, (ofChars (directivesText dirs ++ (marked (setText indent sels) ++ k))).front = some t ∧
      ∀ w, t ≠ .name w := by
  by_cases hd : dirs = []
  · subst hd
    by_cases hs : sels = []
    · subst hs
      exact hk.front
    · have hbrace := (opens_markedSet indent sels).front (m := .braceL) (by decide) (markedSet_ne_nil hs indent) k
      exact ⟨_, hbrace, by simp⟩
  · have hat := (opens_directives hdirs).front (m := .at) (by decide) (directivesText_ne_nil hd)
      (marked (setText indent sels) ++ k)
    exact ⟨_, hat, by simp⟩

/-- A field is a row of its set: its mark ends it. -/
theorem isRow_field (hn : ReadsSets d nested) {name : String} {aliasName : Option String} {args : List Tree}
    {fa fd fs : SeqForm} (hname : isName name = true) (halias : IsLabel aliasName)
    (hargs : ∀ a ∈ args, IsArgument false d a) (hdirs : ∀ t ∈ dirs, IsDirective false d t)
    (hdepth : sels = [] ∨ 0 < d) (hsels : ∀ s ∈ sels, IsSelection true (d - 1) s) (hindent : IsIndent indent)
    (hsome : indent.toList ≠ []) :
    IsRow (Syntax.selection d nested) Selection.toTree
      ((Tree.field name aliasName ⟨fa, args⟩ ⟨fd, dirs⟩ ⟨fs, sels⟩).chars indent)
      (Tree.field name aliasName ⟨fa, args⟩ ⟨fd, dirs⟩ ⟨fs, sels⟩).reading := by
  -- the head is one line; only the selections have marks in them
  have htext : ∀ k, marked (fieldHead name aliasName args dirs ++ setText indent sels) ++ k =
      fieldHead name aliasName args dirs ++ (marked (setText indent sels) ++ k) := by
    intro k
    rw [marked_append, (isLine_fieldHead hname halias hargs hdirs).marked_eq, List.append_assoc]
  have hfront : ∀ k, EndsLine k → ∃ w, (ofChars (fieldHead name aliasName args dirs ++
      (marked (setText indent sels) ++ k))).front = some (.name w) :=
    fun k hk => front_fieldHead hname halias hdirs (boundary_markedSet hk indent sels)
  rw [chars_field hargs hdirs hsels]
  refine isRow_indented hindent hsome (fun k hk => ?_) fun k hk => ?_
  · obtain ⟨w, hw⟩ := hfront k hk
    exact ⟨.name w, by rw [htext, hw], by simp⟩
  · have hclear : Clear [.colon, .parenL, .at] (marked (setText indent sels) ++ k) :=
      clear_markedSet hk indent sels (by simp)
    obtain ⟨as, ds, has, hds, hrun⟩ := field_run hname halias hargs hdirs hclear
    obtain ⟨set, hset, htrees⟩ := completed_run hn hindent hdepth hsels hk
      (.field (aliasName.filter (· ≠ "")) name as ds)
    obtain ⟨w, hw⟩ := hfront k hk
    refine ⟨.field (aliasName.filter (· ≠ "")) name as ds set, ?_, ?_⟩
    · rw [htext, selection_run_field hw (by simp), hrun, hset]
    · rw [Selection.toTree, has, hds, htrees, reading_field]
      rfl

/-- A spread is a row of its set. -/
theorem isRow_spread {name : String} {fd : SeqForm} (hname : isName name = true) (hon : name ≠ "on")
    (hdirs : ∀ t ∈ dirs, IsDirective false d t) (hindent : IsIndent indent) (hsome : indent.toList ≠ []) :
    IsRow (Syntax.selection d nested) Selection.toTree ((Tree.fragmentSpread name ⟨fd, dirs⟩).chars indent)
      (Tree.fragmentSpread name ⟨fd, dirs⟩).reading := by
  have htext : ∀ k, marked ('.' :: '.' :: '.' :: (name.toList ++ directivesText dirs)) ++ k =
      '.' :: '.' :: '.' :: (name.toList ++ (directivesText dirs ++ k)) := by
    intro k
    rw [IsLine.marked_eq (by simp [isLine_name hname, isLine_directives hdirs])]
    simp
  rw [chars_fragmentSpread hdirs]
  refine isRow_indented hindent hsome (fun k _ => ?_) fun k hk => ?_
  · rw [htext, Tape.ofChars_spread]
    exact ⟨.punct .spread, rfl, by simp⟩
  · rw [htext, Tape.ofChars_spread, reading_fragmentSpread]
    exact (settles_spread hname hon hdirs (hk.clear (by simp)) _).reads _ rfl

/-- An inline fragment is a row of its set, even without selections. -/
theorem isRow_inline (hn : ReadsSets d nested) {type : Tree} {fd fs : SeqForm} (htype : IsCondition type)
    (hdirs : ∀ t ∈ dirs, IsDirective false d t) (hdepth : sels = [] ∨ 0 < d)
    (hsels : ∀ s ∈ sels, IsSelection true (d - 1) s) (hindent : IsIndent indent) (hsome : indent.toList ≠ []) :
    IsRow (Syntax.selection d nested) Selection.toTree
      ((Tree.inlineFragment type ⟨fd, dirs⟩ ⟨fs, sels⟩).chars indent)
      (Tree.inlineFragment type ⟨fd, dirs⟩ ⟨fs, sels⟩).reading := by
  -- the dots, the condition and the directives are one line
  have htext : ∀ k, marked ('.' :: '.' :: '.' :: ((conditionText type).toList ++
      (directivesText dirs ++ setText indent sels))) ++ k = '.' :: '.' :: '.' :: ((conditionText type).toList ++
        (directivesText dirs ++ (marked (setText indent sels) ++ k))) := by
    intro k
    show '.' :: '.' :: '.' :: (marked _ ++ k) = _
    rw [marked_append, marked_append, (isLine_condition htype).marked_eq, (isLine_directives hdirs).marked_eq]
    simp
  rw [chars_inlineFragment htype hdirs hsels]
  refine isRow_indented hindent hsome (fun k _ => ?_) fun k hk => ?_
  · rw [htext, Tape.ofChars_spread]
    exact ⟨.punct .spread, rfl, by simp⟩
  · have hclear : Clear [.at, .parenL] (marked (setText indent sels) ++ k) :=
      clear_markedSet hk indent sels (by simp)
    have hbound := (opens_directives hdirs).boundary (m := .at) (by decide) hclear.1
    obtain ⟨ds, hdrun, hds⟩ := reads_directives hdirs _ hclear
    obtain ⟨set, hsrun, hset⟩ := hn hindent hdepth hsels k (hk.clear (by simp))
    have hset : set.mapM Selection.toTree = .ok (sels.map reading) := hset
    refine ⟨.inline (conditionName type) ds (some set), ?_, ?_⟩
    · rw [htext, inline_run htype hbound fun _ => front_inlineParts hdirs hk indent, inlineBody, bind_run hdrun,
        bind_run hsrun]
      rfl
    · rw [Selection.toTree, hds, Selection.setTrees, Syntax.selectionTrees_eq_mapM, hset,
        conditionTree_conditionName htype, reading_inlineFragment]
      rfl

/-- A marked selection is read. -/
theorem isRow_selection (hn : ReadsSets d nested) {t : Tree} (h : IsSelection true d t) (hindent : IsIndent indent)
    (hsome : indent.toList ≠ []) :
    IsRow (Syntax.selection d nested) Selection.toTree (t.chars indent) t.reading := by
  cases h with
  | field hname halias hargs hdirs hdepth hsels =>
    exact isRow_field hn hname halias hargs hdirs hdepth hsels hindent hsome
  | spread hname hon hdirs => exact isRow_spread hname hon hdirs hindent hsome
  | inline htype hdirs _ hdepth hsels => exact isRow_inline hn htype hdirs hdepth hsels hindent hsome

end Row

/-- Reading a selection goes on from where it is, if reading the nested sets does. -/
theorem ensures_readSelection {d : Nat} {nested : Parser (List Selection)} (h : Ensures 0 nested fun _ => True) :
    Ensures 0 (Syntax.selection d nested) fun _ => True := by
  have hdirs : Ensures 0 (Syntax.directives false d) fun _ => True :=
    (Syntax.ensures_directives false d).mono (Nat.le_refl 0) fun _ _ => trivial
  have hname : Ensures 0 name fun _ => True := ensures_name.mono (Nat.zero_le 1) fun _ _ => trivial
  have hinline : ∀ type, Ensures 0 (inlineBody d nested type) fun _ => True :=
    fun type => hdirs.follow fun ds _ => h.follow fun set _ => .pure trivial
  have hbody : ∀ first second, Ensures 0 (fieldBody d nested first second) fun _ => True := by
    intro first second
    refine (Syntax.ensures_arguments false d).follow fun as _ =>
      hdirs.follow fun ds _ => .peek fun t _ => EnsuresOn.at ?_ t
    exact .join (P := fun _ => True) (fun _ => h.map fun _ _ => trivial) (fun _ => .pure trivial)
      fun set _ => .pure trivial
  refine .peek fun t _ => EnsuresOn.at (.ite (fun _ => ?_) fun _ => ?_) t
  · refine (ensures_expect .spread).follow fun _ _ => (ensures_skipKeyword "on").follow fun b _ =>
      .ite (fun _ => hname.follow fun type _ => hinline (some type)) fun _ => .peek fun t _ => ?_
    split
    · exact EnsuresOn.at (Syntax.ensures_fragmentName.follow fun w _ => hdirs.follow fun ds _ => .pure trivial) _
    · exact EnsuresOn.at (hinline Option.none) _
  · rw [field_eq]
    refine hname.follow fun first _ => (ensures_skip .colon).follow fun b _ => .ite (fun _ => ?_) fun _ => hbody first _
    exact (hname.map (Q := fun _ => True) fun _ _ => trivial).follow fun second _ => hbody first second

/-- Reading a marked set goes on from where it is. -/
theorem ensures_markedSet (d : Nat) : Ensures 0 (markedSet d) fun _ => True := by
  induction d with
  | zero => exact .pure trivial
  | succ d ih =>
    have hitem := (ensures_readSelection (d := d) ih).lead fun x _ =>
      (ensures_expect (L := Token.Lexical) .amp).follow fun _ _ => EnsuresOn.pure (P := fun _ => True) (a := x) trivial
    refine (ensures_skip .braceL).follow fun b _ => .ite (fun _ => ?_) fun _ => .pure trivial
    exact (ensures_expect .amp).follow fun _ _ => (ensures_itemsUntil hitem).mono (Nat.zero_le 1) fun _ _ => trivial

/-- A marked selection set is read. -/
theorem readsSets_markedSet (d : Nat) : ReadsSets d (markedSet d) := by
  induction d with
  | zero =>
    intro sels indent _ hdepth _
    obtain rfl : sels = [] := hdepth.resolve_right (by omega)
    exact .pure rfl
  | succ d ih =>
    intro sels indent hindent _ hsels
    by_cases hempty : sels = []
    · subst hempty
      exact reads_noLines
    · rw [setText_eq indent hempty]
      refine (reads_lines ⟨_, ensures_readSelection (ensures_markedSet d)⟩ (fun s hs => ?_) hindent.isBlank
        hindent.isLine).mono (by simp)
      exact isRow_selection ih (hsels s hs) hindent.deeper (by simp [Layout.step])

end GraphDoc
