import GraphDoc.Proofs.Syntax.Blocks
import GraphDoc.Proofs.Tree.Strict
import Mathlib.Algebra.BigOperators.Group.List.Basic

/-!
# Indentation

A definition with selections, or a selection, is printed as an outline: a line that opens it, the outlines of its
selections one level deeper, and a line that closes it if it has any. An indent stands in front of every line, and
nothing inside a line depends on it, since arguments, directives and values are printed in one line.
-/

namespace GraphDoc

open GraphDoc.Tree

namespace Text

/-- The lines of a text, cut at its line feeds. -/
def lines (text : String) : List String := (text.toList.splitOn '\n').map String.ofList

/-- The text with an indent in front of every line. -/
def shift (indent text : String) : String := "\n".intercalate ((lines text).map (indent ++ ·))

end Text

/-! ## Outlines -/

/-- A line of an outline: it opens a node or closes its selections, so many levels deep. -/
inductive OutlineLine
  | opens (depth : Nat) (node : Tree)
  | closes (depth : Nat)

namespace Tree

/-- The selections of a node. -/
def selections : Tree → List Tree
  | .field _ _ _ _ s | .inlineFragment _ _ s | .operation _ _ _ _ s | .fragment _ _ _ s => s.items
  | _ => []

/-- The node without its selections. -/
def withoutSelections : Tree → Tree
  | .field n m a d s => .field n m a d ⟨s.form, []⟩
  | .inlineFragment t d s => .inlineFragment t d ⟨s.form, []⟩
  | .operation k n a d s => .operation k n a d ⟨s.form, []⟩
  | .fragment n t d s => .fragment n t d ⟨s.form, []⟩
  | t => t

/-- Selections are among the parts of a node. -/
theorem mem_children_of_mem_selections {t s : Tree} (h : s ∈ t.selections) : s ∈ t.children := by
  cases t
  case field | inlineFragment | operation | fragment => simp_all [selections, children]
  all_goals cases h

/-- The lines of a node that stands the given number of levels deep. -/
def outline (depth : Nat) (t : Tree) : List OutlineLine :=
  .opens depth t ::
    if t.selections = [] then []
    else (t.selections.attach.flatMap fun s =>
      have := sizeOf_lt_of_mem_children (mem_children_of_mem_selections s.2)
      s.1.outline (depth + 1)) ++ [.closes depth]
termination_by sizeOf t

/-- The node and all selections below it. -/
def selected (t : Tree) : List Tree :=
  t :: t.selections.attach.flatMap fun s =>
    have := sizeOf_lt_of_mem_children (mem_children_of_mem_selections s.2)
    s.1.selected
termination_by sizeOf t

/-- A node opens one line, then come the lines of its selections one level deeper and the closing brace. -/
theorem outline_eq (depth : Nat) (t : Tree) :
    t.outline depth = .opens depth t ::
      if t.selections = [] then [] else t.selections.flatMap (outline (depth + 1)) ++ [.closes depth] := by
  rw [outline]
  simp

/-- What is selected in a node is the node itself and what is selected in its selections. -/
theorem selected_eq (t : Tree) : t.selected = t :: t.selections.flatMap selected := by
  rw [selected]
  simp

end Tree

/-- The characters of a line: two spaces for each level, then the node without its selections and the brace that opens
them, or the brace that closes them. -/
def OutlineLine.chars : OutlineLine → List Char
  | .opens depth t => List.replicate (2 * depth) ' ' ++
      (t.withoutSelections.chars "" ++ if t.selections = [] then [] else [' ', '{'])
  | .closes depth => List.replicate (2 * depth) ' ' ++ ['}']

/-! ## Nodes with a head -/

namespace Tree

/-- Whether a node is printed as its head, in one line that starts with no space, and its selections. -/
structure IsHeaded (t : Tree) : Prop where
  chars_eq : ∀ indent, t.chars indent = indent.toList ++ (t.withoutSelections.chars "" ++ setText indent t.selections)
  isLine : IsLine (t.withoutSelections.chars "")
  starts : ∃ c cs, t.withoutSelections.chars "" = c :: cs ∧ c ≠ ' '

/-- What is printed in front of any selections is the head. -/
theorem IsHeaded.of_head (node : List Tree → Tree) {head : List Char} {d : Nat} {sels : List Tree} {c : Char}
    {cs : List Char} (h : ∀ ss, (∀ s ∈ ss, IsSelection true d s) → ∀ indent,
      (node ss).chars indent = indent.toList ++ (head ++ setText indent ss))
    (hsels : ∀ s ∈ sels, IsSelection true d s) (hset : (node sels).selections = sels)
    (hbare : (node sels).withoutSelections = node []) (hline : IsLine head) (hhead : head = c :: cs) (hc : c ≠ ' ') :
    IsHeaded (node sels) := by
  have hbareText : (node sels).withoutSelections.chars "" = head := by
    rw [hbare, h [] (by simp) ""]
    simp [setText]
  refine ⟨fun indent => ?_, hbareText ▸ hline, c, cs, hbareText.trans hhead, hc⟩
  rw [hbareText, hset]
  exact h sels hsels indent

/-- A text that opens with a name does not open with a space. -/
theorem exists_cons_of_isName {name : String} (h : isName name = true) (k : List Char) :
    ∃ c cs, name.toList ++ k = c :: cs ∧ c ≠ ' ' := by
  obtain ⟨c, cs, hcs, hc, -⟩ := isName_iff.1 h
  refine ⟨c, cs ++ k, by rw [hcs, List.cons_append], ?_⟩
  rintro rfl
  cases hc

/-- A selection prints its own line first, and that line is no margin. -/
theorem isHeaded_selection {d : Nat} {t : Tree} (h : IsSelection true d t) : IsHeaded t := by
  cases h with
  | @field _ name aliasName fa fd fs args dirs sels hname halias hargs hdirs hdepth hsels =>
    obtain ⟨c, cs, hhead, hc⟩ : ∃ c cs, fieldHead name aliasName args dirs = c :: cs ∧ c ≠ ' ' := by
      rcases isLabel_cases halias with ⟨htext, -⟩ | ⟨s, hs, htext, -⟩
      · rw [fieldHead, htext]
        exact exists_cons_of_isName hname _
      · rw [fieldHead, htext, String.toList_append, List.append_assoc]
        exact exists_cons_of_isName hs _
    exact .of_head (fun ss => .field name aliasName ⟨fa, args⟩ ⟨fd, dirs⟩ ⟨fs, ss⟩)
      (fun ss hss indent => chars_field hargs hdirs hss indent) hsels rfl rfl
      (isLine_fieldHead hname halias hargs hdirs) hhead hc
  | @spread _ name fd dirs hname hon hdirs =>
    have htext : ∀ indent, (Tree.fragmentSpread name ⟨fd, dirs⟩).chars indent = _ := chars_fragmentSpread hdirs
    refine ⟨fun indent => ?_, ?_, '.', _, htext "", by decide⟩
    · simp [htext, withoutSelections, selections, setText]
    · simp [htext, withoutSelections, isLine_name hname, isLine_directives hdirs]
  | @inline _ type fd fs dirs sels htype hdirs hsome hdepth hsels =>
    have hline : IsLine ('.' :: '.' :: '.' :: ((conditionText type).toList ++ directivesText dirs)) := by
      simp [isLine_condition htype, isLine_directives hdirs]
    refine .of_head (fun ss => .inlineFragment type ⟨fd, dirs⟩ ⟨fs, ss⟩) (fun ss hss indent => ?_) hsels rfl rfl hline rfl
      (by decide)
    rw [chars_inlineFragment htype hdirs hss]
    simp

/-- An operation or a fragment prints its own line first too. -/
theorem isHeaded_executable {t : Tree} (h : IsExecutable true t) : IsHeaded t := by
  cases h with
  | @operation kind name fv fd fs vars dirs sels hname hvars hdirs hsels =>
    obtain ⟨c, cs, hhead, hc⟩ := exists_cons_of_isName (isName_keyword kind)
      ((nameText name).toList ++ partsText vars dirs)
    have hline : IsLine (kind.keyword.toList ++ ((nameText name).toList ++ partsText vars dirs)) := by
      simp [partsText, isLine_name (isName_keyword kind), isLine_nameText hname, isLine_directives hdirs,
        isLine_parens fun v hv => isLine_variable (hvars v hv)]
    refine .of_head (fun ss => .operation kind.keyword name ⟨fv, vars⟩ ⟨fd, dirs⟩ ⟨fs, ss⟩) (fun ss hss indent => ?_)
      hsels.2 rfl rfl hline hhead hc
    rw [(printsAs_operation (fun v hv => stable_variable (hvars v hv)) (fun t ht => stable_directive (hdirs t ht))
      (fun s hs => stable_selection (hss s hs) (indent ++ Layout.step)) _ _ _ _ _).chars_eq, partsText,
      ← toList_selections_printed, parensText, directivesText]
    simp
  | @fragment name type fd fs dirs sels hname hon htype hdirs hsels =>
    refine .of_head (fun ss => .fragment name (.typeName type) ⟨fd, dirs⟩ ⟨fs, ss⟩) (fun ss hss indent => ?_) hsels.2 rfl
      rfl (isLine_fragmentHead hname htype hdirs) rfl (by decide)
    rw [(printsAs_fragment (fun t ht => stable_directive (hdirs t ht))
      (fun s hs => stable_selection (hss s hs) (indent ++ Layout.step)) _ _ _ _).chars_eq,
      ← toList_selections_printed, directivesText]
    simp

/-! ## Where such nodes stand -/

/-- Whether nothing directly inside a node is printed at an indent but its selections. -/
structure HoldsSelections (t : Tree) : Prop where
  children : ∀ c ∈ t.children, IsFlat c ∨ c ∈ t.selections
  selections : ∀ s ∈ t.selections, ∃ d, IsSelection true d s

/-- The selections of a field or an inline fragment are selections again. -/
theorem holdsSelections_selection {d : Nat} {t : Tree} (h : IsSelection true d t) : HoldsSelections t := by
  cases h with
  | field hname halias hargs hdirs hdepth hsels =>
    refine ⟨List.forall_mem_append.2 ⟨List.forall_mem_append.2 ⟨?_, ?_⟩, fun s hs => .inr hs⟩, fun s hs => ⟨_, hsels s hs⟩⟩
    · exact fun a ha => .inl (hargs a ha).isFlat
    · exact fun t ht => .inl (hdirs t ht).isFlat
  | spread hname hon hdirs => exact ⟨fun t ht => .inl (hdirs t ht).isFlat, by simp [Tree.selections]⟩
  | inline htype hdirs hsome hdepth hsels =>
    refine ⟨List.forall_mem_cons.2 ⟨.inl (isFlat_condition htype), List.forall_mem_append.2 ⟨?_, fun s hs => .inr hs⟩⟩,
      fun s hs => ⟨_, hsels s hs⟩⟩
    exact fun t ht => .inl (hdirs t ht).isFlat

/-- The selections of an operation or a fragment are selections. -/
theorem holdsSelections_executable {t : Tree} (h : IsExecutable true t) : HoldsSelections t := by
  cases h with
  | operation hname hvars hdirs hsels =>
    refine ⟨List.forall_mem_append.2 ⟨List.forall_mem_append.2 ⟨?_, ?_⟩, fun s hs => .inr hs⟩,
      fun s hs => ⟨_, hsels.2 s hs⟩⟩
    · exact fun v hv => .inl (hvars v hv).isFlat
    · exact fun t ht => .inl (hdirs t ht).isFlat
  | fragment hname hon htype hdirs hsels =>
    refine ⟨List.forall_mem_cons.2 ⟨.inl (isFlat_leaf rfl rfl), List.forall_mem_append.2 ⟨?_, fun s hs => .inr hs⟩⟩,
      fun s hs => ⟨_, hsels.2 s hs⟩⟩
    exact fun t ht => .inl (hdirs t ht).isFlat

/-- What is printed at an indent inside a selection is a selection. -/
theorem isSelection_of_mem_nodes {t n : Tree} (h : ∃ d, IsSelection true d t) (hn : n ∈ t.nodes)
    (hindented : n.isIndented = true) : ∃ d, IsSelection true d n := by
  induction t using induction_on_children with
  | step t ih =>
    rcases mem_nodes.1 hn with rfl | ⟨c, hc, hmem⟩
    · exact h
    · obtain ⟨d, hd⟩ := h
      have hholds := holdsSelections_selection hd
      rcases hholds.children c hc with hflat | hsel
      · exact absurd (hflat n hmem) (by simp [hindented])
      · exact ih c hc (hholds.selections c hsel) hmem

/-- What is printed at an indent inside a definition is the definition itself or a selection. -/
theorem isIndented_cases {t n : Tree} (h : IsDefinition t) (hn : n ∈ t.nodes) (hindented : n.isIndented = true) :
    IsExecutable true n ∨ ∃ d, IsSelection true d n := by
  rcases h with h | h
  · rcases mem_nodes.1 hn with rfl | ⟨c, hc, hmem⟩
    · exact .inl h
    · have hholds := holdsSelections_executable h
      rcases hholds.children c hc with hflat | hsel
      · exact absurd (hflat n hmem) (by simp [hindented])
      · exact .inr (isSelection_of_mem_nodes (hholds.selections c hsel) hmem hindented)
  · exact absurd (h.isFlat n hn) (by simp [hindented])

/-- A selection and all selections below it have a head. -/
theorem isHeaded_of_mem_selected {t s : Tree} (h : ∃ d, IsSelection true d t) (hs : s ∈ t.selected) : IsHeaded s := by
  induction t using induction_on_children with
  | step t ih =>
    obtain ⟨d, hd⟩ := h
    rw [selected_eq, List.mem_cons, List.mem_flatMap] at hs
    rcases hs with rfl | ⟨c, hc, hs⟩
    · exact isHeaded_selection hd
    · exact ih c (mem_children_of_mem_selections hc) ((holdsSelections_selection hd).selections c hc) hs

/-- Whether the node and all selections below it have a head. -/
def IsOutlined (t : Tree) : Prop := ∀ s ∈ t.selected, IsHeaded s

/-- A node is outlined when it is headed and its selections are outlined. -/
theorem isOutlined_iff {t : Tree} : IsOutlined t ↔ IsHeaded t ∧ ∀ s ∈ t.selections, IsOutlined s := by
  simp only [IsOutlined, selected_eq t, List.forall_mem_cons, List.mem_flatMap, forall_exists_index, and_imp]
  exact and_congr_right fun _ => ⟨fun h s hs n hn => h n s hs hn, fun h n s hs hn => h s hs n hn⟩

/-- Every indented node of a definition is outlined. -/
theorem isOutlined_of_isIndented {t n : Tree} (h : IsDefinition t) (hn : n ∈ t.nodes) (hindented : n.isIndented = true) :
    IsOutlined n := by
  rcases isIndented_cases h hn hindented with h | h
  · exact isOutlined_iff.2 ⟨isHeaded_executable h,
      fun s hs n hn => isHeaded_of_mem_selected ((holdsSelections_executable h).selections s hs) hn⟩
  · exact fun s hs => isHeaded_of_mem_selected h hs

end Tree

/-! ## Lines of outlines -/

/-- Joining two lists joins each and puts the glue between. -/
theorem intercalate_append {α : Type} (glue : List α) {xs ys : List (List α)} (hxs : xs ≠ []) (hys : ys ≠ []) :
    glue.intercalate (xs ++ ys) = glue.intercalate xs ++ (glue ++ glue.intercalate ys) := by
  induction xs with
  | nil => exact absurd rfl hxs
  | cons x xs ih =>
    rw [List.cons_append, List.intercalate_cons_of_ne_nil (by simp [hys])]
    by_cases hnil : xs = []
    · simp [hnil]
    · rw [ih hnil, List.intercalate_cons_of_ne_nil hnil, List.append_assoc, List.append_assoc, List.append_assoc]

/-- Selections in print, with a last line below them, are the lines of all of them and the last one. -/
theorem series_eq_intercalate {sels : List Tree} {indent : String} {lines : Tree → List (List Char)}
    (h : ∀ s ∈ sels, s.chars indent = ['\n'].intercalate (lines s)) (hsome : ∀ s, lines s ≠ []) (last : List Char) :
    series (chars · indent) [] [] ['\n'] sels ++ last = ['\n'].intercalate (sels.flatMap lines ++ [last]) := by
  induction sels with
  | nil => simp [series]
  | cons s sels ih =>
    rw [List.flatMap_cons, List.append_assoc, intercalate_append _ (hsome s) (by simp), series, List.nil_append,
      h s (by simp), ← ih fun s hs => h s (List.mem_cons_of_mem _ hs)]
    simp

/-- The spaces in front of what stands the given number of levels deep. -/
def levels (depth : Nat) : String := String.ofList (List.replicate (2 * depth) ' ')

/-- One more level of depth is one more step of indent. -/
theorem levels_succ (indent : String) (depth : Nat) :
    indent ++ levels depth ++ Layout.step = indent ++ levels (depth + 1) := by
  rw [← String.toList_inj]
  simp [levels, Layout.step, Nat.mul_add, List.replicate_add]

/-- Every node has at least its opening line. -/
theorem outline_ne_nil (depth : Nat) (t : Tree) : t.outline depth ≠ [] := by
  rw [outline_eq]
  simp

/-- A node is printed as its outline, with the indent in front of every line. -/
theorem chars_eq_outline {t : Tree} (h : IsOutlined t) (indent : String) (depth : Nat) :
    t.chars (indent ++ levels depth) =
      ['\n'].intercalate ((t.outline depth).map fun line => indent.toList ++ line.chars) := by
  induction t using induction_on_children generalizing depth with
  | step t ih =>
    obtain ⟨hhead, hsels⟩ := isOutlined_iff.1 h
    rw [hhead.chars_eq, outline_eq]
    by_cases hempty : t.selections = []
    · simp [hempty, setText, OutlineLine.chars, levels]
    · have hdeeper : ∀ s ∈ t.selections, s.chars (indent ++ levels depth ++ Layout.step) =
          ['\n'].intercalate ((s.outline (depth + 1)).map fun line => indent.toList ++ line.chars) := by
        intro s hs
        rw [levels_succ]
        exact ih s (mem_children_of_mem_selections hs) (hsels s hs) (depth + 1)
      have hrows := series_eq_intercalate hdeeper (fun s => by simp [outline_ne_nil])
        (indent.toList ++ (OutlineLine.closes depth).chars)
      rw [setText_eq _ hempty, linesText, if_neg hempty, List.map_cons, List.map_append,
        List.map_flatMap, List.map_singleton, List.intercalate_cons_of_ne_nil (by simp), ← hrows]
      simp [OutlineLine.chars, hempty, levels]

/-- A line of the outline that opens a node opens a selected one. -/
theorem mem_selected_of_opens {t s : Tree} {depth k : Nat} (h : .opens k s ∈ t.outline depth) : s ∈ t.selected := by
  induction t using induction_on_children generalizing depth with
  | step t ih =>
    rw [outline_eq, List.mem_cons] at h
    rw [selected_eq, List.mem_cons, List.mem_flatMap]
    rcases h with h | h
    · cases h
      exact .inl rfl
    · split at h
      · cases h
      · rcases List.mem_append.1 h with h | h
        · obtain ⟨c, hc, h⟩ := List.mem_flatMap.1 h
          exact .inr ⟨c, hc, ih c (mem_children_of_mem_selections hc) h⟩
        · simp at h

/-- No line of the outline holds a line feed. -/
theorem isLine_outline {t : Tree} (h : IsOutlined t) {depth : Nat} {line : OutlineLine} (hline : line ∈ t.outline depth) :
    IsLine line.chars := by
  have hspaces : ∀ n, IsLine (List.replicate n ' ') := by
    intro n c hc
    obtain rfl := List.eq_of_mem_replicate hc
    exact Char.le_refl ' '
  cases line with
  | opens k s =>
    have hhead := (h s (mem_selected_of_opens hline)).isLine
    rw [OutlineLine.chars]
    split <;> simp [hspaces, hhead]
  | closes k => simp [OutlineLine.chars, hspaces]

/-- A node has a line for itself, one for each selection below it, and one for each set of selections that is closed. -/
theorem length_outline (t : Tree) (depth : Nat) :
    (t.outline depth).length = t.selected.length + t.selected.countP fun s => s.selections ≠ [] := by
  induction t using induction_on_children generalizing depth with
  | step t ih =>
    have hsum : (t.selections.map fun s => (s.outline (depth + 1)).length).sum =
        (t.selections.map fun s => s.selected.length).sum +
          (t.selections.map fun s => s.selected.countP fun s => s.selections ≠ []).sum := by
      rw [← List.sum_map_add]
      exact congrArg List.sum (List.map_congr_left fun s hs => ih s (mem_children_of_mem_selections hs) _)
    rw [outline_eq, selected_eq]
    by_cases hempty : t.selections = []
    · simp [hempty]
    · simp [hempty, List.length_flatMap, List.countP_flatMap, hsum, Function.comp_def]
      omega

/-- The lines of a node's text are those of its outline. -/
theorem lines_printed {t : Tree} (h : IsOutlined t) :
    Text.lines (t.printed "") = (t.outline 0).map (String.ofList ·.chars) := by
  have htext : (t.printed "").toList = ['\n'].intercalate ((t.outline 0).map OutlineLine.chars) := by
    have hchars := chars_eq_outline h "" 0
    simpa [levels, chars] using hchars
  have hlines : ∀ cs ∈ (t.outline 0).map OutlineLine.chars, '\n' ∉ cs := by
    simp only [List.forall_mem_map]
    exact fun line hline hmem => (isLine_outline h hline).ne_newline hmem rfl
  rw [Text.lines, htext, List.splitOn_intercalate _ hlines (by simp [outline_ne_nil]), List.map_map]
  rfl

/-- A node at an indent has the text that it has without, with the indent in front of every line. -/
theorem printed_eq_shift {t : Tree} (h : IsOutlined t) (indent : String) :
    t.printed indent = Text.shift indent (t.printed "") := by
  have htext := chars_eq_outline h indent 0
  rw [Text.shift, lines_printed h, ← String.toList_inj, String.toList_intercalate]
  simpa [levels, chars, Function.comp_def] using htext

/-- Every node of a document that is printed at an indent is printed as its outline. An indent is put in front of every
line of its text. A line that opens a node, so many levels deep, starts with two spaces for each level and no more. -/
theorem render_outline {source : String} {t n : Tree} (h : parseDocument source = .ok t) (hn : n ∈ t.nodes)
    (hindented : n.isIndented = true) :
    ∃ text, n.render "" = .ok text ∧ (∀ indent, n.render indent = .ok (Text.shift indent text)) ∧
      Text.lines text = (n.outline 0).map (String.ofList ·.chars) ∧
      (∀ depth s, .opens depth s ∈ n.outline 0 → ∃ c cs,
        (OutlineLine.opens depth s).chars = List.replicate (2 * depth) ' ' ++ c :: cs ∧ c ≠ ' ') ∧
      (Text.lines text).length = n.selected.length + n.selected.countP fun s => s.selections ≠ [] := by
  obtain ⟨ds, rfl, -, hall⟩ := exists_definitions_of_parseDocument h
  obtain ⟨d, hd, hmem⟩ : ∃ d ∈ ds, n ∈ d.nodes := by
    rcases mem_nodes.1 hn with rfl | hmem
    · cases hindented
    · exact hmem
  have houtlined := isOutlined_of_isIndented (hall d hd).1 hmem hindented
  have hrender : ∀ indent, n.render indent = .ok (n.printed indent) := by
    intro indent
    rcases isIndented_cases (hall d hd).1 hmem hindented with h | ⟨_, h⟩
    · exact (stable_executable h indent).self
    · exact (stable_selection h indent).self
  have hlines := lines_printed houtlined
  refine ⟨n.printed "", hrender "", fun indent => ?_, hlines, fun depth s hs => ?_, ?_⟩
  · rw [hrender, printed_eq_shift houtlined]
  · obtain ⟨c, cs, hhead, hc⟩ := (houtlined s (mem_selected_of_opens hs)).starts
    exact ⟨c, cs ++ if s.selections = [] then [] else [' ', '{'], by rw [OutlineLine.chars, hhead, List.cons_append], hc⟩
  · rw [hlines, List.length_map, length_outline]

/-- A field with a string that holds a line feed and a brace, inside a field. -/
def nestedField : Tree :=
  .field "a" Option.none (.tuple []) (.tuple []) (.tuple [.fragmentSpread "F" (.tuple []),
    .field "b" Option.none (.tuple [.argument "x" (.str "\n\x7d")]) (.tuple []) (.tuple [])])

/-- A field that holds a spread and a field with a line feed and a brace in its argument. -/
private theorem parse_nestedField :
    parseDocument "\x7ba\x7b...F b(x:\"\\n\x7d\")\x7d\x7d" = .ok (.document (.tuple
      [.operation "query" Option.none (.tuple []) (.tuple []) (.tuple [nestedField])])) := by
  have hchars : "\x7ba\x7b...F b(x:\"\\n\x7d\")\x7d\x7d".toList = '{' :: ("a".toList ++ '{' :: '.' :: '.' :: '.' ::
      ("F".toList ++ ' ' :: ("b".toList ++ '(' :: ("x".toList ++ ':' :: ((Text.quote "\n\x7d").toList ++
        ')' :: '}' :: '}' :: []))))) := rfl
  rw [parseDocument, parseWith, Syntax.Document.read, Syntax.read, Tape.ofSource, hchars,
    Tape.ofChars_punct (m := .braceL) (by decide), Tape.ofChars_name (by decide) (by simp [isBoundary, isNameChar]),
    Tape.ofChars_punct (m := .braceL) (by decide), Tape.ofChars_spread,
    Tape.ofChars_name (by decide) (by simp [isBoundary, isNameChar]), Tape.ofChars_space,
    Tape.ofChars_name (by decide) (by simp [isBoundary, isNameChar]), Tape.ofChars_punct (m := .parenL) (by decide),
    Tape.ofChars_name (by decide) (by simp [isBoundary, isNameChar]), Tape.ofChars_punct (m := .colon) (by decide),
    Tape.ofChars_quote (by simp [isBoundary, isNameChar]), Tape.ofChars_punct (m := .parenR) (by decide),
    Tape.ofChars_punct (m := .braceR) (by decide), Tape.ofChars_punct (m := .braceR) (by decide), Tape.ofChars_nil]
  rfl

/-- The field has a line for itself, two for the selections in it, and one to close them. -/
theorem render_outline_nestedField :
    ∃ text, nestedField.render "" = .ok text ∧ nestedField.render "> " = .ok (Text.shift "> " text) ∧
      Text.lines text = ["a \x7b", "  ...F", "  b(x: \"\\n\x7d\")", "\x7d"] := by
  have hmem : nestedField ∈ (Tree.document (.tuple [.operation "query" Option.none (.tuple []) (.tuple [])
      (.tuple [nestedField])])).nodes :=
    mem_nodes_of_child (List.mem_singleton_self _) (mem_nodes_of_child (List.mem_singleton_self _) (mem_nodes_self _))
  obtain ⟨text, htext, hshift, hlines, -, -⟩ := render_outline parse_nestedField hmem rfl
  refine ⟨text, htext, hshift _, hlines.trans ?_⟩
  simp only [nestedField, outline_eq, selections, Seq.tuple, reduceCtorEq, if_false, if_true, List.flatMap_cons,
    List.flatMap_nil]
  rfl

end GraphDoc
