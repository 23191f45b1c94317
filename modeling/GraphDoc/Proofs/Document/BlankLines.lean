import GraphDoc.Proofs.Document.Printed
import GraphDoc.Proofs.Syntax.Blocks
import Mathlib.Data.List.Chain

/-!
# Blank lines in print

The text of a document has a blank line exactly between two definitions that show. So it can be cut at its blank lines
into the texts of these definitions, and the text of two documents put together is made of the texts of both, with a
blank line between them if neither is empty.
-/

namespace GraphDoc

open GraphDoc.Tree

/-! ## Line feeds in a block -/

/-- Whether no two line feeds stand side by side. -/
def NoBlankLine (cs : List Char) : Prop := cs.IsChain fun a b => ¬(a = '\n' ∧ b = '\n')

/-- No two line feeds stand side by side in a text without blank lines. -/
theorem NoBlankLine.not_infix {cs : List Char} (h : NoBlankLine cs) : ¬['\n', '\n'] <:+: cs := by
  intro hinfix
  have hpair := List.IsChain.infix h hinfix
  simp at hpair

/-- A line holds no line feed, hence no blank line. -/
theorem IsLine.noBlankLine {cs : List Char} (h : IsLine cs) : NoBlankLine cs := by
  induction cs with
  | nil => exact .nil
  | cons c cs ih =>
    have hc := h.ne_newline List.mem_cons_self
    cases cs with
    | nil => exact .singleton c
    | cons d cs =>
      exact .cons_cons (fun hboth => hc hboth.1) (ih fun e he => h e (List.mem_cons_of_mem _ he))

/-- A block never ends in a line feed, whatever stands before it. -/
theorem IsBlock.getLast?_ne {cs : List Char} (h : IsBlock cs) (start : List Char) :
    (start ++ cs).getLast? ≠ some '\n' := by
  induction h generalizing start with
  | @line cs h hsome =>
    intro hlast
    rw [List.getLast?_append_of_ne_nil _ hsome] at hlast
    exact h.ne_newline (List.mem_of_getLast? hlast) rfl
  | @under cs ds _ _ _ ih =>
    have hassoc : start ++ (cs ++ '\n' :: ds) = start ++ cs ++ ['\n'] ++ ds := by simp
    rw [hassoc]
    exact ih _

/-- The lines of a block follow one another with nothing empty between them. -/
theorem IsBlock.noBlankLine {cs : List Char} (h : IsBlock cs) : NoBlankLine cs := by
  induction h with
  | line h => exact h.noBlankLine
  | @under cs ds h hunder ih ih' =>
    -- the line feed in between has the last character of one line before it and the first of another behind it
    have hnext : NoBlankLine ('\n' :: ds) := by
      rw [NoBlankLine, ← List.singleton_append, List.isChain_append]
      refine ⟨.singleton _, ih', fun a _ b hb hboth => ?_⟩
      have hhead := hunder.head?_ne []
      rw [List.append_nil, hb, hboth.2] at hhead
      exact hhead rfl
    rw [NoBlankLine, List.isChain_append]
    refine ⟨ih, hnext, fun a ha b _ hboth => ?_⟩
    have hlast := h.getLast?_ne []
    rw [List.nil_append, ha, hboth.1] at hlast
    exact hlast rfl

/-! ## Texts of documents -/

/-- The paragraphs of a text: it is cut wherever two line feeds follow each other. -/
def Text.paragraphs (text : String) : List String := (Text.parts text.toList).map String.ofList

/-- Whether a text has no blank line and no line feed at either end. -/
structure Text.IsParagraph (text : String) : Prop where
  noBlank : ¬['\n', '\n'] <:+: text.toList
  start : ¬['\n'] <+: text.toList
  finish : ¬['\n'] <:+ text.toList

/-- One text below the other with a blank line between them; an empty one leaves no gap. -/
def Text.stack (above below : String) : String :=
  if above = "" then below else if below = "" then above else above ++ "\n\n" ++ below

/-- What is a block as characters is a paragraph as a text. -/
theorem IsBlock.isParagraph {text : String} (h : IsBlock text.toList) : Text.IsParagraph text := by
  refine ⟨h.noBlankLine.not_infix, ?_, ?_⟩
  · rintro ⟨rest, hrest⟩
    have hhead := h.head?_ne []
    rw [List.append_nil, ← hrest] at hhead
    exact hhead rfl
  · rintro ⟨start, hstart⟩
    have hlast := h.getLast?_ne []
    rw [List.nil_append, ← hstart] at hlast
    exact hlast List.getLast?_concat

/-- A printed definition is one paragraph: it holds no blank line and ends in none. -/
theorem isParagraph_printed {d : Tree} (h : IsDefinition d) : Text.IsParagraph (d.printed "") := by
  cases hsup : d.isSuppressed with
  | true =>
    rw [printed_of_isSuppressed hsup]
    exact ⟨by simp, by simp, by simp⟩
  | false => exact (isBlock_definition ⟨h, hsup⟩).isParagraph

/-- The text of definitions is cut into their texts. -/
theorem paragraphs_documentText {ds : List Tree} (h : ∀ d ∈ ds, IsShown d) (hsome : ds ≠ []) :
    Text.paragraphs (String.ofList (documentText ds)) = ds.map (·.printed "") := by
  obtain ⟨d, ds, rfl⟩ := List.exists_cons_of_ne_nil hsome
  rw [Text.paragraphs, String.toList_ofList, parts_documentText h, List.map_map]
  exact List.map_congr_left fun t _ => String.ofList_toList

/-- Two lists of definitions print one after the other with a blank line between. -/
theorem documentText_append {ds es : List Tree} (hds : ds ≠ []) (hes : es ≠ []) :
    documentText (ds ++ es) = documentText ds ++ '\n' :: '\n' :: documentText es := by
  obtain ⟨e, es, rfl⟩ := List.exists_cons_of_ne_nil hes
  have htail : ∀ ts, tailText (ts ++ e :: es) = tailText ts ++ tailText (e :: es) := by
    intro ts
    induction ts with
    | nil => rfl
    | cons t ts ih =>
      rw [List.cons_append, tailText_cons, tailText_cons, documentText_cons, documentText_cons, ih]
      simp
  obtain ⟨d, ds, rfl⟩ := List.exists_cons_of_ne_nil hds
  rw [List.cons_append, documentText_cons, documentText_cons, htail, tailText_cons, List.append_assoc]

/-- Some shown definition makes the text non-empty. -/
theorem documentText_ne_nil {ds : List Tree} (h : ∀ d ∈ ds, IsShown d) (hsome : ds ≠ []) : documentText ds ≠ [] := by
  obtain ⟨d, ds, rfl⟩ := List.exists_cons_of_ne_nil hsome
  rw [documentText_cons]
  exact List.append_ne_nil_of_left_ne_nil (isBlock_definition (h d (by simp))).ne_nil _

/-- The text of definitions put together is the text of both parts. -/
theorem ofList_documentText_append {ds es : List Tree} (hds : ∀ d ∈ ds, IsShown d) (hes : ∀ e ∈ es, IsShown e) :
    String.ofList (documentText (ds ++ es)) =
      Text.stack (String.ofList (documentText ds)) (String.ofList (documentText es)) := by
  by_cases hnone : ds = []
  · subst hnone
    exact (if_pos rfl).symm
  · have htext : String.ofList (documentText ds) ≠ "" := by
      simpa using documentText_ne_nil hds hnone
    by_cases hnone' : es = []
    · subst hnone'
      have hempty : String.ofList (documentText []) = "" := rfl
      rw [List.append_nil, Text.stack, if_neg htext, if_pos hempty]
    · have htext' : String.ofList (documentText es) ≠ "" := by
        simpa using documentText_ne_nil hes hnone'
      rw [documentText_append hnone hnone', Text.stack, if_neg htext, if_neg htext', ← String.toList_inj]
      simp

/-- The suppressed definitions of two lists are left out of each on its own. -/
theorem shown_append (ds es : List Tree) : shown (ds ++ es) = shown ds ++ shown es := List.filter_append ..

/-- In the text of a document that was read, line feeds are the only characters below the space. No text of a
definition has a blank line or a line feed at an end, so the text of the document is cut at its blank lines into the
texts of its definitions, as far as they are not empty. Put together with another document, it has the text of both,
with a blank line between them. -/
theorem paragraphs_render {source source' : String} {t t' : Tree} (h : parseDocument source = .ok t)
    (h' : parseDocument source' = .ok t') :
    ∃ text text' texts, t.render "" = .ok text ∧ t'.render "" = .ok text' ∧
      t.definitions.mapM (·.render "") = .ok texts ∧
      (∀ c ∈ text.toList, c < ' ' → c = '\n') ∧
      (∀ s ∈ texts, Text.IsParagraph s) ∧
      Text.paragraphs text = (if texts.filter (· ≠ "") = [] then [""] else texts.filter (· ≠ "")) ∧
      (Tree.document (.tuple (t.definitions ++ t'.definitions))).render "" = .ok (Text.stack text text') := by
  obtain ⟨ds, rfl, -, hall⟩ := exists_definitions_of_parseDocument h
  obtain ⟨es, rfl, -, hall'⟩ := exists_definitions_of_parseDocument h'
  have hds : ∀ d ∈ ds, IsDefinition d := fun d hd => (hall d hd).1
  have hes : ∀ e ∈ es, IsDefinition e := fun e he => (hall' e he).1
  have hboth : ∀ d ∈ ds ++ es, IsDefinition d := List.forall_mem_append.2 ⟨hds, hes⟩
  have hshown := isShown_of_mem_shown hds
  refine ⟨_, _, ds.map (·.printed ""), render_document hds _, render_document hes _,
    mapM_of_forall fun d hd => (stable_definition (hds d hd) "").self, ?_, ?_, ?_, ?_⟩
  · intro c hc hlow
    rw [String.toList_ofList] at hc
    exact (isPrint_documentText hshown c hc).resolve_right fun hle => Char.not_lt.2 hle hlow
  · intro s hs
    obtain ⟨d, hd, rfl⟩ := List.mem_map.1 hs
    exact isParagraph_printed (hds d hd)
  · rw [filter_printed_ne_empty hds]
    split
    · next hnone =>
      rw [List.map_eq_nil_iff.1 hnone]
      rfl
    · next hsome => exact paragraphs_documentText hshown fun hnone => hsome (by rw [hnone]; rfl)
  · show (Tree.document ⟨.tuple, ds ++ es⟩).render "" = _
    rw [render_document hboth, shown_append, ofList_documentText_append hshown (isShown_of_mem_shown hes)]

/-- The schema block that names the usual query root alone. -/
private theorem parse_usualSchema :
    parseDocument "schema\x7bquery:Query\x7d" =
      .ok (.document (.tuple [.schema (some "Query") Option.none Option.none Option.none])) := by
  have hchars : "schema\x7bquery:Query\x7d".toList =
      "schema".toList ++ '{' :: ("query".toList ++ ':' :: ("Query".toList ++ '}' :: [])) := rfl
  rw [parseDocument, parseWith, Syntax.Document.read, Syntax.read, Tape.ofSource, hchars,
    Tape.ofChars_name (by decide) (by simp [isBoundary, isNameChar]), Tape.ofChars_punct (m := .braceL) (by decide),
    Tape.ofChars_name (by decide) (by simp [isBoundary, isNameChar]), Tape.ofChars_punct (m := .colon) (by decide),
    Tape.ofChars_name (by decide) (by simp [isBoundary, isNameChar]), Tape.ofChars_punct (m := .braceR) (by decide),
    Tape.ofChars_nil]
  rfl

/-- An enum type with two values, and a scalar type. -/
def enumAndScalar : Tree :=
  .document (.tuple [.enumType "E" (.tuple [.enumValueDefinition "A" (.tuple []) Option.none,
    .enumValueDefinition "B" (.tuple []) Option.none]) (.tuple []) Option.none, .scalarType "D" (.tuple []) Option.none])

/-- An enum of two values above a scalar. -/
private theorem parse_enumAndScalar : parseDocument "enum E\x7bA B\x7dscalar D" = .ok enumAndScalar := by
  have hchars : "enum E\x7bA B\x7dscalar D".toList = "enum".toList ++ ' ' :: ("E".toList ++ '{' :: ("A".toList ++ ' ' ::
      ("B".toList ++ '}' :: ("scalar".toList ++ ' ' :: ("D".toList ++ []))))) := rfl
  rw [parseDocument, parseWith, Syntax.Document.read, Syntax.read, Tape.ofSource, hchars,
    Tape.ofChars_name (by decide) (by simp [isBoundary, isNameChar]), Tape.ofChars_space,
    Tape.ofChars_name (by decide) (by simp [isBoundary, isNameChar]), Tape.ofChars_punct (m := .braceL) (by decide),
    Tape.ofChars_name (by decide) (by simp [isBoundary, isNameChar]), Tape.ofChars_space,
    Tape.ofChars_name (by decide) (by simp [isBoundary, isNameChar]), Tape.ofChars_punct (m := .braceR) (by decide),
    Tape.ofChars_name (by decide) (by simp [isBoundary, isNameChar]), Tape.ofChars_space,
    Tape.ofChars_name (by decide) boundary_nil, Tape.ofChars_nil]
  rfl

/-- A schema block that is left out puts no gap above the two definitions behind it. -/
theorem paragraphs_render_below_schema :
    ∃ t text, parseDocument "schema\x7bquery:Query\x7d" = .ok t ∧
      parseDocument "enum E\x7bA B\x7dscalar D" = .ok enumAndScalar ∧
      (Tree.document (.tuple (t.definitions ++ enumAndScalar.definitions))).render "" = .ok text ∧
      Text.paragraphs text = ["enum E \x7b\n  A\n  B\n\x7d", "scalar D"] := by
  obtain ⟨above, below, -, habove, hbelow, -, -, -, -, hboth⟩ := paragraphs_render parse_usualSchema parse_enumAndScalar
  obtain ⟨text, -, texts, htext, -, htexts, -, -, hcut, -⟩ := paragraphs_render parse_enumAndScalar parse_usualSchema
  cases habove
  cases hbelow.symm.trans htext
  cases htexts
  exact ⟨_, below, parse_usualSchema, parse_enumAndScalar, hboth, hcut⟩

end GraphDoc
