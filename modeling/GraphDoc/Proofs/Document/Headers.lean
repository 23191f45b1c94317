import GraphDoc.Proofs.Document.Saved
import GraphDoc.Proofs.Syntax.Places

/-!
# Headers above a document

Comments above a text make no difference to what is parsed. Where the text is refused, it is refused with the same words
and in the same column, as many lines further down as the comments take.
-/

namespace GraphDoc

open Tape (ofChars)

/-! ## Lines -/

namespace Text

/-- A text has at least one line. -/
theorem splitLines_ne_nil (cs : List Char) : splitLines cs ≠ [] := by
  fun_cases splitLines cs <;> simp_all

/-- A character that is no carriage return is a break of its own or belongs to the first line. -/
theorem splitLines_cons {c : Char} (h : c ≠ '\r') (cs : List Char) :
    splitLines (c :: cs) =
      if c = '\n' then [] :: splitLines cs else (c :: (splitLines cs).headD []) :: (splitLines cs).tail := by
  rw [splitLines.eq_3 _ _ fun _ hc _ => h hc]
  simp only [h, or_false]
  cases hlines : splitLines cs with
  | nil => exact absurd hlines (splitLines_ne_nil cs)
  | cons line lines => rfl

/-- A line feed parts the lines of what is in front of it from those of what is behind it. -/
theorem splitLines_append_feed {cs : List Char} (h : '\r' ∉ cs) (k : List Char) :
    splitLines (cs ++ '\n' :: k) = splitLines cs ++ splitLines k := by
  induction cs with
  | nil => rw [List.nil_append, splitLines_cons (by decide), if_pos rfl, splitLines, List.singleton_append]
  | cons c cs ih =>
    rw [List.mem_cons, not_or] at h
    rw [List.cons_append, splitLines_cons (Ne.symm h.1), splitLines_cons (Ne.symm h.1), ih h.2]
    split
    · rw [List.cons_append]
    · cases hlines : splitLines cs with
      | nil => exact absurd hlines (splitLines_ne_nil cs)
      | cons line lines => rfl

/-- Without carriage returns, the lines are one more than the line feeds. -/
theorem length_splitLines {cs : List Char} (h : '\r' ∉ cs) : (splitLines cs).length = cs.count '\n' + 1 := by
  induction cs with
  | nil => rfl
  | cons c cs ih =>
    rw [List.mem_cons, not_or] at h
    rw [splitLines_cons (Ne.symm h.1), List.count_cons]
    have hlength := ih h.2
    split
    · next hc => simp [hc, hlength]
    · next hc => simp [hc, hlength]

/-- A start of a text is a start of any longer one. -/
theorem startsWith_append {text start : String} (h : startsWith text start = true) (more : String) :
    startsWith (text ++ more) start = true := by
  rw [startsWith, List.isPrefixOf_iff_prefix] at h ⊢
  rw [String.toList_append]
  exact h.trans (List.prefix_append _ _)

end Text

/-! ## Margins -/

/-- What may stand above a text unseen: whole lines, with line feeds as their only breaks, that leave no trace on the
tape. -/
structure IsMargin (above : List Char) : Prop where
  unseen : ∀ k, ofChars (above ++ k) = ofChars k
  noReturn : '\r' ∉ above
  whole : above = [] ∨ ∃ lines, above = lines ++ ['\n']

namespace IsMargin

/-- The empty text is a margin. -/
theorem nil : IsMargin [] := ⟨fun _ => rfl, by simp, .inl rfl⟩

/-- Margins stacked on each other make a margin. -/
theorem append {above below : List Char} (ha : IsMargin above) (hb : IsMargin below) : IsMargin (above ++ below) where
  unseen := fun k => by rw [List.append_assoc, ha.unseen, hb.unseen]
  noReturn := by simp [ha.noReturn, hb.noReturn]
  whole := by
    rcases hb.whole with rfl | ⟨lines, rfl⟩
    · simpa using ha.whole
    · exact .inr ⟨above ++ lines, by simp⟩

/-- A comment with a blank line below it. -/
theorem comment {line : String} (h : IsComment line) : IsMargin (line ++ "\n\n").toList := by
  obtain ⟨cs, hline, hfeed, hreturn⟩ := h
  have htext : (line ++ "\n\n").toList = '#' :: (cs ++ ['\n', '\n']) := by simp [hline]
  rw [htext]
  refine ⟨fun k => ?_, by simp [hreturn], .inr ⟨'#' :: (cs ++ ['\n']), by simp⟩⟩
  have happend : '#' :: (cs ++ ['\n', '\n']) ++ k = '#' :: (cs ++ '\n' :: '\n' :: k) := by simp
  rw [happend, Tape.ofChars_comment hfeed hreturn, Tape.ofChars_newline]

variable {above : String} (h : IsMargin above.toList) (text : String)

include h

/-- A margin above a text changes nothing of what is read from it. -/
theorem parseDocument_append : parseDocument (above ++ text) = parseDocument text := by
  have htape : Tape.ofSource (above ++ text) = Tape.ofSource text := by
    rw [Tape.ofSource, String.toList_append, h.unseen, Tape.ofSource]
  simp only [parseDocument, parseWith, Syntax.Document.read, Syntax.read, htape]

/-- A place in a text below a margin is in the same column, below the lines of the margin. -/
theorem position_append {left : Nat} (hleft : left ≤ text.toList.length) :
    Position.of (above ++ text) left =
      ⟨(Position.of text left).line + above.toList.count '\n', (Position.of text left).column⟩ := by
  have htake : (above ++ text).toList.take ((above ++ text).toList.length - left) =
      above.toList ++ text.toList.take (text.toList.length - left) := by
    rw [String.toList_append, List.length_append, Nat.add_sub_assoc hleft, List.take_length_add_append]
  rw [Position.of, htake, Position.of]
  generalize text.toList.take _ = front
  obtain hnil | ⟨lines, hlines⟩ := h.whole
  · rw [hnil]
    rfl
  · have hreturn : '\r' ∉ lines := fun hmem => h.noReturn (by simp [hlines, hmem])
    have hsplit : Text.splitLines (lines ++ ['\n'] ++ front) = Text.splitLines lines ++ Text.splitLines front := by
      rw [List.append_assoc, List.singleton_append, Text.splitLines_append_feed hreturn]
    dsimp only
    rw [hlines, hsplit, List.length_append, Text.length_splitLines hreturn,
      List.getLast?_append_of_ne_nil _ (Text.splitLines_ne_nil front), List.count_append, List.count_singleton_self,
      Nat.add_comm]

end IsMargin

/-! ## Headers -/

/-- Whether a header is a comment of one line, with or without its line feed. -/
def IsCommentLine (header : String) : Prop := ∃ line, IsComment line ∧ (header = line ∨ header = line ++ "\n")

/-- A header that is a comment is put above a text with a blank line between them. -/
theorem exists_addHeader_eq {header : String} (h : IsCommentLine header) :
    ∃ above : String, IsMargin above.toList ∧ Text.startsWith above header = true ∧
      ∀ text, addHeader header text = above ++ text := by
  obtain ⟨line, hline, rfl | rfl⟩ := h
  · refine ⟨header ++ "\n\n", .comment hline, ?_, addHeader_of_isComment hline⟩
    simp [Text.startsWith]
  · have hend : Text.endsWith (line ++ "\n") "\n" = true := by simp [Text.endsWith]
    refine ⟨line ++ "\n\n", .comment hline, by simp [Text.startsWith], fun text => ?_⟩
    have hfeeds : line ++ "\n\n" = line ++ "\n" ++ "\n" := by
      rw [String.append_assoc]
      rfl
    rw [addHeader, if_pos hend, hfeeds]

/-- Headers put a margin above a text, the last of them on top. -/
theorem exists_runAfter_eq {headers : List String} (hheaders : ∀ header ∈ headers, IsCommentLine header)
    (before : List Hook) (text : String) :
    ∃ above : String, IsMargin above.toList ∧ (∀ last ∈ headers.getLast?, Text.startsWith above last = true) ∧
      Pipeline.runAfter { before, after := headers.map Hook.header } text = .ok (above ++ text) := by
  induction headers using List.reverseRecOn with
  | nil => exact ⟨"", .nil, by simp, by rw [String.empty_append]; rfl⟩
  | append_singleton headers last ih =>
    obtain ⟨below, hbelow, -, hrun⟩ := ih fun header h => hheaders header (List.mem_append_left _ h)
    obtain ⟨top, htop, hstart, hadd⟩ := exists_addHeader_eq (hheaders last (by simp))
    refine ⟨top ++ below, by rw [String.toList_append]; exact htop.append hbelow, fun header h => ?_, ?_⟩
    · obtain rfl : last = header := by simpa using h
      exact Text.startsWith_append hstart below
    · rw [Pipeline.runAfter] at hrun ⊢
      rw [List.map_append, List.foldlM_append, hrun, String.append_assoc, ← hadd]
      rfl

/-- Comments above a text are invisible: below any number of headers that are comments, the text is parsed as the same
tree, and where it is refused, for the same reason; a syntax error has the same words and the same column, and its line is
further down by the number of line feeds above the text. -/
theorem parseDocument_below_headers {headers : List String} (hheaders : ∀ header ∈ headers, IsCommentLine header)
    (before : List Hook) (text : String) :
    ∃ above : String, Pipeline.runAfter { before, after := headers.map Hook.header } text = .ok (above ++ text) ∧
      (∀ last ∈ headers.getLast?, Text.startsWith (above ++ text) last = true) ∧
      (∀ t, parseDocument (above ++ text) = .ok t ↔ parseDocument text = .ok t) ∧
      (∀ e, parseDocument text = .error (.syntaxError e) → ∃ e', parseDocument (above ++ text) = .error (.syntaxError e') ∧
        e'.message = e.message ∧
        e'.position (above ++ text) =
          ⟨(e.position text).line + above.toList.count '\n', (e.position text).column⟩) ∧
      ∀ e, parseDocument text = .error (.conversion e) → ∃ e', parseDocument (above ++ text) = .error (.conversion e') ∧
        e'.message = e.message := by
  obtain ⟨above, hmargin, hlast, hrun⟩ := exists_runAfter_eq hheaders before text
  have hparse := hmargin.parseDocument_append text
  refine ⟨above, hrun, fun last h => Text.startsWith_append (hlast last h) text, fun t => by rw [hparse],
    fun e he => ⟨e, hparse.trans he, rfl, ?_⟩, fun e he => ⟨e, hparse.trans he, rfl⟩⟩
  exact hmargin.position_append text (left_le_of_parseDocument he)

/-- A block string is left open below two headers: its own line with the sign of a comment stays a part of it, and the end
of the source is four lines further down. -/
theorem parseDocument_below_two_headers :
    (∀ header ∈ ["# a", "# b\n"], IsCommentLine header) ∧
      Pipeline.runAfter { after := ["# a", "# b\n"].map Hook.header } "\ufeff\"\"\"\n#" =
        .ok "# b\n\n# a\n\n\ufeff\"\"\"\n#" ∧
      ∃ e, parseDocument "# b\n\n# a\n\n\ufeff\"\"\"\n#" = .error (.syntaxError e) ∧
        e.message = "Syntax Error: Unterminated string." ∧
        e.position "# b\n\n# a\n\n\ufeff\"\"\"\n#" = ⟨6, 2⟩ := by
  have hheaders : ∀ header ∈ ["# a", "# b\n"], IsCommentLine header := by
    simp only [List.forall_mem_cons]
    exact ⟨⟨"# a", ⟨" a".toList, rfl, by decide, by decide⟩, .inl rfl⟩,
      ⟨"# b", ⟨" b".toList, rfl, by decide, by decide⟩, .inr rfl⟩, by simp⟩
  have hrun : Pipeline.runAfter { after := ["# a", "# b\n"].map Hook.header } "\ufeff\"\"\"\n#" =
      .ok "# b\n\n# a\n\n\ufeff\"\"\"\n#" := by decide
  have hopen : parseDocument "\ufeff\"\"\"\n#" = .error (.syntaxError ⟨.unterminatedString, 0⟩) := by
    have hblock : Tape.readNext "\ufeff\"\"\"\n#".toList = .error ⟨.unterminatedString, 0⟩ := by rfl
    rw [parseDocument, parseWith, Syntax.Document.read, Syntax.read, Tape.ofSource, Tape.ofChars_eq, hblock]
    rfl
  obtain ⟨above, habove, -, -, herror, -⟩ := parseDocument_below_headers hheaders [] "\ufeff\"\"\"\n#"
  obtain ⟨e, hparse, hmessage, hposition⟩ := herror _ hopen
  have htext : above ++ "\ufeff\"\"\"\n#" = "# b\n\n# a\n\n" ++ "\ufeff\"\"\"\n#" :=
    Except.ok.inj (habove.symm.trans hrun)
  obtain rfl : above = "# b\n\n# a\n\n" := (String.append_left_inj _).1 htext
  exact ⟨hheaders, hrun, e, hparse, hmessage, hposition⟩

end GraphDoc
