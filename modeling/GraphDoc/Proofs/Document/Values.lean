import GraphDoc.Proofs.Syntax.Constants
import GraphDoc.Proofs.Syntax.Written

/-!
# Values

Every value that has a text is read back from it, as a value or as a constant. What comes back is its value form, in
which plain values stand as the nodes that a source has for them; a constant comes back exactly if its value form holds
no variable.
-/

namespace GraphDoc

open Syntax (Value maxDepth)
open Tape (ofChars)

/-! ## Symbols -/

namespace Text

/-- Whether a character is one of the small letters that words of the language start with. -/
def isSmall (c : Char) : Bool := 97 ≤ c.toNat && c.toNat ≤ 122

/-- Only the codes of the small letters are small letters. -/
theorem isSmall_ofNat {n : Nat} (h : n < 97 ∨ 122 < n) : isSmall (Char.ofNat n) = false := by
  have hchar : (Char.ofNat n).toNat = n ∨ (Char.ofNat n).toNat = 0 := by
    by_cases hvalid : n.isValidChar
    · rw [Char.ofNat, dif_pos hvalid]
      exact .inl rfl
    · rw [Char.ofNat, dif_neg hvalid]
      exact .inr rfl
  simp only [isSmall, Bool.and_eq_false_iff, decide_eq_false_iff_not]
  omega

/-- Every run of letters moves to a place outside the small letters. -/
theorem caseRuns_apart : ∀ run ∈ caseRuns, run.last + run.shift < 97 ∨ 122 < run.first + run.shift := by
  decide +kernel

/-- No upper-case form of several characters starts with one of these letters. -/
theorem caseExpansions_apart :
    ∀ e ∈ caseExpansions, e.2.head?.any (fun n => n < 97 || 122 < n) = true := by
  decide +kernel

/-- The upper-case form of a character starts with one that is no small letter. -/
theorem exists_upperCase_eq_cons (c : Char) : ∃ first rest, upperCase c = first :: rest ∧ isSmall first = false := by
  rw [upperCase]
  split
  · next expansion hexpansion =>
    obtain ⟨before, after, hentries, -⟩ := List.lookup_eq_some_iff.1 hexpansion
    have hapart := caseExpansions_apart (c.toNat, expansion) (by simp [hentries])
    cases expansion with
    | nil => cases hapart
    | cons n ns => exact ⟨_, _, rfl, isSmall_ofNat (by simpa using hapart)⟩
  · split
    · next run hrun =>
      have hcontains := List.find?_some hrun
      have hapart := caseRuns_apart run (List.mem_of_find?_eq_some hrun)
      simp only [CaseRun.contains, Bool.and_eq_true, decide_eq_true_eq] at hcontains
      exact ⟨_, _, rfl, isSmall_ofNat (by omega)⟩
    · next hnone =>
      have hsmall : (⟨97, 122, 1, -32⟩ : CaseRun) ∈ caseRuns := by
        rw [caseRuns]
        exact List.mem_cons_self
      exact ⟨_, _, rfl, by simpa [CaseRun.contains, isSmall, Nat.mod_one] using List.find?_eq_none.1 hnone _ hsmall⟩

/-- A capitalized text is none of the words that stand for other values. -/
theorem capitalize_not_reserved (s : String) : capitalize s ∉ ["true", "false", "null"] := by
  have hwords : ∀ word ∈ ["true", "false", "null"], word.toList.head?.any isSmall = true := by
    decide
  intro hmem
  have hsmall := hwords _ hmem
  rw [capitalize] at hsmall
  split at hsmall
  · cases hsmall
  · next c cs _ =>
    obtain ⟨first, rest, hupper, hfirst⟩ := exists_upperCase_eq_cons c
    rw [hupper, String.toList_ofList] at hsmall
    exact absurd hsmall (by simp [hfirst])

end Text

namespace Tree

/-! ## The value form -/

/-- A node of a value as a source has it, once what stands inside it is so. -/
def valueNode : Tree → Tree
  | .none => .nullValue
  | .float x => .floatValue x.text
  | .symbol _ member => .enumValue (Text.capitalize member.name)
  | .seq s => .seq ⟨.list, s.items⟩
  | .map entries => .inputObject (.tuple (ofEntries ((mergeEntries Key.same entries).map fun e => (e.1.label, e.2))))
  | .inputObject s => .inputObject (.tuple (ofEntries (objectEntries (.inputObject s))))
  | t => t

/-- A value as a source has it: the missing value is null, numbers and symbols are nodes, sequences are lists, and maps
are objects with an argument for each entry. -/
def valueForm : Tree → Tree := rewrite valueNode

/-- The form of a value is made of the forms of its parts. -/
theorem valueForm_eq (t : Tree) : t.valueForm = valueNode (t.mapChildren valueForm) := rewrite_eq valueNode t

/-- A map takes the form of an input object, once for each key and with the last value given to it. -/
theorem valueForm_map (entries : List (Key × Tree)) :
    valueForm (.map entries) = .inputObject (.tuple (ofEntries ((mergeEntries Key.same entries).map fun e =>
      (e.1.label, e.2.valueForm)))) := by
  rw [valueForm_eq]
  show valueNode (.map (entries.map fun e => (e.1, e.2.valueForm))) = _
  rw [valueNode, mergeEntries_mapValues, List.map_map]
  rfl

/-- Of the entries of an input object the last of each name counts. -/
theorem valueForm_inputObject (form : SeqForm) (entries : List (String × Tree)) :
    valueForm (.inputObject ⟨form, ofEntries entries⟩) =
      .inputObject (.tuple (ofEntries ((mergeEntries (· == ·) entries).map fun e => (e.1, e.2.valueForm)))) := by
  have hitems : (ofEntries entries).map valueForm = ofEntries (entries.map fun e => (e.1, e.2.valueForm)) := by
    simp [ofEntries, valueForm_eq (.argument _ _), mapChildren, valueNode]
  rw [valueForm_eq]
  show valueNode (.inputObject ⟨form, (ofEntries entries).map valueForm⟩) = _
  rw [hitems, valueNode, objectEntries_ofEntries, mergeEntries_mapValues]

/-- Whether no enum value of a tree is one of the words that stand for other values. -/
def HasFreeWords (t : Tree) : Prop := ∀ name, .enumValue name ∈ t.nodes → name ∉ ["true", "false", "null"]

/-- The words inside a part are words of the whole. -/
theorem HasFreeWords.child {t c : Tree} (h : t.HasFreeWords) (hc : c ∈ t.children) : c.HasFreeWords :=
  fun name hname => h name (mem_nodes_of_child hc hname)

/-- A word other than the three reserved ones is an enum value. -/
theorem ofWord_eq_enumValue {word : String} (h : word ∉ ["true", "false", "null"]) :
    ofWord word = .enumValue word := by
  simp only [List.mem_cons, List.not_mem_nil, or_false, not_or] at h
  rw [ofWord, if_neg h.1, if_neg h.2.1, if_neg h.2.2]

/-- A value is read back as its value form. -/
theorem literal_eq_valueForm {isConst : Bool} {d : Nat} {t : Tree} (h : IsLiteral isConst d t)
    (hfree : t.HasFreeWords) : t.literal = t.valueForm := by
  induction h with
  | symbol hname =>
    rw [literal_eq_reading (by simp), reading_eq, valueForm_eq]
    exact ofWord_eq_enumValue (Text.capitalize_not_reserved _)
  | enumValue hname =>
    rw [literal_eq_reading (by simp), reading_eq, valueForm_eq]
    exact ofWord_eq_enumValue (hfree _ (mem_nodes_self _))
  | seq hitems ih =>
    rw [literal_seq, valueForm_eq]
    show _ = Tree.seq ⟨.list, _⟩
    rw [List.map_congr_left fun t ht => ih t ht (hfree.child ht)]
    rfl
  | @map d entries hkeys hvalues ih =>
    rw [literal_eq_reading (by simp), reading_map, valueForm_map]
    congr 3
    refine List.map_congr_left fun e he => ?_
    obtain ⟨k, hk⟩ := (mem_mergeEntries he).2
    rw [ih (k, e.2) hk (hfree.child (List.mem_map_of_mem hk))]
  | @inputObject d form entries hkeys hvalues ih =>
    rw [literal_eq_reading (by simp), reading_inputObject, valueForm_inputObject]
    congr 3
    refine List.map_congr_left fun e he => ?_
    obtain ⟨k, hk⟩ := (mem_mergeEntries he).2
    have hargument : Tree.argument k e.2 ∈ ofEntries entries := List.mem_map_of_mem hk
    rw [ih (k, e.2) hk ((hfree.child hargument).child (List.mem_singleton_self _))]
  | _ =>
    rw [literal, reading_eq, valueForm_eq]
    rfl

end Tree

/-! ## Reading values -/

open GraphDoc.Tree

/-- The text of a value is read back as its value form. It is read as a constant exactly if its value form holds no
variable, with the same result, and refused as one for its syntax otherwise. -/
theorem parseValue_render {v : Tree} (h : IsLiteral false maxDepth v) (hfree : v.HasFreeWords) :
    ∃ text, v.render "" = .ok text ∧ parseValue false text = .ok v.valueForm ∧
      ((∀ name, .variable name ∉ v.valueForm.nodes) → parseValue true text = .ok v.valueForm) ∧
      ((∃ name, .variable name ∈ v.valueForm.nodes) → ∃ e, parseValue true text = .error (.syntaxError e)) := by
  obtain ⟨x, hrun, hx⟩ := (written_literal h).reads [] (clear_nil _)
  rw [List.append_nil, Tape.ofChars_nil] at hrun
  rw [literal_eq_valueForm h hfree] at hx
  have hconst := x.isConstant_iff_of_toTree hx
  refine ⟨v.printed "", (stable_literal h).self, parseWith_eq_ok.2 ⟨x, _, hrun, rfl, hx⟩, fun hnone => ?_, ?_⟩
  · exact parseWith_eq_ok.2 ⟨x, _, (Syntax.restricts_value _ _ _ _).2 ⟨hrun, hconst.2 hnone⟩, rfl, hx⟩
  · rintro ⟨name, hname⟩
    cases hread : Value.read true (v.printed "") with
    | error e =>
      refine ⟨e, ?_⟩
      rw [parseValue, parseWith, hread]
      rfl
    | ok y =>
      -- a constant that is read would be the value, which is none
      obtain ⟨rest, hrun', -⟩ := read_eq_ok.1 hread
      obtain ⟨hvalue, hy⟩ := (Syntax.restricts_value _ _ _ _).1 hrun'
      rw [← chars, hrun] at hvalue
      cases hvalue
      exact absurd hname (hconst.1 hy name)

set_option maxRecDepth 20000 in
/-- Two keys with one spelling give two arguments, and a variable that a later argument replaces is not reached; one
that is reached makes no constant. -/
theorem parseValue_render_nested :
    parseValue true "[null, \x7bTrue: \"\\u0000\\\"\u2028\", True: -7\x7d, Red, \x7ba: -0.0\x7d]" =
      .ok (.seq ⟨.list, [.nullValue,
        .inputObject (.tuple [.argument "True" (.str "\x00\"\u2028"), .argument "True" (.int (-7))]),
        .enumValue "Red", .inputObject (.tuple [.argument "a" (.floatValue "-0.0")])]⟩) ∧
      ∃ e, parseValue true "[$x]" = .error (.syntaxError e) := by
  have hvariable : ∀ d, IsLiteral false d (.variable "x") := fun d => .variable rfl (by decide)
  constructor
  · have hmap : IsLiteral false 199 (.map [(.bool true, .str "\x00\"\u2028"), (.str "True", .int (-7))]) :=
      .map (by decide) (List.forall_mem_cons.2 ⟨.str _, List.forall_mem_singleton.2 (.int (by decide))⟩)
    have hobject : IsLiteral false 199
        (.inputObject (.tuple (ofEntries [("a", .variable "x"), ("a", .float ⟨2 ^ 63⟩)]))) :=
      .inputObject (by decide)
        (List.forall_mem_cons.2 ⟨hvariable _, List.forall_mem_singleton.2 (.float (by decide))⟩)
    obtain ⟨text, htext, -, hconst, -⟩ := parseValue_render (v := .seq (.tuple [.none, _, .symbol .plain "red", _]))
      (.seq (by simpa using ⟨.none, hmap, .symbol (by decide +kernel), hobject⟩))
      (by
        intro name
        simp only [nodes_eq, children, Seq.tuple, ofEntries, List.map, List.flatMap_cons, List.flatMap_nil]
        simp)
    cases htext
    refine hconst fun name => ?_
    show _ ∉ (Tree.seq ⟨.list, [.nullValue,
        .inputObject (.tuple [.argument "True" (.str "\x00\"\u2028"), .argument "True" (.int (-7))]),
        .enumValue "Red", .inputObject (.tuple [.argument "a" (.floatValue "-0.0")])]⟩).nodes
    simp only [nodes_eq, children, Seq.tuple, List.flatMap_cons, List.flatMap_nil]
    simp
  · obtain ⟨text, htext, -, -, herror⟩ := parseValue_render (v := .seq (.tuple [.variable "x"]))
      (.seq (List.forall_mem_singleton.2 (hvariable 199)))
      (by
        intro name
        simp only [nodes_eq, children, Seq.tuple, List.flatMap_cons, List.flatMap_nil]
        simp)
    cases htext
    exact herror ⟨"x", mem_nodes_of_child (List.mem_singleton_self _) (mem_nodes_self _)⟩

end GraphDoc
