import GraphDoc.Signature
import GraphDoc.Tree.Equality
import GraphDoc.Proofs.Document.Printed
import GraphDoc.Proofs.Syntax.MarkedDefinitions

/-!
# The text identifies the document

Two documents that were read have one text exactly if they have one normal form, also where the text itself
is no document. So different normal forms have different signatures, unless two texts share a digest.
-/

namespace GraphDoc

open GraphDoc.Tree

/-- The text of definitions that show and were read determines their normal forms. -/
theorem documentText_eq_iff {ds es : List Tree} (hds : ∀ d ∈ ds, IsShown d ∧ IsRead IsDefinition d)
    (hes : ∀ e ∈ es, IsShown e ∧ IsRead IsDefinition e) :
    documentText ds = documentText es ↔ ds.map normal = es.map normal := by
  have hshown : ∀ d ∈ ds, IsShown d := fun d hd => (hds d hd).1
  have hshown' : ∀ e ∈ es, IsShown e := fun e he => (hes e he).1
  constructor
  · intro htext
    rw [← map_reading_eq_map_normal fun d hd => (hds d hd).2, ← map_reading_eq_map_normal fun e he => (hes e he).2]
    exact map_reading_eq_of_documentText hshown hshown' htext
  · intro hnormal
    -- the normal forms are printed as the definitions are
    have hprint := render_document_normal hshown
    rw [hnormal, render_document_normal hshown', Except.ok.injEq, String.ofList_inj] at hprint
    exact hprint.symm

/-- Documents that were read have the same text exactly if they have the same normal form. If their normal
forms differ and their signatures do not, then their texts are two texts with one digest. -/
theorem render_eq_iff_normalDocument_eq {a b : String} {t u : Tree} (ht : parseDocument a = .ok t)
    (hu : parseDocument b = .ok u) :
    ∃ text text', t.render "" = .ok text ∧ u.render "" = .ok text' ∧
      (text = text' ↔ t.normalDocument = u.normalDocument) ∧
      (t.normalDocument ≠ u.normalDocument → t.signature = u.signature →
        text ≠ text' ∧ Sha256.hex text = Sha256.hex text') := by
  obtain ⟨ds, hds, hnormal, -, htext⟩ := exists_shown_of_parseDocument ht
  obtain ⟨es, hes, hnormal', -, htext'⟩ := exists_shown_of_parseDocument hu
  have hiff : String.ofList (documentText ds) = String.ofList (documentText es) ↔
      t.normalDocument = u.normalDocument := by
    rw [String.ofList_inj, documentText_eq_iff hds hes, hnormal, hnormal', Tree.document.injEq, Seq.tuple_inj]
  refine ⟨_, _, htext, htext', hiff, fun hne hsignature => ⟨fun heq => hne (hiff.1 heq), ?_⟩⟩
  rw [signature, signature, htext, htext'] at hsignature
  exact Except.ok.inj hsignature

/-- The query for the field `a` with an argument `x`. -/
def argumentQuery (value : Tree) : Tree :=
  .document (.tuple [.operation "query" Option.none (.tuple []) (.tuple [])
    (.tuple [.field "a" Option.none (.tuple [.argument "x" value]) (.tuple []) (.tuple [])])])

/-- The query whose argument is the truth value. -/
private theorem parse_trueQuery : parseDocument "\x7ba(x:true)\x7d" = .ok (argumentQuery (.bool true)) := by
  have htape : Tape.ofSource "\x7ba(x:true)\x7d" = .next (.punct .braceL) "\x7ba(x:true)\x7d".toList
      (.next (.name "a") "a(x:true)\x7d".toList (.next (.punct .parenL) "(x:true)\x7d".toList
        (.next (.name "x") "x:true)\x7d".toList (.next (.punct .colon) ":true)\x7d".toList
          (.next (.name "true") "true)\x7d".toList (.next (.punct .parenR) ")\x7d".toList
            (.next (.punct .braceR) "\x7d".toList .finish))))))) := by
    show Tape.ofChars ('{' :: ("a".toList ++ '(' :: ("x".toList ++ ':' :: ("true".toList ++ ')' :: '}' :: [])))) = _
    rw [Tape.ofChars_punct (m := .braceL) (by decide),
      Tape.ofChars_name (by decide) (by simp [isBoundary, isNameChar]), Tape.ofChars_punct (m := .parenL) (by decide),
      Tape.ofChars_name (by decide) (by simp [isBoundary, isNameChar]), Tape.ofChars_punct (m := .colon) (by decide),
      Tape.ofChars_name (by decide) (by simp [isBoundary, isNameChar]), Tape.ofChars_punct (m := .parenR) (by decide),
      Tape.ofChars_punct (m := .braceR) (by decide), Tape.ofChars_nil]
    rfl
  rw [parseDocument, parseWith, Syntax.Document.read, Syntax.read, htape]
  rfl

/-- The query whose argument is the number one. -/
private theorem parse_oneQuery : parseDocument "\x7ba(x:1)\x7d" = .ok (argumentQuery (.int 1)) := by
  have hone : Tape.readToken '1' [')', '}'] = .ok (.int "1", [')', '}']) := rfl
  have htape : Tape.ofSource "\x7ba(x:1)\x7d" = .next (.punct .braceL) "\x7ba(x:1)\x7d".toList
      (.next (.name "a") "a(x:1)\x7d".toList (.next (.punct .parenL) "(x:1)\x7d".toList
        (.next (.name "x") "x:1)\x7d".toList (.next (.punct .colon) ":1)\x7d".toList
          (.next (.int "1") "1)\x7d".toList (.next (.punct .parenR) ")\x7d".toList
            (.next (.punct .braceR) "\x7d".toList .finish))))))) := by
    show Tape.ofChars ('{' :: ("a".toList ++ '(' :: ("x".toList ++ ':' :: '1' :: ')' :: '}' :: []))) = _
    rw [Tape.ofChars_punct (m := .braceL) (by decide),
      Tape.ofChars_name (by decide) (by simp [isBoundary, isNameChar]), Tape.ofChars_punct (m := .parenL) (by decide),
      Tape.ofChars_name (by decide) (by simp [isBoundary, isNameChar]), Tape.ofChars_punct (m := .colon) (by decide),
      Tape.ofChars_token (by decide) (by decide) hone, Tape.ofChars_punct (m := .parenR) (by decide),
      Tape.ofChars_punct (m := .braceR) (by decide), Tape.ofChars_nil]
    rfl
  rw [parseDocument, parseWith, Syntax.Document.read, Syntax.read, htape]
  rfl

/-- The truth value and the number one, which are equal values, are different texts. -/
theorem render_ne_of_true_and_one :
    parseDocument "\x7ba(x:true)\x7d" = .ok (argumentQuery (.bool true)) ∧
      parseDocument "\x7ba(x:1)\x7d" = .ok (argumentQuery (.int 1)) ∧
      (argumentQuery (.bool true)).same (argumentQuery (.int 1)) = true ∧
      ∃ text text', (argumentQuery (.bool true)).render "" = .ok text ∧
        (argumentQuery (.int 1)).render "" = .ok text' ∧ text ≠ text' := by
  obtain ⟨text, text', htext, htext', hiff, -⟩ := render_eq_iff_normalDocument_eq parse_trueQuery parse_oneQuery
  refine ⟨parse_trueQuery, parse_oneQuery, by decide, text, text', htext, htext', fun heq => ?_⟩
  have hnormal := hiff.1 heq
  rw [argumentQuery, argumentQuery, normalDocument_document, normalDocument_document] at hnormal
  simp [shown, isSuppressed, normal_eq, mapChildren, normalNode, dropDescription, Seq.tuple, Seq.map] at hnormal

end GraphDoc
