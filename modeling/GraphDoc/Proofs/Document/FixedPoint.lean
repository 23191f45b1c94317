import GraphDoc.Proofs.Document.Faithful
import GraphDoc.Proofs.Document.Identity

/-!
# Texts that are printed again as they are

Where the text of a document can be read again, what is read need not print as that text: a definition that
lacks a part may take it from the next one. The text stays exactly if no definition that shows lacks anything.
-/

namespace GraphDoc

open GraphDoc.Tree

/-- What is read back prints as the text it was read from only if no definition lacked anything, and then it is the
normal forms of what was printed. -/
theorem sound_of_render_eq {ds rs : List Tree} (hds : ∀ d ∈ ds, IsShown d ∧ IsRead IsDefinition d)
    (hparse : parseDocument (String.ofList (documentText ds)) = .ok (.document (.tuple rs)))
    (hrender : (Tree.document (.tuple rs)).render "" = .ok (String.ofList (documentText ds))) :
    (∀ d ∈ ds, IsSound d) ∧ rs = ds.map normal := by
  have hshown : ∀ d ∈ ds, IsShown d := fun d hd => (hds d hd).1
  obtain ⟨_, heq, -, hread⟩ := exists_definitions_of_parseDocument hparse
  cases heq
  have hdefs : ∀ r ∈ rs, IsDefinition r := fun r hr => (hread r hr).1
  have hrs : ∀ r ∈ shown rs, IsShown r ∧ IsRead IsDefinition r := fun r hr =>
    ⟨isShown_of_mem_shown hdefs r hr, hread r (List.mem_of_mem_filter hr)⟩
  have hprint : (Tree.document (.tuple rs)).render "" = .ok (String.ofList (documentText (shown rs))) :=
    render_document hdefs _
  -- the two texts agree, so the definitions that show have the normal forms of those that were printed
  rw [hprint, Except.ok.injEq, String.ofList_inj, documentText_eq_iff hrs hds,
    ← List.forall₂_eq_eq_eq, List.forall₂_map_left_iff, List.forall₂_map_right_iff] at hrender
  have hback := ((parseDocument_documentText hshown).1 hparse).2
  obtain ⟨hsound, heq⟩ := sound_of_documentReadsBack discerns_normal hback hshown hrender
  exact ⟨hsound, heq.trans (map_reading_eq_map_normal fun d hd => (hds d hd).2)⟩

/-- Where nothing is lacking, the text is read as the normal forms of what was printed. -/
theorem parseDocument_documentText_of_sound {ds : List Tree} (hds : ∀ d ∈ ds, IsShown d ∧ IsRead IsDefinition d)
    (hne : ds ≠ []) (hsound : ∀ d ∈ ds, IsSound d) :
    parseDocument (String.ofList (documentText ds)) = .ok (.document (.tuple (ds.map normal))) := by
  rw [← map_reading_eq_map_normal fun d hd => (hds d hd).2]
  exact (parseDocument_documentText fun d hd => (hds d hd).1).2 ⟨hne, documentReadsBack_of_sound hsound⟩

/-- Whatever the text of a document is read as, it has as many definitions as showed and prints as that text
exactly if no definition that showed is cut short or has an empty selection set. The text is then read as the
normal form of the document. -/
theorem print_fixed_point_iff {source : String} {t : Tree} (h : parseDocument source = .ok t) :
    let visible := t.definitions.filter fun d => !d.isSilent
    ∃ text, t.render "" = .ok text ∧
      (∀ r, parseDocument text = .ok r →
        (r.definitions.length = visible.length ∧ r.render "" = .ok text ↔
          ∀ d ∈ visible, d.IsWhole ∧ d.NoEmptySets)) ∧
      (visible ≠ [] → (∀ d ∈ visible, d.IsWhole ∧ d.NoEmptySets) → parseDocument text = .ok t.normalDocument) := by
  intro visible
  obtain ⟨ds, hds, hnormal, hvisible, htext⟩ := exists_shown_of_parseDocument h
  have hsound : (∀ d ∈ ds, IsSound d) ↔ ∀ d ∈ ds, d.IsWhole ∧ d.NoEmptySets :=
    forall₂_congr fun d hd => isSound_iff (hds d hd).1.1
  rw [show visible = ds from hvisible, ← hsound, hnormal]
  refine ⟨_, htext, fun r hr => ?_, parseDocument_documentText_of_sound hds⟩
  obtain ⟨rs, rfl, -⟩ := exists_definitions_of_parseDocument hr
  constructor
  · rintro ⟨-, hrender⟩
    exact (sound_of_render_eq hds hr hrender).1
  · intro hall
    -- something was read, so something showed
    have hne : ds ≠ [] := ((parseDocument_documentText fun d hd => (hds d hd).1).1 hr).1
    rw [parseDocument_documentText_of_sound hds hne hall] at hr
    cases hr
    exact ⟨by simp [definitions], render_document_normal fun d hd => (hds d hd).1⟩

/-- A union with the given members, and the query for the field `a`. -/
def unionAndQuery (members : List Tree) : Tree :=
  .document (.tuple [.unionType "A" (.tuple members) (.tuple []) Option.none,
    .operation "query" Option.none (.tuple []) (.tuple [])
      (.tuple [.field "a" Option.none (.tuple []) (.tuple []) (.tuple [])])])

/-- A union without members above a query in short form. -/
private theorem parse_unionAndQuery : parseDocument "union A\x7ba\x7d" = .ok (unionAndQuery []) := by
  have htape : Tape.ofSource "union A\x7ba\x7d" = .next (.name "union") "union A\x7ba\x7d".toList
      (.next (.name "A") "A\x7ba\x7d".toList (.next (.punct .braceL) "\x7ba\x7d".toList
        (.next (.name "a") "a\x7d".toList (.next (.punct .braceR) "\x7d".toList .finish)))) := by
    show Tape.ofChars ("union".toList ++ ' ' :: ("A".toList ++ '{' :: ("a".toList ++ '}' :: []))) = _
    rw [Tape.ofChars_name (by decide) (by simp [isBoundary, isNameChar]), Tape.ofChars_space,
      Tape.ofChars_name (by decide) (by simp [isBoundary, isNameChar]), Tape.ofChars_punct (m := .braceL) (by decide),
      Tape.ofChars_name (by decide) (by simp [isBoundary, isNameChar]), Tape.ofChars_punct (m := .braceR) (by decide),
      Tape.ofChars_nil]
    rfl
  rw [parseDocument, parseWith, Syntax.Document.read, Syntax.read, htape]
  rfl

/-- The text printed for it, where the keyword `query` is read as a member of the union. -/
private theorem parse_unionWithMember :
    parseDocument "union A = \n\nquery \x7b\n  a\n\x7d" = .ok (unionAndQuery [.typeName "query"]) := by
  have htape : Tape.ofSource "union A = \n\nquery \x7b\n  a\n\x7d" =
      .next (.name "union") "union A = \n\nquery \x7b\n  a\n\x7d".toList
        (.next (.name "A") "A = \n\nquery \x7b\n  a\n\x7d".toList
          (.next (.punct .equals) "= \n\nquery \x7b\n  a\n\x7d".toList
            (.next (.name "query") "query \x7b\n  a\n\x7d".toList
              (.next (.punct .braceL) "\x7b\n  a\n\x7d".toList
                (.next (.name "a") "a\n\x7d".toList (.next (.punct .braceR) "\x7d".toList .finish)))))) := by
    show Tape.ofChars ("union".toList ++ ' ' :: ("A".toList ++ ' ' :: '=' :: ' ' :: '\n' :: '\n' ::
      ("query".toList ++ ' ' :: '{' :: '\n' :: ' ' :: ' ' :: ("a".toList ++ '\n' :: '}' :: [])))) = _
    rw [Tape.ofChars_name (by decide) (by simp [isBoundary, isNameChar]), Tape.ofChars_space,
      Tape.ofChars_name (by decide) (by simp [isBoundary, isNameChar]), Tape.ofChars_space,
      Tape.ofChars_punct (m := .equals) (by decide), Tape.ofChars_space, Tape.ofChars_newline, Tape.ofChars_newline,
      Tape.ofChars_name (by decide) (by simp [isBoundary, isNameChar]), Tape.ofChars_space,
      Tape.ofChars_punct (m := .braceL) (by decide), Tape.ofChars_newline, Tape.ofChars_space, Tape.ofChars_space,
      Tape.ofChars_name (by decide) (by simp [isBoundary, isNameChar]), Tape.ofChars_newline,
      Tape.ofChars_punct (m := .braceR) (by decide), Tape.ofChars_nil]
    rfl
  rw [parseDocument, parseWith, Syntax.Document.read, Syntax.read, htape]
  rfl

/-- The text of a union without members and a query is read as a union with the member `query` and a query, which
is another text. -/
theorem print_not_fixed_by_emptyUnion :
    parseDocument "union A\x7ba\x7d" = .ok (unionAndQuery []) ∧
      (unionAndQuery []).render "" = .ok "union A = \n\nquery \x7b\n  a\n\x7d" ∧
      parseDocument "union A = \n\nquery \x7b\n  a\n\x7d" = .ok (unionAndQuery [.typeName "query"]) ∧
      (unionAndQuery [.typeName "query"]).render "" ≠ .ok "union A = \n\nquery \x7b\n  a\n\x7d" := by
  have hrender : (unionAndQuery []).render "" = .ok "union A = \n\nquery \x7b\n  a\n\x7d" := rfl
  obtain ⟨_, htext, hiff, -⟩ := print_fixed_point_iff parse_unionAndQuery
  rw [hrender] at htext
  cases htext
  refine ⟨parse_unionAndQuery, hrender, parse_unionWithMember, fun hsame => ?_⟩
  have hparts := (hiff _ parse_unionWithMember).1 ⟨rfl, hsame⟩
  exact (hparts _ (List.mem_cons_self ..)).1 rfl

end GraphDoc
