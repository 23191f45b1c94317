import GraphDoc.Proofs.Document.Faithful

/-!
# Texts that can be read again

The text of a document that was read need not be a document itself: a block or a list that is left empty, a
comma between interfaces or interfaces behind directives are no part of the grammar. `DocumentReadsBack` says
exactly which texts can be read all the same, and as what.
-/

namespace GraphDoc

open GraphDoc.Tree

/-- Definitions whose texts end where they should are read back if each of them is. -/
theorem documentReadsBack_iff_of_not_runsOn {ds : List Tree} (h : ∀ d ∈ ds, ¬d.RunsOn) :
    (∃ rs, DocumentReadsBack ds rs) ↔ ∀ d ∈ ds, ∃ r, DefinitionReadsBack d r := by
  induction ds with
  | nil => exact ⟨fun _ => by simp, fun _ => ⟨[], .nil⟩⟩
  | cons d ds ih =>
    have hrest := ih fun t ht => h t (List.mem_cons_of_mem _ ht)
    rw [List.forall_mem_cons, ← hrest]
    constructor
    · rintro ⟨rs, hread⟩
      have hruns := h d (by simp)
      cases hread with
      | cons hd hds => exact ⟨⟨_, hd⟩, _, hds⟩
      | bareOperation hname => exact absurd ⟨hname, rfl, rfl, rfl⟩ hruns
      | emptyUnion => exact absurd rfl hruns
      | manyInterfaces => exact absurd (.inl (by simp)) hruns
    · rintro ⟨⟨r, hr⟩, rs, hrs⟩
      exact ⟨r :: rs, .cons hr hrs⟩

/-- The text of a document that was read, and of which something shows, can be read again exactly if its
definitions are read back by the rules. Where no text of a definition runs on, that is the case if each definition is
read back by itself, and where nothing is missing, it is the case. -/
theorem reparse_iff {source : String} {t : Tree} (h : parseDocument source = .ok t)
    (hshows : ∃ d ∈ t.definitions, d.isSilent = false) :
    let visible := t.definitions.filter fun d => !d.isSilent
    ∃ text, t.render "" = .ok text ∧
      (∀ r, parseDocument text = .ok r ↔ ∃ rs, DocumentReadsBack visible rs ∧ r = .document (.tuple rs)) ∧
      ((∀ d ∈ visible, ¬d.RunsOn) →
        ((∃ r, parseDocument text = .ok r) ↔ ∀ d ∈ visible, ∃ r, DefinitionReadsBack d r)) ∧
      ((∀ d ∈ visible, d.IsWhole ∧ d.NoEmptySets) → ∃ r, parseDocument text = .ok r) := by
  intro visible
  obtain ⟨ds, hds, -, hvisible, htext⟩ := exists_shown_of_parseDocument h
  have hvisible : visible = ds := hvisible
  have hshown : ∀ d ∈ ds, IsShown d := fun d hd => (hds d hd).1
  have hne : ds ≠ [] := by
    obtain ⟨d, hd, hsilent⟩ := hshows
    rw [← hvisible]
    exact List.ne_nil_of_mem (List.mem_filter.2 ⟨hd, by simp [hsilent]⟩)
  -- what is read is a document, and something shows, so it is not empty
  have hparse : ∀ r, parseDocument (String.ofList (documentText ds)) = .ok r ↔
      ∃ rs, DocumentReadsBack ds rs ∧ r = .document (.tuple rs) := by
    intro r
    constructor
    · intro hr
      obtain ⟨rs, rfl, -⟩ := exists_definitions_of_parseDocument hr
      exact ⟨rs, ((parseDocument_documentText hshown).1 hr).2, rfl⟩
    · rintro ⟨rs, hread, rfl⟩
      exact (parseDocument_documentText hshown).2 ⟨hne, hread⟩
  have hsome : (∃ r, parseDocument (String.ofList (documentText ds)) = .ok r) ↔
      ∃ rs, DocumentReadsBack ds rs := by
    simp only [hparse]
    constructor
    · rintro ⟨_, rs, hread, -⟩
      exact ⟨rs, hread⟩
    · rintro ⟨rs, hread⟩
      exact ⟨_, rs, hread, rfl⟩
  rw [hvisible]
  refine ⟨_, htext, hparse, fun hruns => ?_, fun hsound => ?_⟩
  · rw [hsome, documentReadsBack_iff_of_not_runsOn hruns]
  · rw [hsome]
    exact ⟨_, documentReadsBack_of_sound fun d hd => (isSound_iff (hshown d hd).1).2 (hsound d hd)⟩

/-- A union without members is read, but its text is not. -/
theorem not_reparse_emptyUnion :
    parseDocument "union U" = .ok (.document (.tuple [.unionType "U" (.tuple []) (.tuple []) Option.none])) ∧
      (Tree.document (.tuple [.unionType "U" (.tuple []) (.tuple []) Option.none])).render "" = .ok "union U = " ∧
      ∀ r, parseDocument "union U = " ≠ .ok r := by
  have htape : Tape.ofSource "union U" = .next (.name "union") "union U".toList
      (.next (.name "U") "U".toList .finish) := by
    show Tape.ofChars ("union".toList ++ ' ' :: ("U".toList ++ [])) = _
    rw [Tape.ofChars_name (by decide) (by simp [isBoundary, isNameChar]), Tape.ofChars_space,
      Tape.ofChars_name (by decide) boundary_nil, Tape.ofChars_nil]
    rfl
  have hsource : parseDocument "union U" =
      .ok (.document (.tuple [.unionType "U" (.tuple []) (.tuple []) Option.none])) := by
    rw [parseDocument, parseWith, Syntax.Document.read, Syntax.read, htape]
    rfl
  have hrender : (Tree.document (.tuple [.unionType "U" (.tuple []) (.tuple []) Option.none])).render "" =
      .ok "union U = " := rfl
  obtain ⟨text, htext, hparse, -⟩ := reparse_iff hsource ⟨_, List.mem_singleton_self _, rfl⟩
  rw [hrender] at htext
  cases htext
  refine ⟨hsource, hrender, fun r hr => ?_⟩
  obtain ⟨rs, hread, -⟩ := (hparse r).1 hr
  have hvisible : (Tree.document (.tuple [.unionType "U" (.tuple []) (.tuple []) Option.none])).definitions.filter
      (fun d => !d.isSilent) = [.unionType "U" (.tuple []) (.tuple []) Option.none] := rfl
  rw [hvisible] at hread
  cases hread with
  | cons hd => exact not_runsOn_of_readsBack hd rfl

end GraphDoc
