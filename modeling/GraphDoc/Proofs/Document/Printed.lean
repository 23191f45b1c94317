import GraphDoc.Proofs.Syntax.RunOns

/-!
# Documents in print

The text of a document is the text of its definitions, less those that are suppressed. Whether it can be
read again, and as what, is a matter of `DocumentReadsBack`.
-/

namespace GraphDoc

open GraphDoc.Tree
open Tape (ofChars)

/-- The definitions of a document that show in print. -/
def shown (ds : List Tree) : List Tree := ds.filter fun d => !d.isSuppressed

/-- What is shown of a list of definitions is a definition and not suppressed. -/
theorem isShown_of_mem_shown {ds : List Tree} (h : ∀ d ∈ ds, IsDefinition d) : ∀ d ∈ shown ds, IsShown d := by
  intro d hd
  obtain ⟨hmem, hshown⟩ := List.mem_filter.1 hd
  exact ⟨h d hmem, by simpa using hshown⟩

/-- A shown definition prints some text. -/
theorem printed_ne_empty {d : Tree} (h : IsShown d) : d.printed "" ≠ "" := by
  obtain ⟨hname, cs, htext, -⟩ := exists_chars_eq_keyword h.1 h.2
  intro hempty
  rw [chars, hempty] at htext
  have hword : d.keyword.toList = [] := (List.append_eq_nil_iff.1 htext.symm).1
  exact ne_empty_of_isName hname (String.toList_eq_nil_iff.1 hword)

/-- A suppressed definition prints no text. -/
theorem printed_of_isSuppressed {d : Tree} (h : d.isSuppressed = true) : d.printed "" = "" := by
  cases d with
  | schema query mutation subscription description =>
    rw [(printsAs_schema query mutation subscription description "").printed_eq,
      schema_eq query mutation subscription description, if_pos h]
  | _ => cases h

/-- The definitions that are suppressed are those that print as nothing. -/
theorem isSilent_eq_isSuppressed {d : Tree} (h : IsDefinition d) : d.isSilent = d.isSuppressed := by
  have hrender := (stable_definition h "").self
  rw [isSilent, hrender]
  cases hsup : d.isSuppressed with
  | true => simp [printed_of_isSuppressed hsup]
  | false => simpa using printed_ne_empty ⟨h, hsup⟩

/-- Of a list of definitions the silent ones are exactly the suppressed ones. -/
theorem filter_isSilent {ds : List Tree} (h : ∀ d ∈ ds, IsDefinition d) :
    ds.filter (fun d => !d.isSilent) = shown ds :=
  List.filter_congr fun d hd => by rw [isSilent_eq_isSuppressed (h d hd)]

/-- The texts that are not empty are those of the definitions that show. -/
theorem filter_printed_ne_empty {ds : List Tree} (h : ∀ d ∈ ds, IsDefinition d) :
    (ds.map (·.printed "")).filter (· ≠ "") = (shown ds).map (·.printed "") := by
  rw [List.filter_map, shown]
  congr 1
  refine List.filter_congr fun d hd => ?_
  cases hsup : d.isSuppressed with
  | true => simp [printed_of_isSuppressed hsup]
  | false => simpa using printed_ne_empty ⟨h d hd, hsup⟩

/-- The text of a document. -/
theorem render_document {ds : List Tree} (h : ∀ d ∈ ds, IsDefinition d) (form : SeqForm) :
    (Tree.document ⟨form, ds⟩).render "" = .ok (String.ofList (documentText (shown ds))) := by
  have hstable : ∀ d ∈ ds, Stable "" d := fun d hd => stable_definition (h d hd) ""
  have hrender : (Tree.document ⟨form, ds⟩).render "" = (do return Layout.document (← renderAll ds "")) := rfl
  have htext : ("\n\n".intercalate ((shown ds).map (·.printed ""))).toList = documentText (shown ds) := by
    rw [toList_intercalate_eq_series, series_map]
    rfl
  rw [hrender, (renderAll_eq hstable).1]
  show Except.ok (Layout.document _) = _
  -- what prints as nothing is dropped before the texts are joined
  rw [Layout.document, filter_printed_ne_empty h, ← htext, String.ofList_toList]

/-- The normal forms of the definitions that show have the same text. -/
theorem render_document_normal {ds : List Tree} (h : ∀ d ∈ ds, IsShown d) :
    (Tree.document (.tuple (ds.map normal))).render "" = .ok (String.ofList (documentText ds)) := by
  have hstable : ∀ d ∈ ds, Stable "" d := fun d hd => stable_definition (h d hd).1 ""
  have hrender : ∀ ts, (Tree.document (.tuple ts)).render "" = (do return Layout.document (← renderAll ts "")) :=
    fun _ => rfl
  have hself : shown ds = ds := List.filter_eq_self.2 fun d hd => by simp [(h d hd).2]
  have htext := render_document (fun d hd => (h d hd).1) SeqForm.tuple
  rw [hself] at htext
  rw [hrender, (renderAll_eq hstable).2, ← htext]
  show _ = (Tree.document (.tuple ds)).render ""
  rw [hrender, (renderAll_eq hstable).1]

/-- The normal form of a document is that of the definitions it shows. -/
theorem normalDocument_document (ds : List Tree) :
    (Tree.document (.tuple ds)).normalDocument = .document (.tuple ((shown ds).map normal)) :=
  normal_eq _

/-- A document that was read has the text of the definitions that show. -/
theorem exists_shown_of_parseDocument {source : String} {t : Tree} (h : parseDocument source = .ok t) :
    ∃ ds, (∀ d ∈ ds, IsShown d ∧ IsRead IsDefinition d) ∧ t.normalDocument = .document (.tuple (ds.map normal)) ∧
      t.definitions.filter (fun d => !d.isSilent) = ds ∧ t.render "" = .ok (String.ofList (documentText ds)) := by
  obtain ⟨ds, rfl, -, hall⟩ := exists_definitions_of_parseDocument h
  have hdefs : ∀ d ∈ ds, IsDefinition d := fun d hd => (hall d hd).1
  refine ⟨shown ds, fun d hd => ?_, normalDocument_document ds, filter_isSilent hdefs, render_document hdefs _⟩
  exact ⟨isShown_of_mem_shown hdefs d hd, hall d (List.mem_of_mem_filter hd)⟩

/-- What the text of definitions can be parsed as. -/
theorem parseDocument_documentText {ds rs : List Tree} (h : ∀ d ∈ ds, IsShown d) :
    parseDocument (String.ofList (documentText ds)) = .ok (.document (.tuple rs)) ↔
      ds ≠ [] ∧ DocumentReadsBack ds rs := by
  constructor
  · intro hparse
    have hread : DocumentReadsBack ds rs := (readsTo_documentText_iff h).1 (.inr hparse)
    refine ⟨?_, hread⟩
    rintro rfl
    cases hread
    obtain ⟨found, heq, hne, -⟩ := exists_definitions_of_parseDocument hparse
    cases heq
    exact hne rfl
  · rintro ⟨hne, hread⟩
    rcases (readsTo_documentText_iff h).2 hread with ⟨-, rfl⟩ | hparse
    · cases hread
      exact absurd rfl hne
    · exact hparse

end GraphDoc
