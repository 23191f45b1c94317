import GraphDoc.Proofs.Document.Faithful

/-!
# Round trips

A document is printed and read again. It comes back as it was, up to descriptions and to the definitions that
print as nothing, exactly if something shows and no part is missing, in the wrong place or given twice.
-/

namespace GraphDoc

open GraphDoc.Tree

/-- Whether a document can be read back from its text: some definition shows; no block, union or selection set
is empty; an object type has one interface at most, and none if it has directives; and no object literal
repeats a name. -/
structure Tree.IsFaithful (t : Tree) : Prop where
  shows : ∃ d ∈ t.definitions, d.isSilent = false
  whole : ∀ d ∈ t.definitions, d.IsWhole
  distinct : t.NoNameRepeats
  filled : t.NoEmptySets

/-- What is known of the definitions of documents that were read. -/
theorem read_definitions {trees : List Tree} (h : ∀ t ∈ trees, ∃ source, parseDocument source = .ok t) :
    ∀ d ∈ trees.flatMap definitions, IsRead IsDefinition d ∧ FromSource d := by
  intro d hd
  obtain ⟨t, ht, hd⟩ := List.mem_flatMap.1 hd
  obtain ⟨source, hparse⟩ := h t ht
  obtain ⟨ds, rfl, -, hall⟩ := exists_definitions_of_parseDocument hparse
  exact ⟨hall d hd, fromSource_of_parseDocument hparse d hd⟩

/-- The definitions that do not print as nothing are those that show. -/
theorem filterDefinitions_isSilent {ds : List Tree} (h : ∀ d ∈ ds, IsDefinition d) :
    (Tree.document (.tuple ds)).filterDefinitions (fun d => !d.isSilent) = .document (.tuple (shown ds)) := by
  show Tree.document (.tuple (ds.filter fun d => !d.isSilent)) = _
  rw [filter_isSilent h]

/-- Documents are equal when their definitions are, one by one. -/
theorem same_document_iff {ts us : List Tree} :
    (Tree.document (.tuple ts)).same (.document (.tuple us)) = true ↔
      List.Forall₂ (fun t u => t.same u = true) ts us := by
  rw [← sameAll_contents]
  simp [Tree.same, content, Content.sameAll, Content.same, Seq.tuple]

/-- A document is faithful when it shows something, and all it shows is sound and repeats no name. -/
theorem isFaithful_iff {ds : List Tree} (h : ∀ d ∈ ds, IsDefinition d) :
    (Tree.document (.tuple ds)).IsFaithful ↔
      shown ds ≠ [] ∧ ∀ d ∈ shown ds, IsSound d ∧ d.NoNameRepeats := by
  have hmem : ∀ d, d ∈ shown ds ↔ d ∈ ds ∧ d.isSuppressed = false := by simp [shown]
  -- a suppressed definition is a schema block, which has no parts
  have hquiet : ∀ d : Tree, d.isSuppressed = true → d.IsWhole ∧ d.NoNameRepeats ∧ d.NoEmptySets := by
    intro d hd
    cases d with
    | schema => exact ⟨trivial, noNameRepeats_iff.2 ⟨trivial, by simp [children]⟩, noEmptySets_leaf trivial rfl⟩
    | _ => cases hd
  have hsome : (∃ d ∈ ds, d.isSilent = false) ↔ shown ds ≠ [] := by
    constructor
    · rintro ⟨d, hd, hshown⟩
      rw [isSilent_eq_isSuppressed (h d hd)] at hshown
      exact List.ne_nil_of_mem ((hmem d).2 ⟨hd, hshown⟩)
    · intro hne
      obtain ⟨d, hd⟩ := List.exists_mem_of_ne_nil _ hne
      obtain ⟨hd, hshown⟩ := (hmem d).1 hd
      exact ⟨d, hd, by rw [isSilent_eq_isSuppressed (h d hd), hshown]⟩
  constructor
  · rintro ⟨hshows, hwhole, hdistinct, hfilled⟩
    have hdistinct' := (noNameRepeats_iff.1 hdistinct).2
    have hfilled' := (noEmptySets_iff.1 hfilled).2
    refine ⟨hsome.1 hshows, fun d hd => ?_⟩
    obtain ⟨hd, -⟩ := (hmem d).1 hd
    exact ⟨(isSound_iff (h d hd)).2 ⟨hwhole d hd, hfilled' d hd⟩, hdistinct' d hd⟩
  · rintro ⟨hshows, hall⟩
    have hparts : ∀ d ∈ ds, d.IsWhole ∧ d.NoNameRepeats ∧ d.NoEmptySets := by
      intro d hd
      cases hsup : d.isSuppressed with
      | true => exact hquiet d hsup
      | false =>
        obtain ⟨hsound, hdistinct⟩ := hall d ((hmem d).2 ⟨hd, hsup⟩)
        obtain ⟨hwhole, hfilled⟩ := (isSound_iff (h d hd)).1 hsound
        exact ⟨hwhole, hdistinct, hfilled⟩
    exact ⟨hsome.2 hshows, fun d hd => (hparts d hd).1,
      noNameRepeats_iff.2 ⟨trivial, fun d hd => (hparts d hd).2.1⟩,
      noEmptySets_iff.2 ⟨trivial, fun d hd => (hparts d hd).2.2⟩⟩

/-- The definitions that are read back as equal ones are sound and have no repeated names, and then what is
read back is their normal forms. -/
theorem readsBack_same_iff {ds rs : List Tree} (h : ∀ d ∈ ds, IsRead IsDefinition d ∧ FromSource d)
    (hshown : ∀ d ∈ ds, IsShown d) :
    DocumentReadsBack ds rs ∧ List.Forall₂ (fun r d => r.same d = true) rs ds ↔
      (∀ d ∈ ds, IsSound d ∧ d.NoNameRepeats) ∧ rs = ds.map normal := by
  have hnormal : ds.map reading = ds.map normal := map_reading_eq_map_normal fun d hd => (h d hd).1
  have hsame : List.Forall₂ (fun r d => r.same d = true) (ds.map normal) ds ↔ ∀ d ∈ ds, d.NoNameRepeats := by
    rw [List.forall₂_map_left_iff, List.forall₂_same]
    exact forall₂_congr fun d hd => same_normal_iff (h d hd).2
  constructor
  · rintro ⟨hread, heq⟩
    have hkept : List.Forall₂ (fun r d => r.same d = true) (shown rs) ds := by
      rwa [shown_eq_self_of_same hshown heq]
    obtain ⟨hsound, hrs⟩ := sound_of_documentReadsBack discerns_same hread hshown hkept
    rw [hnormal] at hrs
    subst hrs
    exact ⟨fun d hd => ⟨hsound d hd, hsame.1 heq d hd⟩, rfl⟩
  · rintro ⟨hall, rfl⟩
    refine ⟨?_, hsame.2 fun d hd => (hall d hd).2⟩
    rw [← hnormal]
    exact documentReadsBack_of_sound fun d hd => (hall d hd).1

/-- The trees that the text of definitions can be parsed as and that are equal to what was printed. -/
theorem parse_same_iff {ds : List Tree} (h : ∀ d ∈ ds, IsRead IsDefinition d ∧ FromSource d) {t : Tree} :
    parseDocument (String.ofList (documentText (shown ds))) = .ok t ∧ t.same (.document (.tuple (shown ds))) = true ↔
      (Tree.document (.tuple ds)).IsFaithful ∧ t = .document (.tuple ((shown ds).map normal)) := by
  have hdefs : ∀ d ∈ ds, IsDefinition d := fun d hd => (h d hd).1.1
  have hshown := isShown_of_mem_shown hdefs
  have hread : ∀ d ∈ shown ds, IsRead IsDefinition d ∧ FromSource d := fun d hd => h d (List.mem_of_mem_filter hd)
  rw [isFaithful_iff hdefs]
  constructor
  · rintro ⟨hparse, hsame⟩
    obtain ⟨rs, rfl, -⟩ := exists_definitions_of_parseDocument hparse
    obtain ⟨hne, hback⟩ := (parseDocument_documentText hshown).1 hparse
    obtain ⟨hall, rfl⟩ := (readsBack_same_iff hread hshown).1 ⟨hback, same_document_iff.1 hsame⟩
    exact ⟨⟨hne, hall⟩, rfl⟩
  · rintro ⟨⟨hne, hall⟩, rfl⟩
    obtain ⟨hback, hsame⟩ := (readsBack_same_iff hread hshown).2 ⟨hall, rfl⟩
    exact ⟨(parseDocument_documentText hshown).2 ⟨hne, hback⟩, same_document_iff.2 hsame⟩

/-- A document that was read, from one source or several, comes back from its text exactly if it is faithful.
What comes back then lacks only the descriptions, and it prints as the same text. -/
theorem round_trip_iff {trees : List Tree} (h : ∀ t ∈ trees, ∃ source, parseDocument source = .ok t) :
    let document := Tree.document (.tuple (trees.flatMap definitions))
    let expected := document.filterDefinitions fun d => !d.isSilent
    ∃ text, document.render "" = .ok text ∧
      ((∃ t, parseDocument text = .ok t ∧ t.same expected = true) ↔ document.IsFaithful) ∧
      ∀ t, parseDocument text = .ok t → t.same expected = true →
        t = expected.eraseDescriptions ∧ t.render "" = .ok text := by
  intro document expected
  have hread := read_definitions h
  have hdefs : ∀ d ∈ trees.flatMap definitions, IsDefinition d := fun d hd => (hread d hd).1.1
  have hexpected : expected = .document (.tuple (shown (trees.flatMap definitions))) := filterDefinitions_isSilent hdefs
  rw [hexpected]
  refine ⟨_, render_document hdefs _, ?_, ?_⟩
  · constructor
    · rintro ⟨t, ht⟩
      exact ((parse_same_iff hread).1 ht).1
    · intro hfaithful
      exact ⟨_, (parse_same_iff hread).2 ⟨hfaithful, rfl⟩⟩
  · intro t hparse hsame
    obtain ⟨hfaithful, rfl⟩ := (parse_same_iff hread).1 ⟨hparse, hsame⟩
    obtain ⟨-, hall⟩ := (isFaithful_iff hdefs).1 hfaithful
    -- no name is repeated, so the normal forms lack the descriptions only
    have herase : (shown (trees.flatMap definitions)).map normal =
        (shown (trees.flatMap definitions)).map eraseDescriptions :=
      List.map_congr_left fun d hd =>
        normal_eq_eraseDescriptions (hread d (List.mem_of_mem_filter hd)).2 (hall d hd).2
    refine ⟨?_, render_document_normal (isShown_of_mem_shown hdefs)⟩
    rw [herase, eraseDescriptions_eq]
    rfl

/-- A query of one field. -/
private theorem parse_fieldQuery :
    parseDocument "\x7b a \x7d" = .ok (.document (.tuple [.operation "query" Option.none (.tuple []) (.tuple [])
      (.tuple [.field "a" Option.none (.tuple []) (.tuple []) (.tuple [])])])) := by
  have htape : Tape.ofSource "\x7b a \x7d" = .next (.punct .braceL) "\x7b a \x7d".toList
      (.next (.name "a") "a \x7d".toList (.next (.punct .braceR) "\x7d".toList .finish)) := by
    show Tape.ofChars ('{' :: ' ' :: ("a".toList ++ ' ' :: '}' :: [])) = _
    rw [Tape.ofChars_punct (m := .braceL) (by decide), Tape.ofChars_space,
      Tape.ofChars_name (by decide) (by simp [isBoundary, isNameChar]), Tape.ofChars_space,
      Tape.ofChars_punct (m := .braceR) (by decide), Tape.ofChars_nil]
    rfl
  rw [parseDocument, parseWith, Syntax.Document.read, Syntax.read, htape]
  rfl

/-- A scalar type. -/
theorem parse_scalarType :
    parseDocument "scalar A" = .ok (.document (.tuple [.scalarType "A" (.tuple []) Option.none])) := by
  have htape : Tape.ofSource "scalar A" = .next (.name "scalar") "scalar A".toList
      (.next (.name "A") "A".toList .finish) := by
    show Tape.ofChars ("scalar".toList ++ ' ' :: ("A".toList ++ [])) = _
    rw [Tape.ofChars_name (by decide) (by simp [isBoundary, isNameChar]), Tape.ofChars_space,
      Tape.ofChars_name (by decide) boundary_nil, Tape.ofChars_nil]
    rfl
  rw [parseDocument, parseWith, Syntax.Document.read, Syntax.read, htape]
  rfl

/-- The documents of two sources, taken together, come back if and only if they are faithful. -/
theorem round_trip_of_two_sources :
    let query := Tree.operation "query" Option.none (.tuple []) (.tuple [])
      (.tuple [.field "a" Option.none (.tuple []) (.tuple []) (.tuple [])])
    let scalar := Tree.scalarType "A" (.tuple []) Option.none
    let document := Tree.document (.tuple [query, scalar])
    parseDocument "\x7b a \x7d" = .ok (.document (.tuple [query])) ∧
      parseDocument "scalar A" = .ok (.document (.tuple [scalar])) ∧
      ∃ text, document.render "" = .ok text ∧
        ((∃ t, parseDocument text = .ok t ∧ t.same (document.filterDefinitions fun d => !d.isSilent) = true) ↔
          document.IsFaithful) := by
  intro query scalar document
  have hread : ∀ t ∈ [Tree.document (.tuple [query]), .document (.tuple [scalar])],
      ∃ source, parseDocument source = .ok t := by
    intro t ht
    simp only [List.mem_cons, List.not_mem_nil, or_false] at ht
    rcases ht with rfl | rfl
    · exact ⟨_, parse_fieldQuery⟩
    · exact ⟨_, parse_scalarType⟩
  obtain ⟨text, htext, hiff, -⟩ := round_trip_iff hread
  exact ⟨parse_fieldQuery, parse_scalarType, text, htext, hiff⟩

/-- A query with an empty selection set is read, shows in print, is whole and repeats no name. It does not come
back all the same: its text is only its keyword. -/
theorem round_trip_lost_by_empty_set :
    let document := Tree.document (.tuple [.operation "query" Option.none (.tuple []) (.tuple []) (.tuple [])])
    parseDocument "\x7b \x7d" = .ok document ∧ document.render "" = .ok "query" ∧
      ¬((∃ t, parseDocument "query" = .ok t ∧ t.same (document.filterDefinitions fun d => !d.isSilent) = true) ↔
        (∃ d ∈ document.definitions, d.isSilent = false) ∧ (∀ d ∈ document.definitions, d.IsWhole) ∧
          document.NoNameRepeats) := by
  intro document
  have hsource : Tape.ofSource "\x7b \x7d" =
      .next (.punct .braceL) "\x7b \x7d".toList (.next (.punct .braceR) "\x7d".toList .finish) := by
    show Tape.ofChars ['{', ' ', '}'] = _
    rw [Tape.ofChars_punct (m := .braceL) (by decide), Tape.ofChars_space,
      Tape.ofChars_punct (m := .braceR) (by decide), Tape.ofChars_nil]
    rfl
  have hkeyword : Tape.ofSource "query" = .next (.name "query") "query".toList .finish := by
    show Tape.ofChars ("query".toList ++ []) = _
    rw [Tape.ofChars_name (by decide) boundary_nil, Tape.ofChars_nil]
    rfl
  refine ⟨?_, rfl, fun hiff => ?_⟩
  · rw [parseDocument, parseWith, Syntax.Document.read, Syntax.read, hsource]
    rfl
  · have hleaf : ∀ c ∈ document.children, c.NoNameRepeats := by
      intro c hc
      obtain rfl := List.mem_singleton.1 hc
      exact noNameRepeats_iff.2 ⟨trivial, by simp [children]⟩
    obtain ⟨t, hparse, -⟩ := hiff.2 ⟨⟨_, List.mem_singleton_self _, rfl⟩,
      fun d hd => by obtain rfl := List.mem_singleton.1 hd; trivial, noNameRepeats_iff.2 ⟨trivial, hleaf⟩⟩
    rw [parseDocument, parseWith, Syntax.Document.read, Syntax.read, hkeyword] at hparse
    cases hparse

end GraphDoc
