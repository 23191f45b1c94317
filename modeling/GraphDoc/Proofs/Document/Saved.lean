import GraphDoc.Disk.Basic
import GraphDoc.Proofs.Document.RoundTrip
import GraphDoc.Proofs.Document.Signatures
import GraphDoc.Proofs.Syntax.Blocks

/-!
# Documents in files

A document is written into a file with a line feed behind it, and maybe with a comment above it. If it comes back
from its text, it comes back from the file as well, and what comes back passes every check that the document passed.
-/

namespace GraphDoc

open GraphDoc.Tree
open Tape (ofChars)

/-! ## Texts in files -/

/-- Whether a header is a comment of one line. -/
def IsComment (header : String) : Prop := ∃ cs, header.toList = '#' :: cs ∧ '\n' ∉ cs ∧ '\r' ∉ cs

/-- What is written into a file: the text below its header, if there is one, and a last line feed. -/
def savedText (header : Option String) (text : String) : String := header.elim text (addHeader · text) ++ "\n"

/-- A text without carriage returns comes back from its file as it is. -/
theorem text?_ofText {text : String} (h : '\r' ∉ text.toList) : (FileContent.ofText text).text? = some text := by
  have hdecode : String.fromUTF8? text.toUTF8 = some text := by
    unfold String.fromUTF8?
    exact dif_pos text.isValidUTF8
  rw [FileContent.ofText, FileContent.text?, hdecode, Option.map_some, unifyBreaks_eq_self h, String.ofList_toList]

/-- A header that is a comment already goes above the text as it stands. -/
theorem addHeader_of_isComment {header : String} (h : IsComment header) (text : String) :
    addHeader header text = header ++ "\n\n" ++ text := by
  obtain ⟨cs, hheader, hfeed, -⟩ := h
  have hend : Text.endsWith header "\n" = false := by
    rw [Bool.eq_false_iff, Text.endsWith, ne_eq, List.isSuffixOf_iff_suffix, hheader]
    intro hsuffix
    have hmem := hsuffix.subset (List.mem_singleton_self '\n')
    simp [hfeed] at hmem
  rw [addHeader, hend]
  rfl

/-- What stands above the text in a file leaves no trace on the tape, and holds no carriage return. -/
theorem exists_toList_savedText {header : Option String} (hheader : ∀ above ∈ header, IsComment above) (text : String) :
    ∃ above, (savedText header text).toList = above ++ (text.toList ++ ['\n']) ∧ '\r' ∉ above ∧
      ∀ k, ofChars (above ++ k) = ofChars k := by
  cases header with
  | none => exact ⟨[], by simp [savedText], by simp, fun k => rfl⟩
  | some above =>
    have habove := hheader above rfl
    rw [savedText, Option.elim_some, addHeader_of_isComment habove]
    obtain ⟨cs, hcs, hfeed, hreturn⟩ := habove
    refine ⟨'#' :: (cs ++ ['\n', '\n']), by simp [hcs], by simp [hreturn], fun k => ?_⟩
    have hline : '#' :: (cs ++ ['\n', '\n']) ++ k = '#' :: (cs ++ '\n' :: '\n' :: k) := by simp
    rw [hline, Tape.ofChars_comment hfeed hreturn, Tape.ofChars_newline]

/-! ## Definitions in files -/

/-- The line feed the command adds at the end gives no token. -/
theorem ofChars_tailText_newline (ds : List Tree) :
    ofChars (tailText ds ++ ['\n']) = ofChars (documentText ds ++ ['\n']) := by
  cases ds with
  | nil => rfl
  | cons d ds => rw [tailText_cons, List.cons_append, List.cons_append, Tape.ofChars_newline, Tape.ofChars_newline]

/-- The text with that line feed is one where reading definitions comes to an end. -/
theorem ends_tailText_newline {ds : List Tree} (h : ∀ d ∈ ds, IsShown d) : Ends (tailText ds ++ ['\n']) := by
  intro bad
  induction ds generalizing bad with
  | nil => exact clear_ignored (by decide) (clear_nil bad).2
  | cons d ds ih =>
    have hd := h d (by simp)
    have hfront := front_definition hd.1 hd.2 (ih (fun t ht => h t (List.mem_cons_of_mem _ ht)) _)
    refine ⟨by simp [tailText_cons, isBoundary, isNameChar], .name d.keyword, ?_, by simp⟩
    rw [ofChars_tailText_newline, documentText_cons, List.append_assoc, hfront]

/-- Sound definitions are read back from a text that ends with a line feed. -/
theorem readsTo_newline {ds : List Tree} (hshown : ∀ d ∈ ds, IsShown d) (hsound : ∀ d ∈ ds, IsSound d) :
    ReadsTo (documentText ds ++ ['\n']) (ds.map reading) := by
  induction ds with
  | nil =>
    have hblank : ofChars (documentText [] ++ ['\n']) = ofChars [] := Tape.ofChars_newline []
    exact (readsTo_congr hblank _).2 (readsTo_nil.2 rfl)
  | cons d ds ih =>
    have hd := hshown d (by simp)
    have hread := definitionReadsBack_of_sound (hsound d (by simp))
    have hends := ends_tailText_newline fun t ht => hshown t (List.mem_cons_of_mem _ ht)
    have hrest := ih (fun t ht => hshown t (List.mem_cons_of_mem _ ht)) fun t ht => hsound t (List.mem_cons_of_mem _ ht)
    rw [documentText_cons, List.append_assoc, readsTo_of_settles (front_definition hd.1 hd.2 (hends _))
      (settles_definition hd.1 hd.2 hends (not_runsOn_of_readsBack hread))]
    exact ⟨_, _, hread, (readsTo_congr (ofChars_tailText_newline ds) _).2 hrest, rfl⟩

/-- Sound definitions are parsed from their file. -/
theorem parseDocument_savedText {header : Option String} (hheader : ∀ above ∈ header, IsComment above)
    {ds : List Tree} (hshown : ∀ d ∈ ds, IsShown d) (hsound : ∀ d ∈ ds, IsSound d) (hsome : ds ≠ []) :
    parseDocument (savedText header (String.ofList (documentText ds))) = .ok (.document (.tuple (ds.map reading))) := by
  obtain ⟨above, htext, -, habove⟩ := exists_toList_savedText hheader (String.ofList (documentText ds))
  have htape : ofChars (savedText header (String.ofList (documentText ds))).toList =
      ofChars (documentText ds ++ ['\n']) := by
    rw [htext, habove, String.toList_ofList]
  rcases (readsTo_congr htape _).2 (readsTo_newline hshown hsound) with ⟨-, hnone⟩ | hparse
  · exact absurd (List.map_eq_nil_iff.1 hnone) hsome
  · rwa [String.ofList_toList] at hparse

/-! ## Documents that come back -/

/-- Whether a document comes back from its text: what the text is parsed as is equal to the document, but for
definitions that print as nothing, and has the same text. -/
structure Tree.RoundTrips (t : Tree) (text : String) : Prop where
  prints : t.render "" = .ok text
  comesBack : ∃ reread, parseDocument text = .ok reread ∧
    reread.same (t.filterDefinitions fun d => !d.isSilent) = true ∧ reread.render "" = .ok text

/-- A document without descriptions, of which all shows, comes back if its text is parsed as itself. -/
theorem roundTrips_self {rs : List Tree} {text : String} (hparse : parseDocument text = .ok (.document (.tuple rs)))
    (hplain : rs.map eraseDescriptions = rs) (hprints : (Tree.document (.tuple rs)).render "" = .ok text)
    (hkept : (Tree.document (.tuple rs)).filterDefinitions (fun d => !d.isSilent) = .document (.tuple rs)) :
    (Tree.document (.tuple rs)).RoundTrips text := by
  have hfrom : FromSource (.document (.tuple rs)) := fromSource_iff.2 ⟨trivial, fromSource_of_parseDocument hparse⟩
  have herase : (Tree.document (.tuple rs)).eraseDescriptions = .document (.tuple (rs.map eraseDescriptions)) :=
    eraseDescriptions_eq _
  have hsame := same_eraseDescriptions hfrom
  rw [herase, hplain] at hsame
  exact ⟨hprints, _, hparse, by rwa [hkept], hprints⟩

/-- A document that comes back from its text comes back from its file, and what is read there comes back in turn, with
the same text and as many definitions. -/
theorem roundTrips_saved {trees : List Tree} (h : ∀ t ∈ trees, ∃ source, parseDocument source = .ok t)
    {text : String} (htrip : (Tree.document (.tuple (trees.flatMap definitions))).RoundTrips text)
    {header : Option String} (hheader : ∀ above ∈ header, IsComment above) :
    ∃ rs, (FileContent.ofText (savedText header text)).text? = some (savedText header text) ∧
      parseDocument (savedText header text) = .ok (.document (.tuple rs)) ∧
      (Tree.document (.tuple rs)).RoundTrips text ∧
      ((Tree.document (.tuple rs)).filterDefinitions fun d => !d.isSilent).definitions.length =
        ((Tree.document (.tuple (trees.flatMap definitions))).filterDefinitions
          fun d => !d.isSilent).definitions.length := by
  have hread := read_definitions h
  generalize trees.flatMap definitions = ds at htrip hread
  have hdefs : ∀ d ∈ ds, IsDefinition d := fun d hd => (hread d hd).1.1
  have hshown := isShown_of_mem_shown hdefs
  obtain ⟨hprints, reread, hparse, hsame, -⟩ := htrip
  obtain rfl : String.ofList (documentText (shown ds)) = text :=
    Except.ok.inj ((render_document hdefs _).symm.trans hprints)
  rw [filterDefinitions_isSilent hdefs] at hsame ⊢
  obtain ⟨hfaithful, rfl⟩ := (parse_same_iff hread).1 ⟨hparse, hsame⟩
  obtain ⟨hsome, hall⟩ := (isFaithful_iff hdefs).1 hfaithful
  -- the file gives the normal forms, which lack the descriptions only
  have hnormal : (shown ds).map reading = (shown ds).map normal :=
    map_reading_eq_map_normal fun d hd => (hread d (List.mem_of_mem_filter hd)).1
  have hparsed := parseDocument_savedText hheader hshown (fun d hd => (hall d hd).1) hsome
  rw [hnormal] at hparsed
  have herase : (shown ds).map normal = (shown ds).map eraseDescriptions :=
    List.map_congr_left fun d hd => normal_eq_eraseDescriptions (hread d (List.mem_of_mem_filter hd)).2 (hall d hd).2
  have hplain : ((shown ds).map normal).map eraseDescriptions = (shown ds).map normal := by
    rw [herase, List.map_map]
    exact List.map_congr_left fun d _ => eraseDescriptions_eraseDescriptions d
  have hkept : (Tree.document (.tuple ((shown ds).map normal))).filterDefinitions (fun d => !d.isSilent) =
      .document (.tuple ((shown ds).map normal)) := by
    obtain ⟨_, heq, -, hrs⟩ := exists_definitions_of_parseDocument hparse
    cases heq
    have hself : shown (shown ds) = shown ds := List.filter_eq_self.2 fun d hd => by simp [(hshown d hd).2]
    rw [filterDefinitions_isSilent fun d hd => (hrs d hd).1, herase, shown_map_eraseDescriptions, hself]
  refine ⟨(shown ds).map normal, text?_ofText ?_, hparsed,
    roundTrips_self hparse hplain (render_document_normal hshown) hkept, ?_⟩
  · obtain ⟨above, htext, habove, -⟩ := exists_toList_savedText hheader (String.ofList (documentText (shown ds)))
    rw [htext, String.toList_ofList]
    simp [habove, (isPrint_documentText hshown).not_mem_return]
  · rw [hkept]
    simp [definitions]

end GraphDoc
