import GraphDoc.Hook
import GraphDoc.Proofs.Document.Printed
import GraphDoc.Proofs.Syntax.Blocks

/-!
# Filters in a row

A printing is asked to add hooks to those around it, to run them and to print its document. Filters that run in a row
choose what one filter would that accepts a name if all of them do, so neither their order nor how often they stand
there matters. A header among them fails the run, which leaves the printing as it was.
-/

namespace GraphDoc

open GraphDoc.Tree

/-! ## Printings -/

/-- A document and the hooks around its printing. -/
structure Printing where
  document : Tree
  hooks : Pipeline := {}

namespace Printing

/-- What a printing can be asked. -/
inductive Request
  | addBefore (hook : Hook)
  | addAfter (hook : Hook)
  /-- Runs the hooks before. What they leave takes the place of the document if it is to be kept. -/
  | choose (keep : Bool)
  /-- Runs the hooks after. -/
  | finish (text : String)
  | print

/-- What a printing answers. -/
inductive Answer
  | added
  | chosen (document : Tree)
  | text (result : String)
  | failed (error : HookError)

/-- The answer that gives a text. -/
def Answer.ofText : Except HookError String → Answer
  | .ok result => .text result
  | .error e => .failed e

/-- The answer to a request, and the printing after it. -/
def serve (s : Printing) : Request → Answer × Printing
  | .addBefore hook => (.added, { s with hooks := s.hooks.addBefore hook })
  | .addAfter hook => (.added, { s with hooks := s.hooks.addAfter hook })
  | .choose keep =>
    match s.hooks.runBefore s.document with
    | .ok document => (.chosen document, if keep then { s with document } else s)
    | .error e => (.failed e, s)
  | .finish text => (.ofText (s.hooks.runAfter text), s)
  | .print => (.ofText (s.hooks.print s.document), s)

/-- The printing after requests in a row. -/
def serveAll (s : Printing) (requests : List Request) : Printing :=
  requests.foldl (fun s request => (s.serve request).2) s

/-- The hook that a request adds to those before. -/
def Request.before? : Request → Option Hook
  | .addBefore hook => some hook
  | _ => none

/-- The hook that a request adds to those after. -/
def Request.after? : Request → Option Hook
  | .addAfter hook => some hook
  | _ => none

/-- What a request does to a printing: it adds its hook, and it changes the document only if it is to keep another. -/
theorem serve_eq (s : Printing) {request : Request} (h : request ≠ .choose true) :
    (s.serve request).2 =
      ⟨s.document, s.hooks.before ++ request.before?.toList, s.hooks.after ++ request.after?.toList⟩ := by
  have hsame : s = ⟨s.document, s.hooks.before ++ [], s.hooks.after ++ []⟩ := by
    simp
  cases request with
  | addBefore hook => simp [serve, Pipeline.addBefore, Request.before?, Request.after?]
  | addAfter hook => simp [serve, Pipeline.addAfter, Request.before?, Request.after?]
  | choose keep =>
    cases keep with
    | true => exact absurd rfl h
    | false =>
      rw [serve]
      split
      · exact hsame
      · exact hsame
  | finish text => exact hsame
  | print => exact hsame

/-- A run that keeps no other document only adds hooks, whether the hooks that run in it fail or not. -/
theorem serveAll_eq (s : Printing) {requests : List Request} (h : ∀ request ∈ requests, request ≠ .choose true) :
    s.serveAll requests = ⟨s.document, s.hooks.before ++ requests.filterMap Request.before?,
      s.hooks.after ++ requests.filterMap Request.after?⟩ := by
  induction requests generalizing s with
  | nil => simp [serveAll]
  | cons request rest ih =>
    rw [serveAll, List.foldl_cons, ← serveAll, ih _ fun r hr => h r (List.mem_cons_of_mem _ hr),
      serve_eq s (h request List.mem_cons_self)]
    simp [List.filterMap_eq_flatMap_toList]

end Printing

/-! ## Chains of hooks -/

namespace NameFilter

/-- Whether a name starts and ends with what it must, and with nothing that it must not. Absent and empty criteria ask
for nothing. -/
structure Passes (f : NameFilter) (name : String) : Prop where
  excludePrefix : ∀ start, f.excludePrefix = some start → start ≠ "" → ¬start.toList <+: name.toList
  excludeSuffix : ∀ ending, f.excludeSuffix = some ending → ending ≠ "" → ¬ending.toList <:+ name.toList
  includePrefix : ∀ start, f.includePrefix = some start → start ≠ "" → start.toList <+: name.toList
  includeSuffix : ∀ ending, f.includeSuffix = some ending → ending ≠ "" → ending.toList <:+ name.toList

/-- An option counts as given only with some text: the empty one is no criterion. -/
theorem criterion?_eq_some {given : Option String} {text : String} :
    criterion? given = some text ↔ given = some text ∧ text ≠ "" := by
  simp [criterion?, Option.filter_eq_some_iff]

/-- The test a filter runs is the condition it stands for. -/
theorem accepts_iff (f : NameFilter) (name : String) : f.accepts name = true ↔ f.Passes name := by
  simp only [accepts, Bool.and_eq_true, Bool.not_eq_true', Option.any_eq_false, Option.all_eq_true, criterion?_eq_some,
    and_imp]
  simp only [← Bool.not_eq_true, Text.startsWith, Text.endsWith, List.isPrefixOf_iff_prefix, List.isSuffixOf_iff_suffix]
  constructor
  · rintro ⟨⟨⟨hstart, hend⟩, hstart'⟩, hend'⟩
    exact ⟨hstart, hend, hstart', hend'⟩
  · rintro ⟨hstart, hend, hstart', hend'⟩
    exact ⟨⟨⟨hstart, hend⟩, hstart'⟩, hend'⟩

/-- Whether a name passes all filters. -/
def allAccept (filters : List NameFilter) (name : String) : Bool := filters.all (·.accepts name)

/-- Whether a definition has no name or one that passes all filters. -/
def allKeep (filters : List NameFilter) (definition : Tree) : Bool := definition.name?.all (allAccept filters)

/-- A definition passes a list of filters when it passes the first and the rest. -/
theorem allKeep_cons (f : NameFilter) (filters : List NameFilter) (d : Tree) :
    allKeep (f :: filters) d = (f.keeps d && allKeep filters d) := by
  cases h : d.name? <;> simp [allKeep, keeps, allAccept, h]

/-- A definition is kept when its name, if it has one, passes every filter. -/
theorem allKeep_iff (filters : List NameFilter) (d : Tree) :
    allKeep filters d = true ↔ ∀ name, d.name? = some name → ∀ f ∈ filters, f.Passes name := by
  simp only [allKeep, allAccept, Option.all_eq_true, List.all_eq_true, accepts_iff]

/-- Neither order nor repetition of the filters matters. -/
theorem allKeep_congr {filters others : List NameFilter} (h : ∀ f, f ∈ others ↔ f ∈ filters) :
    allKeep others = allKeep filters := by
  have haccept : allAccept others = allAccept filters := by
    funext name
    rw [Bool.eq_iff_iff]
    simp [allAccept, h]
  funext d
  rw [allKeep, allKeep, haccept]

end NameFilter

open NameFilter (allAccept allKeep)

/-- Filters in a row keep what passes all of them. -/
theorem runBefore_filters {p : Pipeline} {filters : List NameFilter} (ds : List Tree)
    (h : p.before = filters.map .filter) :
    p.runBefore (.document (.tuple ds)) = .ok (.document (.tuple (ds.filter (allKeep filters)))) := by
  rw [Pipeline.runBefore, h]
  clear h
  induction filters generalizing ds with
  | nil =>
    have hall : allKeep [] = fun _ => true := by
      funext d
      cases h : d.name? <;> simp [allKeep, allAccept, h]
    rw [hall, List.filter_true]
    rfl
  | cons f filters ih =>
    have hstep : ds.filter (allKeep (f :: filters)) = (ds.filter f.keeps).filter (allKeep filters) := by
      rw [List.filter_filter]
      exact List.filter_congr fun d _ => by rw [NameFilter.allKeep_cons, Bool.and_comm]
    rw [hstep, ← ih, List.map_cons, List.foldlM_cons]
    rfl

/-- A header fails the run wherever it stands. -/
theorem runBefore_header {p : Pipeline} {header : String} (h : .header header ∈ p.before) (t : Tree) :
    p.runBefore t = .error .headerBefore := by
  obtain ⟨hooks, after⟩ := p
  rw [Pipeline.runBefore]
  induction hooks generalizing t with
  | nil => cases h
  | cons hook hooks ih =>
    rw [List.foldlM_cons]
    cases hook with
    | header text => rfl
    | filter f => exact ih _ (List.mem_of_ne_of_mem (by simp) h)

/-- Filtering the definitions filters their names. -/
theorem definitionNames_filter (filters : List NameFilter) (ds : List Tree) :
    (Tree.document (.tuple (ds.filter (allKeep filters)))).definitionNames =
      (Tree.document (.tuple ds)).definitionNames.filter (allAccept filters) := by
  show (ds.filter _).filterMap name? = (ds.filterMap name?).filter _
  rw [List.filterMap_filter, List.filter_filterMap]
  congr 1
  funext d
  cases h : d.name? <;> simp [allKeep, h, Option.filter]

/-- Leaving out what is suppressed commutes with any filter. -/
theorem shown_filter (keep : Tree → Bool) (ds : List Tree) : shown (ds.filter keep) = (shown ds).filter keep :=
  List.filter_comm _ _ ds

/-- The blocks of a document's text are the texts of the definitions that show. -/
theorem exists_blocks {ds : List Tree} (h : ∀ d ∈ ds, IsDefinition d) :
    ∃ text, (Tree.document (.tuple ds)).render "" = .ok text ∧ Text.blocks text = (shown ds).map (·.printed "") :=
  ⟨_, render_document h _, blocks_documentText (isShown_of_mem_shown h)⟩

open Printing (Request)

/-- Hooks are added to the printing of a document that was read. Filters choose the definitions that have no name or one
that all of them accept, and of its text the blocks of these. The same filters in another order or number choose the
same, and a second run finds nothing to drop. With a header among them the run fails, and neither the hooks nor the
document are changed. -/
theorem choose_filters {source : String} {t : Tree} (hparse : parseDocument source = .ok t) {requests : List Request}
    (hrequests : ∀ request ∈ requests, request ≠ .choose true) {s : Printing}
    (hs : Printing.serveAll { document := t } requests = s) :
    s = ⟨t, requests.filterMap Request.before?, requests.filterMap Request.after?⟩ ∧
      (∀ filters : List NameFilter, s.hooks.before = filters.map .filter →
        (∀ d, allKeep filters d = true ↔ ∀ name, d.name? = some name → ∀ f ∈ filters, f.Passes name) ∧
        ∃ r, s.hooks.runBefore t = .ok r ∧ r = .document (.tuple (t.definitions.filter (allKeep filters))) ∧
          s.hooks.runBefore r = .ok r ∧
          (∀ (p : Pipeline) (others : List NameFilter), p.before = others.map .filter →
            (∀ f, f ∈ others ↔ f ∈ filters) → p.runBefore t = .ok r) ∧
          r.definitionNames = t.definitionNames.filter (allAccept filters) ∧
          (∀ d ∈ t.definitions, d.render "" = .ok (d.printed "")) ∧
          ∃ text chosen, t.render "" = .ok text ∧ r.render "" = .ok chosen ∧
            Text.blocks text = (t.definitions.filter (!·.isSilent)).map (·.printed "") ∧
            Text.blocks chosen =
              ((t.definitions.filter (!·.isSilent)).filter (allKeep filters)).map (·.printed "")) ∧
      ∀ header, .header header ∈ s.hooks.before → ∀ keep, s.serve (.choose keep) = (.failed .headerBefore, s) := by
  obtain ⟨ds, rfl, -, hall⟩ := exists_definitions_of_parseDocument hparse
  have hdefs : ∀ d ∈ ds, IsDefinition d := fun d hd => (hall d hd).1
  obtain rfl := hs.symm.trans (Printing.serveAll_eq _ hrequests)
  refine ⟨rfl, fun filters hfilters => ?_, fun header hheader keep => ?_⟩
  · have hshown : (ds.filter (!·.isSilent)) = shown ds := filter_isSilent hdefs
    obtain ⟨text, htext, hblocks⟩ := exists_blocks hdefs
    obtain ⟨chosen, hchosen, hkept⟩ := exists_blocks fun d hd => hdefs d (List.mem_of_mem_filter hd)
    refine ⟨NameFilter.allKeep_iff filters, _, runBefore_filters ds hfilters, rfl, ?_, ?_,
      definitionNames_filter filters ds, fun d hd => (stable_definition (hdefs d hd) "").self, text, chosen, htext,
      hchosen, ?_, ?_⟩
    · rw [runBefore_filters _ hfilters, List.filter_filter]
      simp only [Bool.and_self]
    · intro p others hp hsame
      rw [runBefore_filters ds hp, NameFilter.allKeep_congr hsame]
    · show _ = (ds.filter _).map _
      rw [hblocks, hshown]
    · show _ = ((ds.filter _).filter _).map _
      rw [hkept, hshown, shown_filter]
  · rw [Printing.serve, runBefore_header hheader]

/-- Two scalars above a query without a name. -/
private theorem parse_unnamedQuery :
    parseDocument "scalar A scalar Ab\x7ba\x7d" = .ok (.document (.tuple [.scalarType "A" (.tuple []) Option.none,
      .scalarType "Ab" (.tuple []) Option.none, .operation "query" Option.none (.tuple []) (.tuple [])
        (.tuple [.field "a" Option.none (.tuple []) (.tuple []) (.tuple [])])])) := by
  have hchars : "scalar A scalar Ab\x7ba\x7d".toList = "scalar".toList ++ ' ' :: ("A".toList ++ ' ' ::
      ("scalar".toList ++ ' ' :: ("Ab".toList ++ '{' :: ("a".toList ++ '}' :: [])))) := rfl
  rw [parseDocument, parseWith, Syntax.Document.read, Syntax.read, Tape.ofSource, hchars,
    Tape.ofChars_name (by decide) (by simp [isBoundary, isNameChar]), Tape.ofChars_space,
    Tape.ofChars_name (by decide) (by simp [isBoundary, isNameChar]), Tape.ofChars_space,
    Tape.ofChars_name (by decide) (by simp [isBoundary, isNameChar]), Tape.ofChars_space,
    Tape.ofChars_name (by decide) (by simp [isBoundary, isNameChar]), Tape.ofChars_punct (m := .braceL) (by decide),
    Tape.ofChars_name (by decide) (by simp [isBoundary, isNameChar]), Tape.ofChars_punct (m := .braceR) (by decide),
    Tape.ofChars_nil]
  rfl

/-- A query without a name passes filters that drop one of two types. A header behind them fails the run. -/
theorem choose_filters_unnamed :
    let requests : List Request := [.addBefore (.filter { includePrefix := some "A", excludePrefix := some "" }),
      .print, .choose false, .addBefore (.filter { excludeSuffix := some "b" })]
    ∃ (t r : Tree) (chosen : String), parseDocument "scalar A scalar Ab\x7ba\x7d" = .ok t ∧
      (Printing.serveAll { document := t } requests).hooks.runBefore t = .ok r ∧ r.definitionNames = ["A"] ∧
      r.render "" = .ok chosen ∧ Text.blocks chosen = ["scalar A", "query \x7b\n  a\n\x7d"] ∧
      ((Printing.serveAll { document := t } (requests ++ [.addBefore (.header "#")])).serve (.choose true)).1 =
        .failed .headerBefore := by
  intro requests
  have hrequests : ∀ request ∈ requests, request ≠ .choose true := by simp [requests]
  have hmore : ∀ request ∈ requests ++ [.addBefore (.header "#")], request ≠ .choose true := by simp [requests]
  obtain ⟨heq, hchoose, -⟩ := choose_filters parse_unnamedQuery hrequests rfl
  obtain ⟨-, r, hrun, -, -, -, hnames, -, -, chosen, -, hchosen, -, hblocks⟩ := hchoose
    [{ includePrefix := some "A", excludePrefix := some "" }, { excludeSuffix := some "b" }]
    (congrArg (·.hooks.before) heq)
  obtain ⟨heq, -, hheader⟩ := choose_filters parse_unnamedQuery hmore rfl
  refine ⟨_, r, chosen, parse_unnamedQuery, hrun, hnames.trans rfl, hchosen, hblocks.trans rfl, ?_⟩
  rw [hheader "#" (by rw [heq]; simp [requests, Request.before?])]

end GraphDoc
