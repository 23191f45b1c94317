import GraphDoc.Proofs.Document.Faithful

/-!
# Documents built by hand

Operations and fragments need not come from a source: a label may be an empty text, a value may be missing or
a plain list, map, number or symbol, and children may stand in lists. As long as names are names and nothing
nests too deeply, their text is read as their reading, which spells all that in the one way that a source does.
-/

namespace GraphDoc

open GraphDoc.Parser GraphDoc.Tree
open Syntax (OperationKind maxDepth)
open Tape (ofChars)

/-- The text of operations and fragments is read back as their reading. -/
theorem parse_render_executables {form : SeqForm} {ds : List Tree} (hsome : ds ≠ [])
    (h : ∀ d ∈ ds, IsExecutable false d) :
    ∃ text, (Tree.document ⟨form, ds⟩).render "" = .ok text ∧
      parseDocument text = .ok (Tree.document ⟨form, ds⟩).reading := by
  have hdefs : ∀ d ∈ ds, IsDefinition d := fun d hd => .inl (isExecutable_false_iff.1 (h d hd)).1
  have hquiet : ∀ d ∈ ds, d.isSuppressed = false := by
    intro d hd
    cases h d hd <;> rfl
  have hshown : shown ds = ds := List.filter_eq_self.2 fun d hd => by simp [hquiet d hd]
  have hread : DocumentReadsBack ds (ds.map reading) := documentReadsBack_of_sound fun d hd => .inl (h d hd)
  have hnormal : (Tree.document ⟨form, ds⟩).reading = .document (.tuple (ds.map reading)) := reading_eq _
  refine ⟨_, render_document hdefs form, ?_⟩
  rw [hshown, hnormal]
  exact (parseDocument_documentText fun d hd => ⟨hdefs d hd, hquiet d hd⟩).2 ⟨hsome, hread⟩

/-- Missing values, maps, symbols, empty labels and names that are keywords elsewhere are all read back. -/
theorem parse_render_oddities :
    let value := Tree.seq ⟨.tuple, [.none, .map [(.str "on", .symbol .integer "red")], .inputObject ⟨.list, []⟩]⟩
    let field := Tree.field "on" (some "") ⟨.list, [.argument "query" value]⟩ ⟨.list, []⟩ ⟨.tuple, []⟩
    let document := Tree.document ⟨.list, [.operation "mutation" (some "") ⟨.list, []⟩ ⟨.tuple, []⟩ ⟨.list, [field]⟩]⟩
    ∃ text, document.render "" = .ok text ∧ parseDocument text = .ok document.reading := by
  intro value field document
  have hvalue : IsLiteral false (maxDepth - 1) value := by
    refine @IsLiteral.seq _ 198 _ _ ?_
    have hmap : IsLiteral false 198 (.map [(.str "on", .symbol .integer "red")]) :=
      @IsLiteral.map _ 197 _ (List.forall_mem_singleton.2 (by decide))
        (List.forall_mem_singleton.2 (.symbol (by decide)))
    have hobject : IsLiteral false 198 (.inputObject ⟨.list, []⟩) :=
      @IsLiteral.inputObject _ 197 _ [] (List.forall_mem_nil _) (List.forall_mem_nil _)
    exact List.forall_mem_cons.2 ⟨.none, List.forall_mem_cons.2 ⟨hmap, List.forall_mem_singleton.2 hobject⟩⟩
  have hfield : IsSelection false (maxDepth - 1) field :=
    .field (by decide) (by simp [IsLabel]) (List.forall_mem_singleton.2 (.mk (by decide) hvalue))
      (List.forall_mem_nil _) (.inl rfl) (List.forall_mem_nil _)
  have hoperation : IsExecutable false
      (.operation OperationKind.mutation.keyword (some "") ⟨.list, []⟩ ⟨.tuple, []⟩ ⟨.list, [field]⟩) :=
    .operation (by simp [IsLabel]) (List.forall_mem_nil _) (List.forall_mem_nil _)
      ⟨fun _ => by simp, List.forall_mem_singleton.2 hfield⟩
  exact parse_render_executables (by simp) (List.forall_mem_singleton.2 hoperation)

/-! ## Nesting -/

/-- A type inside the given number of lists. -/
def listsOf : Nat → Tree → Tree
  | 0, t => t
  | n + 1, t => .listType (listsOf n t)

/-- A name inside `n` lists prints between `n` pairs of brackets. -/
theorem stable_listsOf (n : Nat) (name : String) :
    Stable "" (listsOf n (.typeName name)) ∧
      (listsOf n (.typeName name)).chars "" = List.replicate n '[' ++ (name.toList ++ List.replicate n ']') := by
  induction n with
  | zero =>
    have hprint := printsAs_typeName "" name
    exact ⟨hprint.stable, by rw [listsOf, hprint.chars_eq]; simp⟩
  | succ n ih =>
    have hprint := printsAs_listType ih.1 ""
    refine ⟨hprint.stable, ?_⟩
    rw [listsOf, hprint.chars_eq, String.toList_append, String.toList_append, ← chars, ih.2, List.replicate_succ,
      List.replicate_succ']
    simp

/-- The parser that gives up at the depth limit fails on every tape. -/
theorem tooDeep_fails {α : Type} (tape : Tape) : Fails (tooDeep : Parser α) tape := by
  cases tape with
  | fault e => exact ⟨e, rfl⟩
  | _ => exact ⟨_, rfl⟩

/-- A type that nests too deeply is refused. -/
theorem typeRef_fails (d : Nat) (k : List Char) :
    Fails (Syntax.typeRef d) (ofChars (List.replicate (d + 1) '[' ++ k)) := by
  have hstep : ∀ (inner : Parser Syntax.TypeRef) (cs : List Char), Fails inner (ofChars cs) →
      Fails (Syntax.typeRefWith inner) (ofChars ('[' :: cs)) := by
    intro inner cs hinner
    rw [Tape.ofChars_punct (m := .bracketL) (by decide)]
    exact Fails.of_bind (skip_run ..) (hinner.bind _)
  induction d with
  | zero => exact hstep _ _ (tooDeep_fails _)
  | succ d ih => exact hstep _ _ ih

/-- A query whose only variable has a type in lists that nest one level deeper than a source may. -/
def deepQuery : Tree :=
  .operation "query" Option.none
    (.tuple [.variableDefinition "v" (listsOf (maxDepth + 1) (.typeName "Int")) .none]) (.tuple [])
    (.tuple [.field "a" Option.none (.tuple []) (.tuple []) (.tuple [])])

/-- The query prints a variable whose type opens more lists than the limit allows. -/
theorem stable_deepQuery : Stable "" deepQuery ∧ ∃ k, deepQuery.chars "" = "query".toList ++
    '(' :: '$' :: ("v".toList ++ ':' :: ' ' :: (List.replicate (maxDepth + 1) '[' ++ k)) := by
  obtain ⟨htype, htypeText⟩ := stable_listsOf (maxDepth + 1) "Int"
  have hvar := printsAs_variableDefinition htype (.inl rfl) "" "v"
  have hfield : Stable ("" ++ Layout.step) (.field "a" Option.none ⟨.tuple, []⟩ ⟨.tuple, []⟩ ⟨.tuple, []⟩) :=
    (printsAs_field (List.forall_mem_nil _) (List.forall_mem_nil _) (List.forall_mem_nil _) "a" Option.none
      .tuple .tuple .tuple).stable
  have hprint := printsAs_operation (List.forall_mem_singleton.2 hvar.stable) (List.forall_mem_nil _)
    (List.forall_mem_singleton.2 hfield) "query" Option.none .tuple .tuple .tuple
  refine ⟨hprint.stable, ?_⟩
  have hvarText : ((Tree.variableDefinition "v" (listsOf (maxDepth + 1) (.typeName "Int")) .none).printed "").toList =
      '$' :: ("v".toList ++ ':' :: ' ' :: (List.replicate (maxDepth + 1) '[' ++
        ("Int".toList ++ List.replicate (maxDepth + 1) ']'))) := by
    rw [hvar.printed_eq, ← htypeText]
    simp [chars, defaultText]
  rw [deepQuery, Seq.tuple, Seq.tuple, Seq.tuple, hprint.chars_eq]
  simp only [String.toList_append, Layout.toList_parens, List.map_cons, List.map_nil, bracketed, series, hvarText,
    if_neg (List.cons_ne_nil _ _)]
  exact ⟨_, by simp [nameText]; rfl⟩

/-- The variable definitions of that text are refused, whatever follows the brackets. -/
private theorem variables_fail (k : List Char) :
    Fails (optionalMany .parenL Syntax.variableDefinition .parenR)
      (ofChars ('(' :: '$' :: ("v".toList ++ ':' :: ' ' :: (List.replicate (maxDepth + 1) '[' ++ k)))) := by
  rw [Tape.ofChars_punct (m := .parenL) (by decide), Tape.ofChars_punct (m := .dollar) (by decide),
    Tape.ofChars_name (by decide) (by simp [isBoundary, isNameChar]), Tape.ofChars_punct (m := .colon) (by decide),
    Tape.ofChars_space, optionalMany, Fails, bind_run (peek_run rfl), if_pos rfl, many, bind_run (expect_run ..)]
  refine Fails.bind ?_ _
  rw [Syntax.variableDefinition, Fails, bind_run (description_run rfl), Syntax.variableName, bind_assoc,
    bind_run (expect_run ..), bind_run (name_run ..), bind_run (expect_run ..)]
  exact (typeRef_fails maxDepth k).bind _

/-- The query is well-formed but for the levels of its type. It can be printed, but its text cannot be read. -/
theorem deepQuery_not_parsed :
    IsType (maxDepth + 1) (listsOf (maxDepth + 1) (.typeName "Int")) ∧
      ∃ text, (Tree.document (.tuple [deepQuery])).render "" = .ok text ∧ ∀ r, parseDocument text ≠ .ok r := by
  have htype : ∀ n, IsType n (listsOf n (.typeName "Int")) := by
    intro n
    induction n with
    | zero => exact .typeName (by decide)
    | succ n ih => exact .listType ih
  obtain ⟨hstable, k, htext⟩ := stable_deepQuery
  have hne : deepQuery.printed "" ≠ "" := by
    intro hempty
    rw [chars, hempty] at htext
    cases htext
  have hrender : (Tree.document (.tuple [deepQuery])).render "" = .ok (deepQuery.printed "") := by
    show (do return Layout.document (← renderAll [deepQuery] "")) = _
    rw [(renderAll_eq (List.forall_mem_singleton.2 hstable)).1]
    show Except.ok (Layout.document [deepQuery.printed ""]) = _
    simp [Layout.document, hne]
  refine ⟨htype _, _, hrender, fun r hr => ?_⟩
  obtain ⟨x, rest, hrun, -⟩ := parseDocument_eq_ok.1 hr
  refine not_fails_of_ok hrun (Fails.bind ?_ _)
  have hvars := variables_fail k
  have hfront : (ofChars ('(' :: '$' :: ("v".toList ++ ':' :: ' ' :: (List.replicate (maxDepth + 1) '[' ++ k)))).front =
      some (.punct .parenL) := by
    rw [Tape.ofChars_punct (m := .parenL) (by decide)]
    rfl
  rw [← chars, htext, Tape.ofChars_name (by decide) (by simp [isBoundary, isNameChar]), Fails,
    definition_run rfl (by rfl)]
  obtain ⟨e, he⟩ := hvars.bind _
  exact ⟨e, (operation_run_unnamed hfront (by simp) .query _).trans he⟩

end GraphDoc
