import GraphDoc.Proofs.Syntax.Selections
import GraphDoc.Proofs.Syntax.WrittenDefinitions

/-!
# Printed operations and fragments are read back

An operation or a fragment is read back when its selections are. Without selections it has no braces, and
so it is not read; an operation that is printed as its keyword only takes a word behind it for its name.
-/

namespace GraphDoc

open GraphDoc.Parser GraphDoc.Tree
open Syntax (Definition OperationKind Selection VariableDefinition maxDepth)
open Tape (ofChars)

/-- A selection set behind an operation or a fragment is read unless it is left out. -/
theorem settles_set {sels : List Tree} {k : List Char} {f : List Selection → Parser Definition}
    {g : List Tree → Tree} (hsels : ∀ s ∈ sels, IsSelection true (maxDepth - 1) s) (hk : Clear [.braceL] k)
    (hf : ∀ set rs, set.mapM Selection.toTree = .ok rs →
      ∃ x, f set (ofChars k) = .ok (x, ofChars k) ∧ x.toTree = .ok (g rs)) :
    Settles (Syntax.selectionSet maxDepth >>= f) Definition.toTree (ofChars (setText "" sels ++ k)) (ofChars k)
      fun r => sels ≠ [] ∧ ∃ rs, ReadBack sels rs ∧ r = g rs := by
  by_cases hsome : sels = []
  · subst hsome
    obtain ⟨t, hfront, ht⟩ := hk.2
    have hfails := (nests_selectionSet maxDepth).fails hfront (ht .braceL (by simp))
    exact .of_fails (hfails.bind _) fun r hr => hr.1 rfl
  · have hblank : IsBlank "".toList := isBlank_nil
    have hset := (nests_selectionSet maxDepth).settles hblank (by decide) hsels k
    rw [setText, if_neg hsome, List.cons_append, Tape.ofChars_space]
    exact (hset.map hf).congr fun r => ⟨fun h => ⟨hsome, h⟩, fun h => h.2⟩

section Operation

variable {kind : OperationKind} {vars dirs sels : List Tree} {k : List Char}

/-- What is read of an operation behind its name. -/
def operationBody (kind : OperationKind) (name : Option String) : Parser Definition := do
  let vars ← optionalMany .parenL Syntax.variableDefinition .parenR
  let directives ← Syntax.directives false maxDepth
  let selections ← Syntax.selectionSet maxDepth
  return .operation { kind, name, vars, directives, selections := some selections }

/-- A name after the keyword is that of the operation. -/
theorem operation_run_named (kind : OperationKind) (name : String) (place place' : List Char) (rest : Tape) :
    Syntax.operation Option.none (.next (.name kind.keyword) place (.next (.name name) place' rest)) =
      operationBody kind (some name) rest := by
  have hfront : (Tape.next (.name name) place' rest).front = some (.name name) := rfl
  rw [Syntax.operation, bind_run (operationKind_run kind hfront), bind_run (peek_run hfront)]
  show (some <$> Parser.name >>= _) _ = _
  rw [bind_run (map_run (name_run ..) some)]
  rfl

/-- Anything else after the keyword starts the body of an operation without a name. -/
theorem operation_run_unnamed {rest : Tape} {t : Token} (hfront : rest.front = some t) (ht : ∀ w, t ≠ .name w)
    (kind : OperationKind) (place : List Char) :
    Syntax.operation Option.none (.next (.name kind.keyword) place rest) =
      operationBody kind Option.none rest := by
  rw [Syntax.operation, bind_run (operationKind_run kind hfront), bind_run (peek_run hfront)]
  cases t with
  | name w => exact absurd rfl (ht w)
  | _ => rfl

/-- The variables, directives and selections of an operation in print. -/
def operationText (vars dirs sels : List Tree) : List Char :=
  partsText vars dirs ++ setText "" sels

/-- It is settled what the body of an operation is read as. -/
theorem settles_operationBody (hvars : ∀ v ∈ vars, IsVariable v)
    (hdirs : ∀ t ∈ dirs, IsDirective false maxDepth t) (hsels : ∀ s ∈ sels, IsSelection true (maxDepth - 1) s)
    (hk : Clear [.parenL, .at, .braceL] k) (name : Option String) :
    Settles (operationBody kind name) Definition.toTree (ofChars (operationText vars dirs sels ++ k)) (ofChars k)
      fun r => sels ≠ [] ∧ ∃ rs, ReadBack sels rs ∧ r = .operation kind.keyword name (.tuple (vars.map reading))
        (.tuple (dirs.map reading)) (.tuple rs) := by
  have hset : Clear [.at, .parenL] (setText "" sels ++ k) :=
    (opens_setText "" sels).clear (m := .braceL) (by decide) (by simp) (hk.mono (by simp))
  obtain ⟨vs, hvrun, hvs⟩ := reads_variables hvars _
    ((opens_directives hdirs).clear (m := .at) (by decide) (by simp) (hset.mono (by simp)))
  obtain ⟨ds, hdrun, hds⟩ := reads_directives hdirs _ hset
  have htext : operationText vars dirs sels ++ k =
      parensText vars ++ (directivesText dirs ++ (setText "" sels ++ k)) := by
    simp [operationText, partsText]
  have hrun : operationBody kind name (ofChars (operationText vars dirs sels ++ k)) = (do
      let selections ← Syntax.selectionSet maxDepth
      return .operation { kind, name, vars := vs, directives := ds, selections := some selections } :
      Parser Definition) (ofChars (setText "" sels ++ k)) := by
    rw [htext, operationBody, bind_run hvrun, bind_run hdrun]
  refine (settles_set hsels (hk.mono (by simp)) fun set rs hrs => ⟨_, rfl, ?_⟩).of_run hrun
  simp only [Definition.toTree, Syntax.Operation.toTree, hvs, hds, Selection.setTrees,
    Syntax.selectionTrees_eq_mapM, hrs]
  rfl

/-- The name of an operation is printed after a space, or not at all if it is empty. -/
theorem nameText_cases {label : Option String} (h : IsLabel label) :
    nameText label = "" ∧ label.filter (· ≠ "") = Option.none ∨
      ∃ s, isName s = true ∧ nameText label = " " ++ s ∧ label.filter (· ≠ "") = some s := by
  cases label with
  | none => exact .inl ⟨rfl, rfl⟩
  | some s =>
    by_cases hs : s = ""
    · subst hs
      exact .inl ⟨rfl, rfl⟩
    · have hname := (h s rfl).resolve_left hs
      exact .inr ⟨s, hname, if_neg hs, by simp [Option.filter, hs]⟩

/-- The characters of an operation: keyword, name, variables, directives and selections. -/
theorem chars_operation {name : Option String} {fv fd fs : SeqForm} {loose : Bool}
    (hvars : ∀ v ∈ vars, IsVariable v) (hdirs : ∀ t ∈ dirs, IsDirective false maxDepth t)
    (hsels : ∀ s ∈ sels, IsSelection loose (maxDepth - 1) s) :
    (Tree.operation kind.keyword name ⟨fv, vars⟩ ⟨fd, dirs⟩ ⟨fs, sels⟩).chars "" =
      kind.keyword.toList ++ ((nameText name).toList ++ operationText vars dirs sels) := by
  have hprint := printsAs_operation (fun v hv => stable_variable (hvars v hv))
    (fun t ht => stable_directive (hdirs t ht)) (fun s hs => stable_selection (hsels s hs) ("" ++ Layout.step))
    kind.keyword name fv fd fs
  rw [hprint.chars_eq, operationText, partsText, ← toList_selections_printed, parensText, directivesText]
  simp

/-- The body of an operation does not start with a mark other than its own three. -/
theorem clear_operationText (hdirs : ∀ t ∈ dirs, IsDirective false maxDepth t) (vars sels : List Tree)
    {bad : List Punct} (hbad : .parenL ∉ bad ∧ .at ∉ bad ∧ .braceL ∉ bad) (hk : Clear bad k) :
    Clear bad (operationText vars dirs sels ++ k) := by
  rw [operationText, List.append_assoc]
  exact clear_partsText hdirs vars ⟨hbad.1, hbad.2.1⟩
    ((opens_setText "" sels).clear (m := .braceL) (by decide) hbad.2.2 hk)

/-- No name goes on into the body of an operation. -/
theorem boundary_operationText (hdirs : ∀ t ∈ dirs, IsDirective false maxDepth t) (vars sels : List Tree)
    (hk : Boundary k) : Boundary (operationText vars dirs sels ++ k) := by
  rw [operationText, partsText, List.append_assoc, List.append_assoc]
  exact (opens_parens vars).boundary (m := .parenL) (by decide)
    ((opens_directives hdirs).boundary (m := .at) (by decide)
      ((opens_setText "" sels).boundary (m := .braceL) (by decide) hk))

/-- The text of an operation is read back if it has selections and they are, unless the text is only a
keyword. -/
theorem settles_operation {name : Option String} {fv fd fs : SeqForm} (hname : IsLabel name)
    (hvars : ∀ v ∈ vars, IsVariable v) (hdirs : ∀ t ∈ dirs, IsDirective false maxDepth t)
    (hsels : ∀ s ∈ sels, IsSelection true (maxDepth - 1) s) (hk : Clear [.parenL, .at, .braceL] k)
    (hmore : ¬(name.filter (· ≠ "") = Option.none ∧ vars = [] ∧ dirs = [] ∧ sels = [])) :
    Settles (Syntax.operation Option.none) Definition.toTree
      (ofChars ((Tree.operation kind.keyword name ⟨fv, vars⟩ ⟨fd, dirs⟩ ⟨fs, sels⟩).chars "" ++ k)) (ofChars k)
      fun r => sels ≠ [] ∧ ∃ rs, ReadBack sels rs ∧ r = .operation kind.keyword (name.filter (· ≠ ""))
        (.tuple (vars.map reading)) (.tuple (dirs.map reading)) (.tuple rs) := by
  have hbound := boundary_operationText hdirs vars sels hk.1
  have hbody := fun name => @settles_operationBody kind _ _ _ _ hvars hdirs hsels hk name
  rw [chars_operation hvars hdirs hsels, List.append_assoc, List.append_assoc]
  rcases nameText_cases hname with ⟨htext, hfilter⟩ | ⟨s, hs, htext, hfilter⟩
  · obtain ⟨m, hfront⟩ := front_parts hdirs (fun h => hmore ⟨hfilter, h⟩) "" k
    rw [← List.append_assoc, ← operationText] at hfront
    rw [htext, hfilter, String.toList_empty, List.nil_append, Tape.ofChars_name (isName_keyword kind) hbound]
    exact (hbody Option.none).of_run (operation_run_unnamed hfront (by simp) kind _)
  · have hspace : (" " ++ s).toList ++ (operationText vars dirs sels ++ k) =
        ' ' :: (s.toList ++ (operationText vars dirs sels ++ k)) := by simp
    rw [htext, hfilter, hspace, Tape.ofChars_name (isName_keyword kind) (by simp [isBoundary, isNameChar]),
      Tape.ofChars_space, Tape.ofChars_name hs hbound]
    exact (hbody (some s)).of_run (operation_run_named ..)

end Operation

/-! ## Fragments -/

/-- The characters of a fragment: its name, the type it is on, directives and selections. -/
theorem chars_fragment {name type : String} {fd fs : SeqForm} {dirs sels : List Tree} {loose : Bool}
    (hdirs : ∀ t ∈ dirs, IsDirective false maxDepth t)
    (hsels : ∀ s ∈ sels, IsSelection loose (maxDepth - 1) s) :
    (Tree.fragment name (.typeName type) ⟨fd, dirs⟩ ⟨fs, sels⟩).chars "" =
      "fragment".toList ++ ' ' :: (name.toList ++ ' ' :: ("on".toList ++ ' ' ::
        (type.toList ++ (directivesText dirs ++ setText "" sels)))) := by
  rw [(printsAs_fragment (fun t ht => stable_directive (hdirs t ht))
    (fun s hs => stable_selection (hsels s hs) ("" ++ Layout.step)) name type fd fs).chars_eq,
    ← toList_selections_printed, directivesText]
  simp

/-- The text of a fragment is read back if it has selections and they are. -/
theorem settles_fragment {name type : String} {fd fs : SeqForm} {dirs sels : List Tree} {k : List Char}
    (hname : isName name = true) (hon : name ≠ "on") (htype : isName type = true)
    (hdirs : ∀ t ∈ dirs, IsDirective false maxDepth t) (hsels : ∀ s ∈ sels, IsSelection true (maxDepth - 1) s)
    (hk : Clear [.at, .parenL, .braceL] k) :
    Settles (Syntax.fragment Option.none) Definition.toTree
      (ofChars ((Tree.fragment name (.typeName type) ⟨fd, dirs⟩ ⟨fs, sels⟩).chars "" ++ k)) (ofChars k)
      fun r => sels ≠ [] ∧ ∃ rs, ReadBack sels rs ∧
        r = .fragment name (.typeName type) (.tuple (dirs.map reading)) (.tuple rs) := by
  have hset : Clear [.at, .parenL] (setText "" sels ++ k) :=
    (opens_setText "" sels).clear (m := .braceL) (by decide) (by simp) (hk.mono (by simp))
  have htext : (Tree.fragment name (.typeName type) ⟨fd, dirs⟩ ⟨fs, sels⟩).chars "" ++ k =
      "fragment".toList ++ ' ' :: (name.toList ++ ' ' :: ("on".toList ++ ' ' ::
        (type.toList ++ (directivesText dirs ++ (setText "" sels ++ k))))) := by
    rw [chars_fragment hdirs hsels]
    simp
  have hvalue : (Token.name name).value? ≠ some "on" := by simpa [Token.value?] using hon
  obtain ⟨ds, hdrun, hds⟩ := reads_directives hdirs _ hset
  -- all in front of the selections is read for sure, so the rest depends on them alone
  have hrun : Syntax.fragment Option.none (ofChars ("fragment".toList ++ ' ' :: (name.toList ++ ' ' ::
      ("on".toList ++ ' ' :: (type.toList ++ (directivesText dirs ++ (setText "" sels ++ k))))))) = (do
      let selections ← Syntax.selectionSet maxDepth
      return .fragment { name, type := some type, directives := ds, selections := some selections } :
      Parser Definition) (ofChars (setText "" sels ++ k)) := by
    rw [Tape.ofChars_name (by decide) (by simp [isBoundary, isNameChar]), Syntax.fragment,
      bind_run (keyword_run ..), Tape.ofChars_space, Tape.ofChars_name hname (by simp [isBoundary, isNameChar]),
      Syntax.fragmentName, bind_assoc, bind_run (peek_run rfl), if_neg hvalue, bind_run (name_run ..),
      Tape.ofChars_space, Tape.ofChars_name (by decide) (by simp [isBoundary, isNameChar]),
      bind_run (keyword_run ..), Tape.ofChars_space,
      Tape.ofChars_name htype ((opens_directives hdirs).boundary (m := .at) (by decide) hset.1),
      bind_run (name_run ..), bind_run hdrun]
  rw [htext]
  refine (settles_set hsels (hk.mono (by simp)) fun set rs hrs => ⟨_, rfl, ?_⟩).of_run hrun
  simp only [Definition.toTree, Syntax.Fragment.toTree, hds, Selection.setTrees,
    Syntax.selectionTrees_eq_mapM, hrs]
  rfl

end GraphDoc
