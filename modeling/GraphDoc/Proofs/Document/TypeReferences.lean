import GraphDoc.Proofs.Syntax.Refusals
import GraphDoc.Proofs.Syntax.Written

/-!
# Type references

A type is written with a bracket on either side for a list and a mark behind it for a type that is required. The
last character tells how a type is made, so its text says which type it is, however many marks stand in a row. The
grammar takes one mark only: a text is read, and as the type it was printed from, exactly if no type in it is marked
twice.
-/

namespace GraphDoc

open GraphDoc.Parser
open Syntax (TypeRef maxDepth)
open Tape (ofChars)

namespace Tree

variable {d e : Nat} {t u : Tree}

/-- A type in lists and marks, any number of marks in a row. Lists nest at most the given number of levels. -/
inductive IsTypeTree : Nat → Tree → Prop
  | typeName {d : Nat} {name : String} (h : isName name = true) : IsTypeTree d (.typeName name)
  | listType {d : Nat} {of : Tree} (h : IsTypeTree d of) : IsTypeTree (d + 1) (.listType of)
  | nonNullType {d : Nat} {of : Tree} (h : IsTypeTree d of) : IsTypeTree d (.nonNullType of)

/-- Whether a type is marked as required twice, anywhere inside a type. -/
def marksTwice : Tree → Bool
  | .nonNullType (.nonNullType _) => true
  | .nonNullType of | .listType of => of.marksTwice
  | _ => false

/-- A mark stands twice when it does inside, or when the marked type is marked itself. -/
theorem marksTwice_nonNullType (t : Tree) :
    (Tree.nonNullType t).marksTwice = true ↔ t.marksTwice = true ∨ ∃ s, t = .nonNullType s := by
  cases t <;> simp [marksTwice]

/-- A type that is read is one that is not marked twice. -/
theorem isType_iff : IsType d t ↔ IsTypeTree d t ∧ t.marksTwice = false := by
  constructor
  · intro h
    induction h with
    | typeName h => exact ⟨.typeName h, rfl⟩
    | listType h ih => exact ⟨.listType ih.1, ih.2⟩
    | nonNullType h hbare ih =>
      refine ⟨.nonNullType ih.1, ?_⟩
      rw [Bool.eq_false_iff, ne_eq, marksTwice_nonNullType]
      simp [ih.2, hbare]
  · rintro ⟨h, hmarks⟩
    induction h with
    | typeName h => exact .typeName h
    | listType h ih => exact .listType (ih hmarks)
    | nonNullType h ih =>
      rw [Bool.eq_false_iff, ne_eq, marksTwice_nonNullType, not_or] at hmarks
      exact .nonNullType (ih (Bool.eq_false_iff.2 hmarks.1)) fun s hs => hmarks.2 ⟨s, hs⟩

/-- Every type tree prints a text of its own. -/
theorem stable_typeTree (h : IsTypeTree d t) : Stable "" t := by
  induction h with
  | typeName h => exact (printsAs_typeName "" _).stable
  | listType h ih => exact (printsAs_listType ih "").stable
  | nonNullType h ih => exact (printsAs_nonNullType ih "").stable

/-- A type reads back as itself. -/
theorem reading_type (h : IsType d t) : t.reading = t := by
  induction h with
  | typeName h => exact reading_eq _
  | listType h ih =>
    rw [reading_eq]
    exact congrArg Tree.listType ih
  | nonNullType h hbare ih =>
    rw [reading_eq]
    exact congrArg Tree.nonNullType ih

/-! ## The text of a type -/

/-- A name does not end in a character that no name holds. -/
theorem getLast?_typeName_ne {name : String} (h : isName name = true) {c : Char} (hc : isNameChar c = false) :
    ((Tree.typeName name).chars "").getLast? ≠ some c := by
  rw [(printsAs_typeName "" name).chars_eq]
  intro hlast
  rw [isNameChar_of_isName h c (List.mem_of_getLast? hlast)] at hc
  cases hc

/-- A list type ends in its bracket. -/
theorem getLast?_listType (h : Stable "" t) : ((Tree.listType t).chars "").getLast? = some ']' := by
  rw [chars_listType h, ← List.cons_append, List.getLast?_concat]

/-- A marked type ends in its mark. -/
theorem getLast?_nonNullType (h : Stable "" t) : ((Tree.nonNullType t).chars "").getLast? = some '!' := by
  rw [chars_nonNullType h, List.getLast?_concat]

/-- Two types with the same text are the same. -/
theorem eq_of_chars_eq (ht : IsTypeTree d t) (hu : IsTypeTree e u) (h : t.chars "" = u.chars "") : t = u := by
  -- the last character is that of a name, a bracket or a mark, and says how both types are made
  induction ht generalizing e u with
  | typeName hname =>
    cases hu with
    | typeName hname' =>
      rw [(printsAs_typeName "" _).chars_eq, (printsAs_typeName "" _).chars_eq, String.toList_inj] at h
      rw [h]
    | listType hof =>
      exact absurd (h ▸ getLast?_listType (stable_typeTree hof)) (getLast?_typeName_ne hname (by decide))
    | nonNullType hof =>
      exact absurd (h ▸ getLast?_nonNullType (stable_typeTree hof)) (getLast?_typeName_ne hname (by decide))
  | listType hof ih =>
    have hlast := getLast?_listType (stable_typeTree hof)
    rw [h] at hlast
    cases hu with
    | typeName hname => exact absurd hlast (getLast?_typeName_ne hname (by decide))
    | listType hof' =>
      rw [chars_listType (stable_typeTree hof), chars_listType (stable_typeTree hof'), List.cons_inj_right] at h
      rw [ih hof' (List.append_cancel_right h)]
    | nonNullType hof' =>
      rw [getLast?_nonNullType (stable_typeTree hof')] at hlast
      cases hlast
  | nonNullType hof ih =>
    have hlast := getLast?_nonNullType (stable_typeTree hof)
    rw [h] at hlast
    cases hu with
    | typeName hname => exact absurd hlast (getLast?_typeName_ne hname (by decide))
    | listType hof' =>
      rw [getLast?_listType (stable_typeTree hof')] at hlast
      cases hlast
    | nonNullType hof' =>
      rw [chars_nonNullType (stable_typeTree hof), chars_nonNullType (stable_typeTree hof')] at h
      rw [ih hof' (List.append_cancel_right h)]

end Tree

open GraphDoc.Tree

variable {d e : Nat} {t u : Tree}

/-! ## Reading types -/

/-- Whether a parser fails on a tape, or stops in front of a mark. -/
def StopsAtMark {α : Type} (p : Parser α) (tape : Tape) : Prop :=
  Fails p tape ∨ ∃ x rest, p tape = .ok (x, rest) ∧ rest.front = some (.punct .bang)

/-- A type that is marked twice is not read to its end. -/
theorem stopsAtMark_of_marksTwice (h : IsTypeTree d t) (htwice : t.marksTwice = true) (k : List Char) :
    StopsAtMark (Syntax.typeRef d) (ofChars (t.chars "" ++ k)) := by
  induction h generalizing k with
  | typeName h => cases htwice
  | @listType d of hof ih =>
    rw [chars_listType (stable_typeTree hof), List.cons_append, List.append_assoc,
      Tape.ofChars_punct (m := .bracketL) (by decide)]
    -- the bracket that closes the list is expected where the parser has stopped
    refine .inl (Fails.of_bind (skip_run ..) ?_)
    rcases ih htwice (']' :: k) with hfails | ⟨x, rest, hrun, hfront⟩
    · exact hfails.bind _
    · exact Fails.of_bind hrun ((expect_fails hfront (by simp)).bind _)
  | @nonNullType d of hof ih =>
    rw [chars_nonNullType (stable_typeTree hof), List.append_assoc, List.singleton_append]
    by_cases hof2 : of.marksTwice = true
    · exact ih hof2 ('!' :: k)
    · obtain ⟨s, rfl⟩ := ((marksTwice_nonNullType of).1 htwice).resolve_left hof2
      -- the inner mark is read with its type, and the outer one is left
      obtain ⟨htype, hbare⟩ : IsType d s ∧ ∀ r, s ≠ .nonNullType r := by
        cases isType_iff.2 ⟨hof, Bool.eq_false_iff.2 hof2⟩ with
        | nonNullType h hbare => exact ⟨h, hbare⟩
      obtain ⟨x, hrun, -⟩ := reads_markedType htype hbare ('!' :: k)
        (clear_punct (m := .bang) (by decide) (by simp) k)
      rw [chars_nonNullType (stable_type htype)]
      refine .inr ⟨x, _, hrun, ?_⟩
      rw [Tape.ofChars_punct (m := .bang) (by decide)]
      rfl

/-- What is read as a type gives a type that is not marked twice. -/
theorem isType_of_read {source : String} {x : TypeRef} (h : TypeRef.read source = .ok x) :
    ∃ t, parseType source = .ok t ∧ IsType maxDepth t := by
  obtain ⟨rest, hrun, hend⟩ := read_eq_ok.1 h
  obtain ⟨-, -, t, ht⟩ := Syntax.yields_typeRef maxDepth _ x rest (Tape.lexical_ofChars _) hrun
  obtain ⟨-, -, hx⟩ := Syntax.ensures_typeRef maxDepth _ x rest (Tape.lexical_ofChars _) hrun
  exact ⟨t, parseWith_eq_ok.2 ⟨x, rest, hrun, hend, ht⟩, (hx t ht).1⟩

/-- The text of a type that is not marked twice is read as the type. -/
theorem read_printed (h : IsType maxDepth t) : ∃ x, TypeRef.read (t.printed "") = .ok x ∧ x.toTree = .ok t := by
  obtain ⟨x, hrun, hx⟩ := reads_type h [] (clear_nil _)
  rw [List.append_nil] at hrun
  refine ⟨x, read_eq_ok.2 ⟨_, hrun, by rw [Tape.ofChars_nil]; rfl⟩, ?_⟩
  rw [hx, reading_type h]

/-- No reference is read from the text of a type that carries two marks in a row. -/
theorem not_read_of_marksTwice (h : IsTypeTree maxDepth t) (htwice : t.marksTwice = true) (x : TypeRef) :
    TypeRef.read (t.printed "") ≠ .ok x := by
  intro hread
  obtain ⟨rest, hrun, hend⟩ := read_eq_ok.1 hread
  have hstops := stopsAtMark_of_marksTwice h htwice []
  rw [List.append_nil] at hstops
  rcases hstops with hfails | ⟨y, rest', hrun', hfront⟩
  · exact not_fails_of_ok hrun hfails
  · rw [chars, hrun] at hrun'
    cases hrun'
    rw [hend] at hfront
    cases hfront

/-- The text of a type is read, and as that type, exactly if the type is nowhere marked twice; no two types have the
same text; and whatever text is read as a type gives one that is nowhere marked twice. -/
theorem typeRef_read_render_iff :
    (∀ t, IsTypeTree maxDepth t → ∃ text, t.render "" = .ok text ∧
      ((∃ x, TypeRef.read text = .ok x) ↔ t.marksTwice = false) ∧
      (t.marksTwice = false → parseType text = .ok t)) ∧
    (∀ d e t u, IsTypeTree d t → IsTypeTree e u → t.render "" = u.render "" → t = u) ∧
    ∀ source x, TypeRef.read source = .ok x →
      ∃ r, parseType source = .ok r ∧ IsTypeTree maxDepth r ∧ r.marksTwice = false := by
  refine ⟨fun t ht => ⟨t.printed "", (stable_typeTree ht).self, ⟨?_, fun hmarks => ?_⟩, fun hmarks => ?_⟩, ?_, ?_⟩
  · rintro ⟨x, hx⟩
    rw [Bool.eq_false_iff]
    exact fun htwice => not_read_of_marksTwice ht htwice x hx
  · obtain ⟨x, hx, -⟩ := read_printed (isType_iff.2 ⟨ht, hmarks⟩)
    exact ⟨x, hx⟩
  · obtain ⟨x, hx, htree⟩ := read_printed (isType_iff.2 ⟨ht, hmarks⟩)
    obtain ⟨rest, hrun, hend⟩ := read_eq_ok.1 hx
    exact parseWith_eq_ok.2 ⟨x, rest, hrun, hend, htree⟩
  · intro d e t u ht hu h
    rw [(stable_typeTree ht).self, (stable_typeTree hu).self, Except.ok.injEq] at h
    exact eq_of_chars_eq ht hu (congrArg String.toList h)
  · intro source x hx
    obtain ⟨r, hr, htype⟩ := isType_of_read hx
    exact ⟨r, hr, isType_iff.1 htype⟩

/-- Marks on a type, on the list of it and on the list of that are all found again; two in a row are refused. -/
theorem typeRef_read_brackets :
    parseType "[[A!]!]!" =
        .ok (.nonNullType (.listType (.nonNullType (.listType (.nonNullType (.typeName "A")))))) ∧
      ∀ x, TypeRef.read "[A!!]" ≠ .ok x := by
  obtain ⟨hread, -, -⟩ := typeRef_read_render_iff
  have hname : ∀ d, IsTypeTree d (.typeName "A") := fun d => .typeName (by decide)
  constructor
  · obtain ⟨text, htext, -, hparse⟩ := hread _ (.nonNullType (.listType (.nonNullType (.listType (.nonNullType
      (hname 198))))))
    cases htext
    exact hparse rfl
  · obtain ⟨text, htext, hiff, -⟩ := hread _ (.listType (.nonNullType (.nonNullType (hname 199))))
    cases htext
    exact fun x hx => absurd (hiff.1 ⟨x, hx⟩) (by decide)

end GraphDoc
