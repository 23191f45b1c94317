import GraphDoc.Proofs.Tree.WellFormed

/-!
# Selection sets that are not empty

An operation, fragment or inline fragment without selections can be read, but its text lacks the braces
that would hold them. Trees without such gaps are those that are well-formed in the strict sense.
-/

namespace GraphDoc.Tree

/-- Whether a node that must have selections has some. -/
def HasSelections : Tree → Prop
  | .operation _ _ _ _ s | .fragment _ _ _ s | .inlineFragment _ _ s => s.items ≠ []
  | _ => True

/-- Whether no operation, fragment or inline fragment of a tree lacks selections. -/
def NoEmptySets (t : Tree) : Prop := ∀ n ∈ t.nodes, n.HasSelections

theorem noEmptySets_iff {t : Tree} : NoEmptySets t ↔ t.HasSelections ∧ ∀ c ∈ t.children, NoEmptySets c :=
  forall_mem_nodes

theorem noEmptySets_leaf {t : Tree} (h : t.HasSelections) (hleaf : t.children = []) : NoEmptySets t :=
  noEmptySets_iff.2 ⟨h, by simp [hleaf]⟩

/-! ## Trees without selections -/

/-- Whether a node is printed at an indent: a definition with selections, or a selection. -/
def isIndented : Tree → Bool
  | .operation .. | .fragment .. | .field .. | .fragmentSpread .. | .inlineFragment .. => true
  | _ => false

/-- Whether no node of a tree is printed at an indent. -/
def IsFlat (t : Tree) : Prop := ∀ n ∈ t.nodes, n.isIndented = false

theorem isFlat_iff {t : Tree} : IsFlat t ↔ t.isIndented = false ∧ ∀ c ∈ t.children, IsFlat c :=
  forall_mem_nodes

theorem isFlat_leaf {t : Tree} (h : t.isIndented = false) (hleaf : t.children = []) : IsFlat t :=
  isFlat_iff.2 ⟨h, by simp [hleaf]⟩

theorem IsFlat.noEmptySets {t : Tree} (h : IsFlat t) : NoEmptySets t := by
  intro n hn
  have hnode := h n hn
  cases n
  case operation | fragment | inlineFragment => cases hnode
  all_goals trivial

theorem isFlat_argument {name : String} {value : Tree} (h : IsFlat value) :
    IsFlat (.argument name value) :=
  isFlat_iff.2 ⟨rfl, by simpa [children] using h⟩

theorem isFlat_literal {isConst : Bool} {d : Nat} {t : Tree} (h : IsLiteral isConst d t) : IsFlat t := by
  induction h with
  | seq h ih => exact isFlat_iff.2 ⟨rfl, ih⟩
  | map hkeys hvalues ih =>
    refine isFlat_iff.2 ⟨rfl, fun c hc => ?_⟩
    obtain ⟨e, he, rfl⟩ := List.mem_map.1 hc
    exact ih e he
  | inputObject hkeys hvalues ih =>
    refine isFlat_iff.2 ⟨rfl, fun c hc => ?_⟩
    obtain ⟨e, he, rfl⟩ := List.mem_map.1 hc
    exact isFlat_argument (ih e he)
  | _ => exact isFlat_leaf rfl rfl

theorem isFlat_type {d : Nat} {t : Tree} (h : IsType d t) : IsFlat t := by
  induction h with
  | typeName => exact isFlat_leaf rfl rfl
  | listType h ih => exact isFlat_iff.2 ⟨rfl, by simpa [children] using ih⟩
  | nonNullType h hbare ih => exact isFlat_iff.2 ⟨rfl, by simpa [children] using ih⟩

theorem isFlat_default {t : Tree} (h : IsDefault t) : IsFlat t := by
  rcases h with rfl | h
  · exact isFlat_leaf rfl rfl
  · exact isFlat_literal h

theorem isFlat_condition {t : Tree} (h : IsCondition t) : IsFlat t := by
  rcases h with rfl | ⟨name, rfl, -⟩ <;> exact isFlat_leaf rfl rfl

theorem IsArgument.isFlat {isConst : Bool} {d : Nat} {t : Tree} (h : IsArgument isConst d t) : IsFlat t := by
  cases h with
  | mk hname hvalue => exact isFlat_argument (isFlat_literal hvalue)

theorem IsDirective.isFlat {isConst : Bool} {d : Nat} {t : Tree} (h : IsDirective isConst d t) :
    IsFlat t := by
  cases h with
  | mk hname hargs => exact isFlat_iff.2 ⟨rfl, fun a ha => (hargs a ha).isFlat⟩

theorem IsVariable.isFlat {t : Tree} (h : IsVariable t) : IsFlat t := by
  cases h with
  | mk hname htype hdefault =>
    have hparts := And.intro (isFlat_type htype) (isFlat_default hdefault)
    exact isFlat_iff.2 ⟨rfl, by simpa [children] using hparts⟩

theorem IsInputValue.isFlat {t : Tree} (h : IsInputValue t) : IsFlat t := by
  cases h with
  | mk hname htype hdefault hdirs =>
    refine isFlat_iff.2 ⟨rfl, fun c hc => ?_⟩
    simp only [children, Seq.items_tuple, List.mem_cons] at hc
    rcases hc with rfl | rfl | hc
    · exact isFlat_type htype
    · exact isFlat_default hdefault
    · exact (hdirs c hc).isFlat

theorem IsFieldDefinition.isFlat {t : Tree} (h : IsFieldDefinition t) : IsFlat t := by
  cases h with
  | mk hname htype hargs hdirs =>
    refine isFlat_iff.2 ⟨rfl, fun c hc => ?_⟩
    simp only [children, Seq.items_tuple, List.mem_cons, List.mem_append] at hc
    rcases hc with rfl | hc | hc
    · exact isFlat_type htype
    · exact (hargs c hc).isFlat
    · exact (hdirs c hc).isFlat

theorem IsEnumValue.isFlat {t : Tree} (h : IsEnumValue t) : IsFlat t := by
  cases h with
  | mk hname hfree hdirs => exact isFlat_iff.2 ⟨rfl, fun c hc => (hdirs c hc).isFlat⟩

/-- A definition of the type system has no selections. -/
theorem IsTypeSystem.isFlat {t : Tree} (h : IsTypeSystem t) : IsFlat t := by
  have hdirs : ∀ {dirs : List Tree}, (∀ t ∈ dirs, IsDirective true Syntax.maxDepth t) → ∀ t ∈ dirs, IsFlat t :=
    fun h t ht => (h t ht).isFlat
  cases h with
  | schema => exact isFlat_leaf rfl rfl
  | scalarType _ hd => exact isFlat_iff.2 ⟨rfl, hdirs hd⟩
  | objectType _ hfields _ hd =>
    exact isFlat_iff.2 ⟨rfl, List.forall_mem_append.2 ⟨fun f hf => (hfields f hf).isFlat, hdirs hd⟩⟩
  | interfaceType _ hfields hd =>
    exact isFlat_iff.2 ⟨rfl, List.forall_mem_append.2 ⟨fun f hf => (hfields f hf).isFlat, hdirs hd⟩⟩
  | unionType _ hmembers hd =>
    refine isFlat_iff.2 ⟨rfl, List.forall_mem_append.2 ⟨fun m hm => ?_, hdirs hd⟩⟩
    obtain ⟨name, -, rfl⟩ := List.mem_map.1 hm
    exact isFlat_leaf rfl rfl
  | enumType _ hvalues hd =>
    exact isFlat_iff.2 ⟨rfl, List.forall_mem_append.2 ⟨fun v hv => (hvalues v hv).isFlat, hdirs hd⟩⟩
  | inputType _ hfields hd =>
    exact isFlat_iff.2 ⟨rfl, List.forall_mem_append.2 ⟨fun f hf => (hfields f hf).isFlat, hdirs hd⟩⟩
  | directiveDefinition _ _ _ hargs =>
    exact isFlat_iff.2 ⟨rfl, fun a ha => (hargs a ha).isFlat⟩

/-! ## Trees with selections -/

theorem isSelection_of_strict {d : Nat} {t : Tree} (h : IsSelection false d t) : IsSelection true d t := by
  induction h with
  | field hname halias hargs hdirs hdepth hsels ih => exact .field hname halias hargs hdirs hdepth ih
  | spread hname hon hdirs => exact .spread hname hon hdirs
  | inline htype hdirs hsome hdepth hsels ih => exact .inline htype hdirs (by simp) hdepth ih

theorem noEmptySets_of_strict {d : Nat} {t : Tree} (h : IsSelection false d t) : NoEmptySets t := by
  induction h with
  | field hname halias hargs hdirs hdepth hsels ih =>
    have hparts := List.forall_mem_append.2
      ⟨fun a ha => (hargs a ha).isFlat.noEmptySets, fun t ht => (hdirs t ht).isFlat.noEmptySets⟩
    exact noEmptySets_iff.2 ⟨trivial, List.forall_mem_append.2 ⟨hparts, ih⟩⟩
  | spread hname hon hdirs => exact noEmptySets_iff.2 ⟨trivial, fun t ht => (hdirs t ht).isFlat.noEmptySets⟩
  | inline htype hdirs hsome hdepth hsels ih =>
    have hparts := List.forall_mem_append.2 ⟨fun t ht => (hdirs t ht).isFlat.noEmptySets, ih⟩
    refine noEmptySets_iff.2 ⟨hsome rfl, fun c hc => ?_⟩
    rcases List.mem_cons.1 hc with rfl | hc
    · exact (isFlat_condition htype).noEmptySets
    · exact hparts c hc

theorem isSelection_strict {d : Nat} {t : Tree} (h : IsSelection true d t) (hsets : NoEmptySets t) :
    IsSelection false d t := by
  induction h with
  | field hname halias hargs hdirs hdepth hsels ih =>
    have hall := (noEmptySets_iff.1 hsets).2
    exact .field hname halias hargs hdirs hdepth fun s hs => ih s hs (hall s (List.mem_append_right _ hs))
  | spread hname hon hdirs => exact .spread hname hon hdirs
  | inline htype hdirs hsome hdepth hsels ih =>
    obtain ⟨hnode, hall⟩ := noEmptySets_iff.1 hsets
    refine .inline htype hdirs (fun _ => hnode) hdepth fun s hs => ih s hs (hall s ?_)
    exact List.mem_cons_of_mem _ (List.mem_append_right _ hs)

/-- The selections of operations and fragments in the strict sense. -/
theorem areSelections_false_iff {sels : List Tree} :
    AreSelections false sels ↔ AreSelections true sels ∧ sels ≠ [] ∧ ∀ s ∈ sels, NoEmptySets s := by
  constructor
  · rintro ⟨hsome, hsels⟩
    exact ⟨⟨by simp, fun s hs => isSelection_of_strict (hsels s hs)⟩, hsome rfl,
      fun s hs => noEmptySets_of_strict (hsels s hs)⟩
  · rintro ⟨hsels, hsome, hsets⟩
    exact ⟨fun _ => hsome, fun s hs => isSelection_strict (hsels.2 s hs) (hsets s hs)⟩

/-- Operations and fragments in the strict sense are those without empty selection sets. -/
theorem isExecutable_false_iff {t : Tree} : IsExecutable false t ↔ IsExecutable true t ∧ NoEmptySets t := by
  constructor
  · intro h
    cases h with
    | operation hname hvars hdirs hsels =>
      obtain ⟨hloose, hsome, hsets⟩ := areSelections_false_iff.1 hsels
      -- only selections can be empty sets; variables and directives hold none
      have hparts := List.forall_mem_append.2
        ⟨fun v hv => (hvars v hv).isFlat.noEmptySets, fun t ht => (hdirs t ht).isFlat.noEmptySets⟩
      exact ⟨.operation hname hvars hdirs hloose,
        noEmptySets_iff.2 ⟨hsome, List.forall_mem_append.2 ⟨hparts, hsets⟩⟩⟩
    | fragment hname hon htype hdirs hsels =>
      obtain ⟨hloose, hsome, hsets⟩ := areSelections_false_iff.1 hsels
      have hparts := List.forall_mem_append.2 ⟨fun t ht => (hdirs t ht).isFlat.noEmptySets, hsets⟩
      refine ⟨.fragment hname hon htype hdirs hloose, noEmptySets_iff.2 ⟨hsome, fun c hc => ?_⟩⟩
      rcases List.mem_cons.1 hc with rfl | hc
      · exact noEmptySets_leaf trivial rfl
      · exact hparts c hc
  · rintro ⟨h, hsets⟩
    obtain ⟨hnode, hall⟩ := noEmptySets_iff.1 hsets
    cases h with
    | operation hname hvars hdirs hsels =>
      exact .operation hname hvars hdirs (areSelections_false_iff.2
        ⟨hsels, hnode, fun s hs => hall s (List.mem_append_right _ hs)⟩)
    | fragment hname hon htype hdirs hsels =>
      exact .fragment hname hon htype hdirs (areSelections_false_iff.2
        ⟨hsels, hnode, fun s hs => hall s (List.mem_cons_of_mem _ (List.mem_append_right _ hs))⟩)

end GraphDoc.Tree
