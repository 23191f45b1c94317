import GraphDoc.Proofs.Syntax.Parsed
import GraphDoc.Proofs.Tree.Equality

/-!
# Trees of syntax stem from a source

One lemma for each phrase. They make no use of the grammar: whatever can be converted has only nodes that
can stem from a source.
-/

namespace GraphDoc.Syntax

open GraphDoc.Tree

/-- Whether all trees of a phrase stem from a source. -/
def GivesSource {α : Type} (conv : α → Converted Tree) (x : α) : Prop := ∀ t, conv x = .ok t → FromSource t

/-- A list of conversions gives trees from a source when each does. -/
theorem fromSource_of_mapM {α : Type} {conv : α → Converted Tree} {xs : List α} {ts : List Tree}
    (h : ∀ x ∈ xs, GivesSource conv x) (hts : xs.mapM conv = .ok ts) : ∀ t ∈ ts, FromSource t := by
  intro t ht
  obtain ⟨x, hx, hxt⟩ := exists_of_mem_of_mapM hts ht
  exact h x hx t hxt

/-! ## Values and types -/

/-- A node without parts comes from a source when it is a source node. -/
theorem fromSource_leaf {t : Tree} (hnode : t.IsSourceNode) (h : t.children = []) : FromSource t :=
  fromSource_iff.2 ⟨hnode, by simp [h]⟩

/-- An argument comes from a source when its value does. -/
theorem fromSource_argument {name : String} {value : Tree} (h : FromSource value) :
    FromSource (.argument name value) :=
  fromSource_iff.2 ⟨trivial, by simpa [children] using h⟩

/-- Values convert to trees from a source. -/
theorem givesSource_value (v : Value) : GivesSource Value.toTree v := by
  intro t h
  cases v with
  | int text =>
    rw [Value.toTree] at h
    split at h
    · cases h
      exact fromSource_leaf trivial rfl
    · cases h
  | list values =>
    obtain ⟨ts, hts, h⟩ := bind_eq_ok.1 h
    cases h
    rw [toTrees_eq_mapM] at hts
    refine fromSource_iff.2 ⟨trivial, fromSource_of_mapM (fun x hx => ?_) hts⟩
    have := List.sizeOf_lt_of_mem hx
    exact givesSource_value x
  | object fields =>
    obtain ⟨ts, hts, h⟩ := bind_eq_ok.1 h
    cases h
    rw [fieldTrees_eq_mapM] at hts
    obtain ⟨entries, hentries, rfl⟩ := map_eq_ok.1 hts
    refine fromSource_iff.2 ⟨⟨entries, rfl⟩, fun c hc => ?_⟩
    obtain ⟨e, he, rfl⟩ := List.mem_map.1 hc
    obtain ⟨⟨name, value⟩, hmem, hfield⟩ := exists_of_mem_of_mapM hentries he
    obtain ⟨tree, htree, rfl⟩ := map_eq_ok.1 hfield
    have hlt : sizeOf value < sizeOf fields := by
      have hpair := List.sizeOf_lt_of_mem hmem
      rw [Prod.mk.sizeOf_spec] at hpair
      omega
    exact fromSource_argument (givesSource_value value tree htree)
  | other kind => cases h
  | _ =>
    cases h
    exact fromSource_leaf trivial rfl
termination_by sizeOf v
decreasing_by
  · subst_vars
    rw [Value.list.sizeOf_spec]
    omega
  · subst_vars
    rw [Value.object.sizeOf_spec]
    omega

/-- A default converts to a tree from a source, and so does its absence. -/
theorem givesSource_default (v : Option Value) : GivesSource defaultTree v := by
  intro t h
  cases v with
  | none =>
    cases h
    exact fromSource_leaf trivial rfl
  | some v => exact givesSource_value v t h

/-- Types convert to trees from a source. -/
theorem givesSource_type (ref : TypeRef) : GivesSource TypeRef.toTree ref := by
  induction ref with
  | named name =>
    intro t h
    cases h
    exact fromSource_leaf trivial rfl
  | list of ih =>
    intro t h
    obtain ⟨tree, htree, h⟩ := bind_eq_ok.1 h
    cases h
    exact fromSource_iff.2 ⟨trivial, by simpa [children] using ih tree htree⟩
  | nonNull of ih =>
    intro t h
    obtain ⟨tree, htree, h⟩ := bind_eq_ok.1 h
    cases h
    exact fromSource_iff.2 ⟨trivial, by simpa [children] using ih tree htree⟩
  | other kind =>
    intro t h
    cases h

/-! ## Arguments, directives and selections -/

/-- Arguments convert to trees from a source. -/
theorem givesSource_argument (a : Argument) : GivesSource Argument.toTree a := by
  intro t h
  obtain ⟨value, hvalue, h⟩ := bind_eq_ok.1 h
  cases h
  exact fromSource_argument (givesSource_value _ value hvalue)

/-- Directives convert to trees from a source. -/
theorem givesSource_directive (d : Directive) : GivesSource Directive.toTree d := by
  intro t h
  obtain ⟨args, hargs, h⟩ := bind_eq_ok.1 h
  cases h
  exact fromSource_iff.2 ⟨trivial, fromSource_of_mapM (fun a _ => givesSource_argument a) hargs⟩

/-- The directives of a node come from a source. -/
theorem fromSource_directives {ds : List Directive} {s : Seq Tree} (h : directiveTrees ds = .ok s) :
    ∀ t ∈ s.items, FromSource t := by
  obtain ⟨ts, hts, rfl⟩ := map_eq_ok.1 h
  exact fromSource_of_mapM (fun d _ => givesSource_directive d) hts

/-- A type condition comes from a source, or is absent. -/
theorem fromSource_condition (type : Option String) : FromSource (conditionTree type) := by
  cases type <;> exact fromSource_leaf trivial rfl

/-- A selection set comes from a source when its selections do. -/
theorem fromSource_set {set : Option (List Selection)} {s : Seq Tree} (hset : Selection.setTrees set = .ok s)
    (h : ∀ ss ∈ set, ∀ x ∈ ss, GivesSource Selection.toTree x) : ∀ t ∈ s.items, FromSource t := by
  cases set with
  | none =>
    cases hset
    simp
  | some ss =>
    obtain ⟨ts, hts, hset⟩ := bind_eq_ok.1 hset
    cases hset
    rw [selectionTrees_eq_mapM] at hts
    exact fromSource_of_mapM (h ss rfl) hts

/-- Selections convert to trees from a source. -/
theorem givesSource_selection (s : Selection) : GivesSource Selection.toTree s := by
  intro t h
  cases s with
  | field aliasName name args dirs set =>
    rw [Selection.toTree] at h
    obtain ⟨as, has, h⟩ := bind_eq_ok.1 h
    obtain ⟨ds, hds, h⟩ := bind_eq_ok.1 h
    obtain ⟨ss, hss, h⟩ := bind_eq_ok.1 h
    cases h
    -- selections inside are smaller
    have hset := fromSource_set hss fun xs hxs x hx => by
      cases hxs
      have := List.sizeOf_lt_of_mem hx
      exact givesSource_selection x
    have hargs := fromSource_of_mapM (fun a _ => givesSource_argument a) has
    have hdirs := fromSource_directives hds
    refine fromSource_iff.2 ⟨trivial, fun c hc => ?_⟩
    simp only [children, Seq.items_tuple, List.mem_append] at hc
    rcases hc with (hc | hc) | hc
    · exact hargs c hc
    · exact hdirs c hc
    · exact hset c hc
  | spread name dirs =>
    obtain ⟨ds, hds, h⟩ := bind_eq_ok.1 h
    cases h
    exact fromSource_iff.2 ⟨trivial, fromSource_directives hds⟩
  | inline type dirs set =>
    rw [Selection.toTree] at h
    obtain ⟨ds, hds, h⟩ := bind_eq_ok.1 h
    obtain ⟨ss, hss, h⟩ := bind_eq_ok.1 h
    cases h
    have hset := fromSource_set hss fun xs hxs x hx => by
      cases hxs
      have := List.sizeOf_lt_of_mem hx
      exact givesSource_selection x
    have hdirs := fromSource_directives hds
    refine fromSource_iff.2 ⟨trivial, fun c hc => ?_⟩
    simp only [children, List.mem_cons, List.mem_append] at hc
    rcases hc with rfl | hc | hc
    · exact fromSource_condition type
    · exact hdirs c hc
    · exact hset c hc
  | other kind => cases h
termination_by sizeOf s

/-! ## Parts of definitions -/

/-- Variable definitions convert to trees from a source. -/
theorem givesSource_variable (v : VariableDefinition) : GivesSource VariableDefinition.toTree v := by
  intro t h
  rw [VariableDefinition.toTree] at h
  split at h
  · cases h
  obtain ⟨type, htype, h⟩ := bind_eq_ok.1 h
  obtain ⟨default, hdefault, h⟩ := bind_eq_ok.1 h
  cases h
  have htypeTree := givesSource_type v.type type htype
  have hdefaultTree := givesSource_default v.default default hdefault
  exact fromSource_iff.2 ⟨trivial, by simpa [children] using ⟨htypeTree, hdefaultTree⟩⟩

/-- Input values convert to trees from a source. -/
theorem givesSource_inputValue (v : InputValue) : GivesSource InputValue.toTree v := by
  intro t h
  obtain ⟨type, htype, h⟩ := bind_eq_ok.1 h
  obtain ⟨default, hdefault, h⟩ := bind_eq_ok.1 h
  obtain ⟨dirs, hdirs, h⟩ := bind_eq_ok.1 h
  cases h
  refine fromSource_iff.2 ⟨trivial, fun c hc => ?_⟩
  simp only [children, List.mem_cons] at hc
  rcases hc with rfl | rfl | hc
  · exact givesSource_type v.type _ htype
  · exact givesSource_default v.default _ hdefault
  · exact fromSource_directives hdirs c hc

/-- Field definitions convert to trees from a source. -/
theorem givesSource_fieldDefinition (f : FieldDefinition) : GivesSource FieldDefinition.toTree f := by
  intro t h
  obtain ⟨type, htype, h⟩ := bind_eq_ok.1 h
  obtain ⟨args, hargs, h⟩ := bind_eq_ok.1 h
  obtain ⟨dirs, hdirs, h⟩ := bind_eq_ok.1 h
  cases h
  refine fromSource_iff.2 ⟨trivial, fun c hc => ?_⟩
  simp only [children, Seq.items_tuple, List.mem_cons, List.mem_append] at hc
  rcases hc with rfl | hc | hc
  · exact givesSource_type f.type _ htype
  · exact fromSource_of_mapM (fun a _ => givesSource_inputValue a) hargs c hc
  · exact fromSource_directives hdirs c hc

/-- Enum values convert to trees from a source. -/
theorem givesSource_enumValue (v : EnumValueDefinition) : GivesSource EnumValueDefinition.toTree v := by
  intro t h
  obtain ⟨dirs, hdirs, h⟩ := bind_eq_ok.1 h
  cases h
  exact fromSource_iff.2 ⟨trivial, fromSource_directives hdirs⟩

/-! ## Definitions -/

/-- Operations convert to trees from a source. -/
theorem givesSource_operation (o : Operation) : GivesSource Operation.toTree o := by
  intro t h
  obtain ⟨vars, hvars, h⟩ := bind_eq_ok.1 h
  obtain ⟨dirs, hdirs, h⟩ := bind_eq_ok.1 h
  obtain ⟨sels, hsels, h⟩ := bind_eq_ok.1 h
  cases h
  have hvarTrees := fromSource_of_mapM (fun v _ => givesSource_variable v) hvars
  have hset := fromSource_set hsels fun _ _ s _ => givesSource_selection s
  have hparts := List.forall_mem_append.2 ⟨hvarTrees, fromSource_directives hdirs⟩
  exact fromSource_iff.2 ⟨trivial, List.forall_mem_append.2 ⟨hparts, hset⟩⟩

/-- Fragments convert to trees from a source. -/
theorem givesSource_fragment (f : Fragment) : GivesSource Fragment.toTree f := by
  intro t h
  obtain ⟨dirs, hdirs, h⟩ := bind_eq_ok.1 h
  obtain ⟨sels, hsels, h⟩ := bind_eq_ok.1 h
  cases h
  have hset := fromSource_set hsels fun _ _ s _ => givesSource_selection s
  have hparts := List.forall_mem_append.2 ⟨fromSource_directives hdirs, hset⟩
  refine fromSource_iff.2 ⟨trivial, fun c hc => ?_⟩
  rcases List.mem_cons.1 hc with rfl | hc
  · exact fromSource_condition f.type
  · exact hparts c hc

/-- Object and interface types convert to trees from a source. -/
theorem givesSource_fieldsType (p : FieldsType) :
    GivesSource FieldsType.toObjectTree p ∧ GivesSource FieldsType.toInterfaceTree p := by
  constructor
  · intro t h
    obtain ⟨fields, hfields, h⟩ := bind_eq_ok.1 h
    obtain ⟨dirs, hdirs, h⟩ := bind_eq_ok.1 h
    cases h
    have hfieldTrees := fromSource_of_mapM (fun f _ => givesSource_fieldDefinition f) hfields
    exact fromSource_iff.2 ⟨trivial, List.forall_mem_append.2 ⟨hfieldTrees, fromSource_directives hdirs⟩⟩
  · intro t h
    rw [FieldsType.toInterfaceTree] at h
    split at h
    · cases h
    obtain ⟨fields, hfields, h⟩ := bind_eq_ok.1 h
    obtain ⟨dirs, hdirs, h⟩ := bind_eq_ok.1 h
    cases h
    have hfieldTrees := fromSource_of_mapM (fun f _ => givesSource_fieldDefinition f) hfields
    exact fromSource_iff.2 ⟨trivial, List.forall_mem_append.2 ⟨hfieldTrees, fromSource_directives hdirs⟩⟩

/-- Every definition converts to a tree from a source. -/
theorem givesSource_definition (d : Definition) : GivesSource Definition.toTree d := by
  intro t h
  cases d with
  | operation o => exact givesSource_operation o t h
  | fragment f => exact givesSource_fragment f t h
  | schema s =>
    rw [Definition.toTree, Schema.toTree] at h
    split at h
    · cases h
    cases h
    exact fromSource_leaf trivial rfl
  | scalar s =>
    obtain ⟨dirs, hdirs, h⟩ := bind_eq_ok.1 h
    cases h
    exact fromSource_iff.2 ⟨trivial, fromSource_directives hdirs⟩
  | object p => exact (givesSource_fieldsType p).1 t h
  | interface p => exact (givesSource_fieldsType p).2 t h
  | union u =>
    obtain ⟨dirs, hdirs, h⟩ := bind_eq_ok.1 h
    cases h
    have hmembers : ∀ m ∈ u.members.map Tree.typeName, FromSource m := by
      intro m hm
      obtain ⟨name, -, rfl⟩ := List.mem_map.1 hm
      exact fromSource_leaf trivial rfl
    exact fromSource_iff.2 ⟨trivial, List.forall_mem_append.2 ⟨hmembers, fromSource_directives hdirs⟩⟩
  | enum e =>
    obtain ⟨values, hvalues, h⟩ := bind_eq_ok.1 h
    obtain ⟨dirs, hdirs, h⟩ := bind_eq_ok.1 h
    cases h
    have hvalueTrees := fromSource_of_mapM (fun v _ => givesSource_enumValue v) hvalues
    exact fromSource_iff.2 ⟨trivial, List.forall_mem_append.2 ⟨hvalueTrees, fromSource_directives hdirs⟩⟩
  | input i =>
    obtain ⟨fields, hfields, h⟩ := bind_eq_ok.1 h
    obtain ⟨dirs, hdirs, h⟩ := bind_eq_ok.1 h
    cases h
    have hfieldTrees := fromSource_of_mapM (fun f _ => givesSource_inputValue f) hfields
    exact fromSource_iff.2 ⟨trivial, List.forall_mem_append.2 ⟨hfieldTrees, fromSource_directives hdirs⟩⟩
  | directive d =>
    rw [Definition.toTree, DirectiveDefinition.toTree] at h
    split at h
    · cases h
    obtain ⟨args, hargs, h⟩ := bind_eq_ok.1 h
    cases h
    exact fromSource_iff.2 ⟨trivial, fromSource_of_mapM (fun a _ => givesSource_inputValue a) hargs⟩
  | extension kind => cases h
  | other kind => cases h

end GraphDoc.Syntax

namespace GraphDoc

open GraphDoc.Tree

/-- The definitions of a document that is read stem from a source. -/
theorem fromSource_of_parseDocument {source : String} {ds : List Tree}
    (h : parseDocument source = .ok (.document (.tuple ds))) : ∀ d ∈ ds, FromSource d := by
  obtain ⟨x, -, -, -, htree⟩ := parseDocument_eq_ok.1 h
  obtain ⟨trees, htrees, heq⟩ := bind_eq_ok.1 htree
  cases heq
  exact Syntax.fromSource_of_mapM (fun d _ => Syntax.givesSource_definition d) htrees

end GraphDoc
