import GraphDoc.Proofs.Tree.Equality

/-!
# What equality sees

Equality tells trees of a source apart by everything but descriptions, except that it takes a truth value for
the number it counts. So equal trees with truth values in the same places only differ in descriptions.
-/

namespace GraphDoc

namespace Content

/-- Equal atoms are the same atom where no number is involved. -/
theorem eq_of_same_atom {a b : Atom} (h : a.same b = true) : a = b := by
  cases a <;> cases b <;> simp_all [Atom.same, Number.same]

/-- Whether nothing but the content itself is equal to it. -/
structure IsStrict (c : Content) : Prop where
  eq_of_same : ∀ c', same c c' = true → c = c'

/-- Atoms are strict. -/
theorem isStrict_atom (a : Atom) : IsStrict (.atom a) := by
  refine ⟨fun c h => ?_⟩
  cases c with
  | atom b => rw [eq_of_same_atom h]
  | _ => cases h

/-- Lists of strict contents that are equal are the same list. -/
theorem eq_of_sameAll {cs ds : List Content} (hcs : ∀ c ∈ cs, IsStrict c) (h : sameAll cs ds = true) : cs = ds := by
  rw [sameAll_iff] at h
  induction h with
  | nil => rfl
  | cons hhead _ ih =>
    rw [(hcs _ (by simp)).eq_of_same _ hhead, ih fun c hc => hcs c (List.mem_cons_of_mem _ hc)]

/-- A sequence of strict items is strict. -/
theorem isStrict_seq {form : SeqForm} {items : List Content} (h : ∀ c ∈ items, IsStrict c) :
    IsStrict (.seq form items) := by
  refine ⟨fun c hsame => ?_⟩
  cases c with
  | seq form' items' =>
    simp only [same, Bool.and_eq_true, beq_iff_eq] at hsame
    rw [hsame.1, eq_of_sameAll h hsame.2]
  | _ => cases hsame

/-- A node of strict parts is strict. -/
theorem isStrict_plain {kind : Tree.Kind} {parts : List Content} (h : ∀ c ∈ parts, IsStrict c) :
    IsStrict (plain kind parts) := by
  refine ⟨fun c hsame => ?_⟩
  cases c with
  | node kind' parts' =>
    simp only [plain, same, Bool.and_eq_true, beq_iff_eq] at hsame
    rw [plain, hsame.1, eq_of_sameAll h hsame.2]
  | _ => cases hsame

/-- A text is strict. -/
theorem isStrict_text (s : String) : IsStrict (text s) := isStrict_atom _

/-- A text that may be missing is strict. -/
theorem isStrict_text? (s : Option String) : IsStrict (text? s) := by
  cases s <;> exact isStrict_atom _

/-- A list of texts is strict. -/
theorem isStrict_texts (s : Seq String) : IsStrict (texts s) := by
  refine isStrict_seq fun c hc => ?_
  obtain ⟨t, -, rfl⟩ := List.mem_map.1 hc
  exact isStrict_text t

end Content

namespace Tree

open Content

/-- Equality leaves no choice for the content of what a tree of a source is equal to. -/
theorem isStrict_content {t : Tree} (h : FromSource t) : IsStrict t.content := by
  induction t using induction_on_children with
  | step t ih =>
    obtain ⟨hnode, hchildren⟩ := fromSource_iff.1 h
    have hin : ∀ c ∈ t.children, IsStrict c.content := fun c hc => ih c hc (hchildren c hc)
    -- the parts of a node are texts, trees and sequences of trees
    have hseq : ∀ {s : Seq Tree}, (∀ c ∈ s.items, IsStrict c.content) → IsStrict (.seq s.form (contents s.items)) := by
      intro s hs
      rw [contents_eq_map]
      exact isStrict_seq (List.forall_mem_map.2 hs)
    cases t
    case float | map | symbol | foreign | derived => exact hnode.elim
    case none | bool | int | str => exact isStrict_atom _
    case seq s => exact hseq hin
    all_goals
      simp only [children, List.forall_mem_append, List.forall_mem_cons] at hin
      refine isStrict_plain ?_
      simp_all [isStrict_text, isStrict_text?, isStrict_texts]

end Tree

/-! ## Nodes without what stands inside them -/

/-- A node with places for the trees that stand directly inside it. -/
structure Frame where
  /-- What equality sees of the trees in the places. -/
  inner : List Content := []
  /-- The node with the given trees in the places. -/
  fill : List Tree → Tree

namespace Content

/-- The text that may be absent. -/
def word? : Content → Option String
  | .atom (.text s) => some s
  | _ => none

/-- The text; nothing where there is none. -/
def word (c : Content) : String := c.word?.getD ""

/-- The sequence of texts. -/
def words : Content → Seq String
  | .seq form items => ⟨form, items.map word⟩
  | _ => .tuple []

/-- The text that may be missing can be told from its content. -/
@[simp]
theorem word?_text? (s : Option String) : (text? s).word? = s := by
  cases s <;> rfl

/-- The text can be told from its content. -/
@[simp]
theorem word_text (s : String) : (text s).word = s := rfl

/-- The texts can be told from their content. -/
@[simp]
theorem words_texts (s : Seq String) : (texts s).words = s := by
  simp [texts, words, Function.comp_def]

/-- The frame of a node of the given kind, from its parts. -/
def nodeFrame : Tree.Kind → List Content → Frame
  | .nullValue, [] => { fill := fun _ => .nullValue }
  | .floatValue, [n] => { fill := fun _ => .floatValue n.word }
  | .enumValue, [n] => { fill := fun _ => .enumValue n.word }
  | .variable, [n] => { fill := fun _ => .variable n.word }
  | .typeName, [n] => { fill := fun _ => .typeName n.word }
  | .argument, [n, v] => ⟨[v], fun ts => .argument n.word (ts.headD .none)⟩
  | .listType, [t] => ⟨[t], fun ts => .listType (ts.headD .none)⟩
  | .nonNullType, [t] => ⟨[t], fun ts => .nonNullType (ts.headD .none)⟩
  | .inputObject, [.seq f a] => ⟨a, fun ts => .inputObject ⟨f, ts⟩⟩
  | .directive, [n, .seq f a] => ⟨a, fun ts => .directive n.word ⟨f, ts⟩⟩
  | .field, [n, m, .seq f a, .seq f' d, .seq f'' s] =>
    ⟨a ++ d ++ s, fun ts => .field n.word m.word? ⟨f, ts.take a.length⟩
      ⟨f', (ts.drop a.length).take d.length⟩ ⟨f'', ts.drop (a.length + d.length)⟩⟩
  | .fragmentSpread, [n, .seq f d] => ⟨d, fun ts => .fragmentSpread n.word ⟨f, ts⟩⟩
  | .inlineFragment, [t, .seq f d, .seq f' s] =>
    ⟨t :: (d ++ s), fun ts => .inlineFragment (ts.headD .none) ⟨f, ts.tail.take d.length⟩ ⟨f', ts.tail.drop d.length⟩⟩
  | .variableDefinition, [n, t, v] =>
    ⟨[t, v], fun ts => .variableDefinition n.word (ts.headD .none) (ts.tail.headD .none)⟩
  | .operation, [k, n, .seq f a, .seq f' d, .seq f'' s] =>
    ⟨a ++ d ++ s, fun ts => .operation k.word n.word? ⟨f, ts.take a.length⟩
      ⟨f', (ts.drop a.length).take d.length⟩ ⟨f'', ts.drop (a.length + d.length)⟩⟩
  | .fragment, [n, t, .seq f d, .seq f' s] =>
    ⟨t :: (d ++ s), fun ts =>
      .fragment n.word (ts.headD .none) ⟨f, ts.tail.take d.length⟩ ⟨f', ts.tail.drop d.length⟩⟩
  | .schema, [q, m, s] => { fill := fun _ => .schema q.word? m.word? s.word? none }
  | .inputValue, [n, t, v, .seq f d] =>
    ⟨t :: v :: d, fun ts => .inputValue n.word (ts.headD .none) (ts.tail.headD .none) ⟨f, ts.tail.tail⟩ none⟩
  | .fieldDefinition, [n, t, .seq f a, .seq f' d] =>
    ⟨t :: (a ++ d), fun ts =>
      .fieldDefinition n.word (ts.headD .none) ⟨f, ts.tail.take a.length⟩ ⟨f', ts.tail.drop a.length⟩ none⟩
  | .scalarType, [n, .seq f d] => ⟨d, fun ts => .scalarType n.word ⟨f, ts⟩ none⟩
  | .objectType, [n, .seq f s, i, .seq f' d] =>
    ⟨s ++ d, fun ts => .objectType n.word ⟨f, ts.take s.length⟩ i.words ⟨f', ts.drop s.length⟩ none⟩
  | .interfaceType, [n, .seq f s, .seq f' d] =>
    ⟨s ++ d, fun ts => .interfaceType n.word ⟨f, ts.take s.length⟩ ⟨f', ts.drop s.length⟩ none⟩
  | .unionType, [n, .seq f s, .seq f' d] =>
    ⟨s ++ d, fun ts => .unionType n.word ⟨f, ts.take s.length⟩ ⟨f', ts.drop s.length⟩ none⟩
  | .enumValueDefinition, [n, .seq f d] => ⟨d, fun ts => .enumValueDefinition n.word ⟨f, ts⟩ none⟩
  | .enumType, [n, .seq f s, .seq f' d] =>
    ⟨s ++ d, fun ts => .enumType n.word ⟨f, ts.take s.length⟩ ⟨f', ts.drop s.length⟩ none⟩
  | .inputType, [n, .seq f s, .seq f' d] =>
    ⟨s ++ d, fun ts => .inputType n.word ⟨f, ts.take s.length⟩ ⟨f', ts.drop s.length⟩ none⟩
  | .directiveDefinition, [n, l, .seq f a] => ⟨a, fun ts => .directiveDefinition n.word l.words ⟨f, ts⟩ none⟩
  | .document, [.seq f s] => ⟨s, fun ts => .document ⟨f, ts⟩⟩
  | _, _ => { fill := fun _ => .none }

/-- The frame of a tree, from what equality sees of it. Numbers have none, since a truth value and an integer
can be the same to equality. -/
def frame : Content → Frame
  | .atom (.text s) => { fill := fun _ => .str s }
  | .seq form items => ⟨items, fun ts => .seq ⟨form, ts⟩⟩
  | .node kind parts => nodeFrame kind.kind parts
  | _ => { fill := fun _ => .none }

end Content

namespace Tree

open Content

/-- Whether a tree is a truth value. -/
def isBool : Tree → Bool
  | .bool _ => true
  | _ => false

/-- Whether a tree is a truth value or an integer. -/
def isNumber : Tree → Bool
  | .bool _ | .int _ => true
  | _ => false

/-- What equality sees of a node is its frame, with the trees inside in their places. -/
theorem frame_content {t : Tree} (hnode : t.IsSourceNode) (h : t.isNumber = false) (g : Tree → Tree) :
    t.content.frame.inner = t.children.map content ∧
      t.content.frame.fill (t.children.map g) = (t.mapChildren g).dropDescription := by
  cases t
  case float | map | symbol | foreign | derived => exact hnode.elim
  case bool | int => cases h
  case str => exact ⟨rfl, rfl⟩
  all_goals
    simp [content, plain, frame, nodeFrame, children, contents_eq_map, mapChildren, dropDescription, Seq.map,
      List.drop_append]

/-- Equality sees whether a tree of a source is a number. -/
theorem isNumber_iff {t : Tree} (hnode : t.IsSourceNode) :
    t.isNumber = true ↔ ∃ x, t.content = .atom (.number x) := by
  cases t
  case float | map | symbol | foreign | derived => exact hnode.elim
  all_goals simp [isNumber, content, plain, text]

/-- Equal numbers are equal integers or equal truth values, if one is a truth value only where the other is. -/
theorem eq_of_isNumber {t u : Tree} (ht : t.isNumber = true) (hu : u.isNumber = true)
    (hcontent : t.content = u.content) (hbool : t.isBool = u.isBool) : t = u := by
  cases t
  case bool b =>
    cases u
    case bool c => cases b <;> cases c <;> simp_all [content, Number.ofBool]
    case int => cases hbool
    all_goals cases hu
  case int m =>
    cases u
    case bool => cases hbool
    case int n => simpa [content, Number.ofInt] using hcontent
    all_goals cases hu
  all_goals cases ht

/-! ## Truth values in the same places -/

/-- Whether what equality sees of a tree, and the places of the truth values in it, tell all but the descriptions.
The places may be followed by those in other trees. -/
def IsTold (t : Tree) : Prop :=
  ∀ u, FromSource u → t.content = u.content → ∀ rest rest' : List Bool,
    t.nodes.map isBool ++ rest = u.nodes.map isBool ++ rest' → t.eraseDescriptions = u.eraseDescriptions ∧ rest = rest'

/-- Trees that are told by their content are, apart from descriptions, the same where contents and truth values agree;
what is left of the truth values agrees too. -/
theorem map_eraseDescriptions_of_isTold {ts us : List Tree} (hts : ∀ t ∈ ts, IsTold t) (hus : ∀ u ∈ us, FromSource u)
    (hcontent : ts.map content = us.map content) {rest rest' : List Bool}
    (hbools : (ts.flatMap nodes).map isBool ++ rest = (us.flatMap nodes).map isBool ++ rest') :
    ts.map eraseDescriptions = us.map eraseDescriptions ∧ rest = rest' := by
  induction ts generalizing us with
  | nil =>
    obtain rfl : us = [] := by simpa using hcontent.symm
    exact ⟨rfl, by simpa using hbools⟩
  | cons t ts ih =>
    obtain ⟨u, us, rfl, hhead, htail⟩ := List.map_eq_cons_iff.1 hcontent.symm
    simp only [List.flatMap_cons, List.map_append, List.append_assoc] at hbools
    -- the places in the first tree come first, and the rest are those in the others
    obtain ⟨herase, hbools⟩ := hts t (by simp) u (hus u (by simp)) hhead.symm _ _ hbools
    obtain ⟨herases, hrest⟩ := ih (fun t ht => hts t (List.mem_cons_of_mem _ ht))
      (fun u hu => hus u (List.mem_cons_of_mem _ hu)) htail.symm hbools
    exact ⟨by rw [List.map_cons, List.map_cons, herase, herases], hrest⟩

/-- Every tree that comes from a source is told by its content. -/
theorem isTold_of_fromSource {t : Tree} (h : FromSource t) : IsTold t := by
  induction t using induction_on_children with
  | step t ih =>
    intro u hu hcontent rest rest' hbools
    obtain ⟨hnode, hchildren⟩ := fromSource_iff.1 h
    obtain ⟨hnode', hchildren'⟩ := fromSource_iff.1 hu
    rw [nodes_eq t, nodes_eq u, List.map_cons, List.map_cons, List.cons_append, List.cons_append,
      List.cons.injEq] at hbools
    obtain ⟨hbool, hbools⟩ := hbools
    -- a truth value and an integer have no frame, so they are told by the place itself
    have hnumber : t.isNumber = u.isNumber := by
      rw [Bool.eq_iff_iff, isNumber_iff hnode, isNumber_iff hnode', hcontent]
    cases hone : t.isNumber with
    | true =>
      obtain rfl := eq_of_isNumber hone (hnumber ▸ hone) hcontent hbool
      exact ⟨rfl, List.append_cancel_left hbools⟩
    | false =>
      -- one frame, filled with what the trees inside are without their descriptions
      obtain ⟨hinner, hfill⟩ := frame_content hnode hone eraseDescriptions
      obtain ⟨hinner', hfill'⟩ := frame_content hnode' (hnumber ▸ hone) eraseDescriptions
      rw [hcontent] at hinner hfill
      obtain ⟨herases, hrest⟩ := map_eraseDescriptions_of_isTold (fun c hc => ih c hc (hchildren c hc)) hchildren'
        (hinner.symm.trans hinner') hbools
      refine ⟨?_, hrest⟩
      rw [eraseDescriptions_eq t, eraseDescriptions_eq u, ← hfill, ← hfill', herases]

/-- Equal trees of a source with truth values in the same places only differ in descriptions. -/
theorem eraseDescriptions_eq_of_same {t u : Tree} (ht : FromSource t) (hu : FromSource u) (h : t.same u = true)
    (hbools : t.nodes.map isBool = u.nodes.map isBool) : t.eraseDescriptions = u.eraseDescriptions :=
  (isTold_of_fromSource ht u hu ((isStrict_content ht).eq_of_same _ h) [] [] (by rw [hbools])).1

/-! ## Normal forms do not depend on descriptions -/

/-- Two changes of the parts are one change by the composition. -/
theorem mapChildren_mapChildren (f g : Tree → Tree) (t : Tree) :
    (t.mapChildren f).mapChildren g = t.mapChildren fun c => g (f c) := by
  cases t <;> simp [mapChildren, Seq.map, Function.comp_def]

/-- Dropping the description commutes with changing the parts. -/
theorem mapChildren_dropDescription (g : Tree → Tree) (t : Tree) :
    t.dropDescription.mapChildren g = (t.mapChildren g).dropDescription := by
  cases t <;> rfl

/-- The normal form of a node has no description. -/
theorem normalNode_dropDescription (t : Tree) : normalNode t.dropDescription = normalNode t := by
  cases t <;> rfl

/-- Erasing descriptions does not change the normal form. -/
theorem normal_eraseDescriptions (t : Tree) : t.eraseDescriptions.normal = t.normal := by
  induction t using induction_on_children with
  | step t ih =>
    rw [normal_eq, eraseDescriptions_eq, mapChildren_dropDescription, mapChildren_mapChildren,
      normalNode_dropDescription, mapChildren_congr ih, ← normal_eq]

/-- Erasing descriptions twice erases them once. -/
theorem eraseDescriptions_eraseDescriptions (t : Tree) :
    t.eraseDescriptions.eraseDescriptions = t.eraseDescriptions := by
  have hdrop : ∀ u : Tree, u.dropDescription.dropDescription = u.dropDescription := by
    intro u
    cases u <;> rfl
  induction t using induction_on_children with
  | step t ih =>
    rw [eraseDescriptions_eq t, eraseDescriptions_eq, mapChildren_dropDescription, mapChildren_mapChildren, hdrop,
      mapChildren_congr ih]

/-- Descriptions do not decide whether a schema block is suppressed. -/
theorem isSuppressed_eraseDescriptions (t : Tree) : t.eraseDescriptions.isSuppressed = t.isSuppressed := by
  rw [eraseDescriptions_eq]
  cases t <;> rfl

end Tree

end GraphDoc
