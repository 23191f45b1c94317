import GraphDoc.Proofs.Tree.Normal
import GraphDoc.Tree.Equality
import Mathlib.Data.List.Forall2

/-!
# Equality and normal forms

A tree that stems from a source is equal to its normal form exactly when no object literal in it repeats
a name, and then the normal form only lacks the descriptions.
-/

namespace GraphDoc

namespace Content

/-- A text equals itself. -/
@[simp]
theorem same_text (s : String) : same (text s) (text s) = true := by
  simp [text, same, Atom.same]

/-- A text that may be missing equals itself. -/
@[simp]
theorem same_text? (s : Option String) : same (text? s) (text? s) = true := by
  cases s with
  | none => rfl
  | some s => exact same_text s

/-- Texts that may be missing are equal when they are the same. -/
theorem same_text?_iff {s t : Option String} : same (text? s) (text? t) = true ↔ s = t := by
  cases s <;> cases t <;> simp [text?, text, same, Atom.same]

/-- Nodes are equal when they are of one kind and their parts are equal in order. -/
@[simp]
theorem same_plain (kind kind' : Tree.Kind) (parts parts' : List Content) :
    same (plain kind parts) (plain kind' parts') = (kind == kind' && sameAll parts parts') := by
  have hclass : ((⟨kind, []⟩ : NodeClass) == ⟨kind', []⟩) = (kind == kind') := by
    by_cases h : kind = kind' <;> simp [h]
  rw [plain, plain, same, hclass]

/-- Lists of contents are equal item by item. -/
theorem sameAll_iff {as bs : List Content} :
    sameAll as bs = true ↔ List.Forall₂ (fun a b => same a b = true) as bs := by
  induction as generalizing bs with
  | nil => cases bs <;> simp [sameAll]
  | cons a as ih => cases bs <;> simp [sameAll, ih]

/-- A list of texts equals itself. -/
@[simp]
theorem same_texts (s : Seq String) : same (texts s) (texts s) = true := by
  simp [texts, same, sameAll_iff, List.forall₂_same]

end Content

namespace Tree

open Content

/-- The contents of a list are taken tree by tree. -/
theorem contents_eq_map (ts : List Tree) : contents ts = ts.map content := by
  induction ts with
  | nil => rfl
  | cons t ts ih => rw [contents, ih, List.map_cons]

/-- Lists of trees are equal tree by tree. -/
theorem sameAll_contents {ts us : List Tree} :
    sameAll (contents ts) (contents us) = true ↔ List.Forall₂ (fun t u => t.same u = true) ts us := by
  rw [contents_eq_map, contents_eq_map, sameAll_iff, List.forall₂_map_left_iff, List.forall₂_map_right_iff]
  rfl

/-- A change of every tree of a list keeps it equal when it keeps each tree equal. -/
theorem sameAll_contents_map {g : Tree → Tree} {ts : List Tree} :
    sameAll (contents (ts.map g)) (contents ts) = true ↔ ∀ t ∈ ts, (g t).same t = true := by
  rw [sameAll_contents, List.forall₂_map_left_iff, List.forall₂_same]

/-- Equal nodes with selections have equal selections. -/
theorem same_selections_of_field {n n' : String} {m m' : Option String} {a d s a' d' s' : Seq Tree}
    (h : (Tree.field n m a d s).same (.field n' m' a' d' s') = true) :
    List.Forall₂ (fun t u => t.same u = true) s.items s'.items := by
  simp only [Tree.same, content, same_plain, sameAll, Content.same, Bool.and_eq_true] at h
  exact sameAll_contents.1 h.2.2.2.2.2.1.2

/-- Equal inline fragments hold equal selections. -/
theorem same_selections_of_inlineFragment {t t' : Tree} {d s d' s' : Seq Tree}
    (h : (Tree.inlineFragment t d s).same (.inlineFragment t' d' s') = true) :
    List.Forall₂ (fun t u => t.same u = true) s.items s'.items := by
  simp only [Tree.same, content, same_plain, sameAll, Content.same, Bool.and_eq_true] at h
  exact sameAll_contents.1 h.2.2.2.1.2

/-- Equal operations hold equal selections. -/
theorem same_selections_of_operation {k k' : String} {n n' : Option String} {a d s a' d' s' : Seq Tree}
    (h : (Tree.operation k n a d s).same (.operation k' n' a' d' s') = true) :
    List.Forall₂ (fun t u => t.same u = true) s.items s'.items := by
  simp only [Tree.same, content, same_plain, sameAll, Content.same, Bool.and_eq_true] at h
  exact sameAll_contents.1 h.2.2.2.2.2.1.2

/-- Equal operations have the same name. -/
theorem eq_of_same_operation {k k' : String} {n n' : Option String} {a d s a' d' s' : Seq Tree}
    (h : (Tree.operation k n a d s).same (.operation k' n' a' d' s') = true) : n = n' := by
  simp only [Tree.same, content, same_plain, sameAll, Bool.and_eq_true] at h
  exact same_text?_iff.1 h.2.2.1

/-- Equal fragments hold equal selections. -/
theorem same_selections_of_fragment {n n' : String} {t t' : Tree} {d s d' s' : Seq Tree}
    (h : (Tree.fragment n t d s).same (.fragment n' t' d' s') = true) :
    List.Forall₂ (fun t u => t.same u = true) s.items s'.items := by
  simp only [Tree.same, content, same_plain, sameAll, Content.same, Bool.and_eq_true] at h
  exact sameAll_contents.1 h.2.2.2.2.1.2

/-! ## Trees of a source -/

/-- Whether a node can stem from a source: it is no plain value that only a program can make, and an object
literal has entries only. -/
def IsSourceNode : Tree → Prop
  | .inputObject s => ∃ entries, s.items = ofEntries entries
  | .float _ | .map _ | .symbol .. | .foreign .. | .derived .. => False
  | _ => True

/-- Whether all nodes of a tree can stem from a source. -/
def FromSource (t : Tree) : Prop := ∀ n ∈ t.nodes, n.IsSourceNode

/-- Whether an object literal has each name once. -/
def HasDistinctNames : Tree → Prop
  | .inputObject s => (s.items.filterMap name?).Nodup
  | _ => True

/-- Whether no object literal of a tree repeats a name. -/
def NoNameRepeats (t : Tree) : Prop := ∀ n ∈ t.nodes, n.HasDistinctNames

/-- A tree comes from a source when its node does and its parts do. -/
theorem fromSource_iff {t : Tree} : FromSource t ↔ t.IsSourceNode ∧ ∀ c ∈ t.children, FromSource c :=
  forall_mem_nodes

/-- No name is repeated in a tree when none is in its node and none in its parts. -/
theorem noNameRepeats_iff {t : Tree} :
    NoNameRepeats t ↔ t.HasDistinctNames ∧ ∀ c ∈ t.children, NoNameRepeats c :=
  forall_mem_nodes

/-- A node is equal to another one of its kind if their parts are. -/
theorem same_mapChildren {t : Tree} (h : t.IsSourceNode) (g : Tree → Tree) :
    (t.mapChildren g).dropDescription.same t = true ↔ ∀ c ∈ t.children, (g c).same c = true := by
  have hseq : ∀ s : Seq Tree, Content.same (.seq s.form (contents (s.items.map g)))
      (.seq s.form (contents s.items)) = true ↔ ∀ c ∈ s.items, (g c).same c = true := by
    intro s
    rw [← sameAll_contents_map, Content.same]
    simp
  have hone : ∀ c : Tree, (g c).content.same c.content = true ↔ (g c).same c = true := fun c => Iff.rfl
  cases t
  case float | map | symbol | foreign | derived => exact h.elim
  all_goals
    simp [mapChildren, dropDescription, Seq.map, Tree.same, content, sameAll, children, hseq, hone, or_imp,
      forall_and]
  all_goals simp [Content.same, Atom.same, Number.same, Number.ofBool, Number.ofInt]

/-- Without its description, a tree of a source is equal to itself. -/
theorem same_eraseDescriptions {t : Tree} (h : FromSource t) : t.eraseDescriptions.same t = true := by
  induction t using induction_on_children with
  | step t ih =>
    obtain ⟨hnode, hchildren⟩ := fromSource_iff.1 h
    rw [eraseDescriptions_eq, same_mapChildren hnode]
    exact fun c hc => ih c hc (hchildren c hc)

/-- The names of an input object are distinct when its entries are. -/
theorem hasDistinctNames_inputObject {form : SeqForm} {entries : List (String × Tree)} :
    HasDistinctNames (.inputObject ⟨form, ofEntries entries⟩) ↔ DistinctKeys (· == ·) entries := by
  have hnames : (ofEntries entries).filterMap name? = entries.map (·.1) := by
    simp [ofEntries, List.filterMap_map, Function.comp_def, name?, nameSlot]
  show ((ofEntries entries).filterMap name?).Nodup ↔ _
  rw [hnames, DistinctKeys, List.Nodup, List.pairwise_map]
  simp

/-- Where no name is repeated, the normal form changes each node by itself. -/
theorem normal_eq_of_distinct {t : Tree} (hnode : t.IsSourceNode) (h : t.HasDistinctNames) :
    t.normal = (t.mapChildren normal).dropDescription := by
  cases t
  case inputObject s =>
    obtain ⟨form, items⟩ := s
    obtain ⟨entries, rfl⟩ : ∃ entries, items = ofEntries entries := hnode
    have hmerge : mergeEntries (· == ·) entries = entries :=
      mergeEntries_eq_self (hasDistinctNames_inputObject.1 h)
    rw [normal_inputObject, hmerge]
    show _ = Tree.inputObject ⟨form, (ofEntries entries).map normal⟩
    simp [ofEntries, normal_eq (.argument _ _), mapChildren, normalNode, dropDescription]
  all_goals exact normal_eq _

/-- An object literal that is equal to its normal form has each name once. -/
theorem hasDistinctNames_of_same {t : Tree} (hnode : t.IsSourceNode) (h : t.normal.same t = true) :
    t.HasDistinctNames := by
  cases t
  case inputObject s =>
    obtain ⟨form, items⟩ := s
    obtain ⟨entries, rfl⟩ : ∃ entries, items = ofEntries entries := hnode
    rw [normal_inputObject, Tree.same, content, content] at h
    -- equal literals have as many arguments
    have hall : sameAll (contents (ofEntries ((mergeEntries (· == ·) entries).map fun e => (e.1, e.2.normal))))
        (contents (ofEntries entries)) = true := by
      simpa [sameAll, Content.same] using h
    have hlength := (sameAll_iff.1 hall).length_eq
    rw [contents_eq_map, contents_eq_map] at hlength
    exact hasDistinctNames_inputObject.2 (distinctKeys_of_length (by simpa [ofEntries] using hlength))
  all_goals trivial

/-- A tree of a source is equal to its normal form if no object literal repeats a name, and only then. -/
theorem same_normal_iff {t : Tree} (h : FromSource t) : t.normal.same t = true ↔ NoNameRepeats t := by
  induction t using induction_on_children with
  | step t ih =>
    obtain ⟨hnode, hchildren⟩ := fromSource_iff.1 h
    have hparts : (∀ c ∈ t.children, c.normal.same c = true) ↔ ∀ c ∈ t.children, NoNameRepeats c :=
      forall₂_congr fun c hc => ih c hc (hchildren c hc)
    rw [noNameRepeats_iff, ← hparts]
    constructor
    · intro hsame
      have hdistinct := hasDistinctNames_of_same hnode hsame
      rw [normal_eq_of_distinct hnode hdistinct, same_mapChildren hnode] at hsame
      exact ⟨hdistinct, hsame⟩
    · rintro ⟨hdistinct, hsame⟩
      rwa [normal_eq_of_distinct hnode hdistinct, same_mapChildren hnode]

/-- Only what a change does on the parts matters. -/
theorem mapChildren_congr {t : Tree} {f g : Tree → Tree} (h : ∀ c ∈ t.children, f c = g c) :
    t.mapChildren f = t.mapChildren g := by
  cases t
  case map entries =>
    have hvalues : ∀ e ∈ entries, (e.1, f e.2) = (e.1, g e.2) := by
      intro e he
      rw [h e.2 (List.mem_map_of_mem he)]
    exact congrArg Tree.map (List.map_congr_left hvalues)
  all_goals simp_all [mapChildren, children, Seq.map]

/-- Where no object literal repeats a name, the normal form only lacks the descriptions. -/
theorem normal_eq_eraseDescriptions {t : Tree} (h : FromSource t) (hdistinct : NoNameRepeats t) :
    t.normal = t.eraseDescriptions := by
  induction t using induction_on_children with
  | step t ih =>
    obtain ⟨hnode, hchildren⟩ := fromSource_iff.1 h
    obtain ⟨hnames, hparts⟩ := noNameRepeats_iff.1 hdistinct
    have hsub : t.mapChildren normal = t.mapChildren eraseDescriptions :=
      mapChildren_congr fun c hc => ih c hc (hchildren c hc) (hparts c hc)
    rw [normal_eq_of_distinct hnode hnames, eraseDescriptions_eq, hsub]

end Tree

end GraphDoc
