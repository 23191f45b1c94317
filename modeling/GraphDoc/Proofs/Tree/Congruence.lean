import GraphDoc.Proofs.Tree.Equivalence

/-!
# Equality is a congruence

The parts of a tree are what equality compares: the fields of a node but its description, the items of a sequence and
the entries of a map. Putting another tree in the place of one part, however deep, gives an equal tree if the two are
equal and an unequal one if they are not.
-/

namespace GraphDoc

namespace Content

/-! ## Parts of contents -/

/-- The content without its parts. -/
def bare : Content → Content
  | .atom a => .atom a
  | .seq form _ => .seq form []
  | .map _ => .map []
  | .node kind _ => .node kind []
  | .lone => .lone

/-- An entry of a map, as a pair. -/
def pair (e : Atom × Content) : Content := .seq .tuple [.atom e.1, e.2]

/-- What stands directly inside a content. -/
def parts : Content → List Content
  | .seq _ items => items
  | .map entries => entries.map pair
  | .node _ parts => parts
  | .atom _ | .lone => []

theorem pair_injective : Function.Injective pair := by
  rintro ⟨k, v⟩ ⟨k', v'⟩ h
  simpa [pair] using h

theorem same_pair {e f : Atom × Content} :
    same (pair e) (pair f) = true ↔ e.1.same f.1 = true ∧ same e.2 f.2 = true := by
  simp [pair, same, sameAll]

/-- Lists that agree but for one place, and are equal to themselves elsewhere, are equal if what stands there is. -/
theorem sameAll_replaced {before after : List Content} {x y : Content}
    (hself : ∀ c ∈ before ++ after, same c c = true) :
    sameAll (before ++ x :: after) (before ++ y :: after) = true ↔ same x y = true := by
  obtain ⟨hbefore, hafter⟩ := List.forall_mem_append.1 hself
  induction before with
  | nil =>
    have hrest : sameAll after after = true := sameAll_iff.2 (List.forall₂_same.2 hafter)
    simp [sameAll, hrest]
  | cons c before ih =>
    rw [List.forall_mem_cons] at hbefore
    simp [sameAll, hbefore.1, ih (List.forall_mem_append.2 ⟨hbefore.2, hafter⟩) hbefore.2]

/-- A key that is equal to itself comes once only among distinct keys. -/
theorem key_ne_of_distinctKeys {before after : List (Atom × Content)} {e g : Atom × Content}
    (hkeys : DistinctKeys Atom.same (before ++ e :: after)) (hself : e.1.same e.1 = true)
    (hg : g ∈ before ++ after) : e.1 ≠ g.1 := by
  intro hkey
  obtain ⟨-, hafter, hbefore⟩ := List.pairwise_append.1 hkeys
  rcases List.mem_append.1 hg with hg | hg
  · have hfalse := hbefore g hg e (by simp)
    rw [← hkey, hself] at hfalse
    cases hfalse
  · have hfalse := (List.pairwise_cons.1 hafter).1 g hg
    rw [← hkey, hself] at hfalse
    cases hfalse

/-- Maps that agree but for one entry, and have entries that are equal to themselves elsewhere, are equal if these
two entries are. -/
theorem same_map_replaced {before after : List (Atom × Content)} {e f : Atom × Content}
    (hkeys : DistinctKeys Atom.same (before ++ e :: after)) (hkeys' : DistinctKeys Atom.same (before ++ f :: after))
    (hself : ∀ g ∈ before ++ after, same (pair g) (pair g) = true) :
    same (.map (before ++ e :: after)) (.map (before ++ f :: after)) = true ↔ same (pair e) (pair f) = true := by
  have hmem : ∀ {g h : Atom × Content}, g ∈ before ++ h :: after ↔ g = h ∨ g ∈ before ++ after := by
    simp [or_left_comm]
  rw [same_pair]
  constructor
  · intro h
    obtain ⟨_, hothers, -, hentries⟩ := same_map_iff.1 h
    cases hothers
    obtain ⟨other, hfind, hsame⟩ := hentries e (hmem.2 (.inl rfl))
    obtain ⟨hkey, hfound⟩ := mem_of_find? hfind
    -- what is found for the key of `e` is `f`, as the first map has the key of `e` nowhere else
    rcases hmem.1 hfound with rfl | hfound
    · exact ⟨hkey, hsame⟩
    · have hne := key_ne_of_distinctKeys hkeys hkey hfound
      exact absurd rfl hne
  · rintro ⟨hkey, hsame⟩
    refine same_map_iff.2 ⟨_, rfl, by simp, fun g hg => ?_⟩
    rcases hmem.1 hg with rfl | hg
    · have hfound : (g.1, f.2) ∈ before ++ f :: after := hmem.2 (.inl (by rw [eq_of_same_atom hkey]))
      rw [← eq_of_same_atom hkey] at hkey
      exact ⟨f.2, find?_eq_some hkeys' hfound hkey, hsame⟩
    · obtain ⟨hkey, hsame⟩ := same_pair.1 (hself g hg)
      exact ⟨g.2, find?_eq_some hkeys' (hmem.2 (.inr hg)) hkey, hsame⟩

/-- Contents that agree but for one part, and have parts that are equal to themselves elsewhere, are equal if these
two parts are. -/
theorem same_replaced {c d x y : Content} {before after : List Content} (hc : IsProper c) (hd : IsProper d)
    (hbare : c.bare = d.bare) (hcparts : c.parts = before ++ x :: after) (hdparts : d.parts = before ++ y :: after)
    (hself : ∀ p ∈ before ++ after, same p p = true) : same c d = true ↔ same x y = true := by
  cases hc with
  | atom | lone => simp [parts] at hcparts
  | seq form =>
    cases hd with
    | seq form' =>
      obtain rfl : form = form' := by simpa [bare] using hbare
      obtain rfl : _ = before ++ x :: after := hcparts
      obtain rfl : _ = before ++ y :: after := hdparts
      simp [same, sameAll_replaced hself]
    | _ => cases hbare
  | node kind =>
    cases hd with
    | node kind' =>
      obtain rfl : kind = kind' := by simpa [bare] using hbare
      obtain rfl : _ = before ++ x :: after := hcparts
      obtain rfl : _ = before ++ y :: after := hdparts
      simp [same, sameAll_replaced hself]
    | _ => cases hbare
  | map hkeys =>
    cases hd with
    | map hkeys' =>
      obtain ⟨es, _, rfl, rfl, hes⟩ := List.map_eq_append_iff.1 hcparts
      obtain ⟨e, es', rfl, rfl, rfl⟩ := List.map_eq_cons_iff.1 hes
      obtain ⟨fs, _, rfl, hfs, hfs'⟩ := List.map_eq_append_iff.1 hdparts
      obtain ⟨f, fs', rfl, rfl, hafter⟩ := List.map_eq_cons_iff.1 hfs'
      obtain rfl := List.map_injective_iff.2 pair_injective hfs
      obtain rfl := List.map_injective_iff.2 pair_injective hafter
      rw [← List.map_append, List.forall_mem_map] at hself
      exact same_map_replaced hkeys hkeys' hself
    | _ => cases hbare

end Content

/-! ## Parts of trees -/

/-- The value of a key, as a tree. -/
def Key.tree : Key → Tree
  | .none => .none
  | .bool b => .bool b
  | .int n => .int n
  | .float x => .float x
  | .str s => .str s

@[simp]
theorem Key.content_tree (k : Key) : k.tree.content = .atom k.atom := by
  cases k <;> rfl

namespace Tree

open Content

/-- A text that may be absent, as a tree. -/
def text? : Option String → Tree
  | Option.none => .none
  | some s => .str s

@[simp]
theorem content_text? (s : Option String) : (text? s).content = Content.text? s := by
  cases s <;> rfl

/-- A sequence of texts, as a tree. -/
def texts (s : Seq String) : Tree := .seq (s.map .str)

@[simp]
theorem content_texts (s : Seq String) : (texts s).content = Content.texts s := by
  simp [texts, Seq.map, content, contents_eq_map, Content.texts, Function.comp_def]

/-- An entry of a map, as a pair. -/
def pair (e : Key × Tree) : Tree := .seq (.tuple [e.1.tree, e.2])

@[simp]
theorem content_pair (e : Key × Tree) : (pair e).content = Content.pair (e.1.atom, e.2.content) := by
  simp [pair, Seq.tuple, content, contents, Content.pair]

/-- What equality compares of a tree: the fields of a node but its description, the items of a sequence and the
entries of a map, each key once and with its last value. -/
def parts : Tree → List Tree
  | .none | .bool _ | .int _ | .float _ | .str _ | .symbol .. | .foreign .. | .nullValue => []
  | .seq s => s.items
  | .map entries => (mergeEntries Key.same entries).map pair
  | .derived _ t => t.parts
  | .floatValue n | .enumValue n | .variable n | .typeName n => [.str n]
  | .argument n v => [.str n, v]
  | .inputObject a => [.seq a]
  | .directive n a => [.str n, .seq a]
  | .listType t | .nonNullType t => [t]
  | .field n m a d s => [.str n, text? m, .seq a, .seq d, .seq s]
  | .fragmentSpread n d => [.str n, .seq d]
  | .inlineFragment t d s => [t, .seq d, .seq s]
  | .variableDefinition n t v => [.str n, t, v]
  | .operation k n a d s => [.str k, text? n, .seq a, .seq d, .seq s]
  | .fragment n t d s => [.str n, t, .seq d, .seq s]
  | .schema q m s _ => [text? q, text? m, text? s]
  | .inputValue n t v d _ => [.str n, t, v, .seq d]
  | .fieldDefinition n t a d _ => [.str n, t, .seq a, .seq d]
  | .scalarType n d _ | .enumValueDefinition n d _ => [.str n, .seq d]
  | .objectType n s i d _ => [.str n, .seq s, texts i, .seq d]
  | .interfaceType n s d _ | .unionType n s d _ | .enumType n s d _ | .inputType n s d _ => [.str n, .seq s, .seq d]
  | .directiveDefinition n l a _ => [.str n, texts l, .seq a]
  | .document s => [.seq s]

/-- Equality sees the parts of a tree as they are. -/
theorem parts_content (t : Tree) : t.content.parts = t.parts.map content := by
  induction t using induction_on_children with
  | step t ih =>
    cases t
    case seq s => exact contents_eq_map s.items
    case map entries =>
      have hmerge : mergeEntries Atom.same (entries.map fun e => (e.1.atom, e.2.content)) =
          (mergeEntries Key.same entries).map fun e => (e.1.atom, e.2.content) :=
        mergeEntries_map Key.atom content (fun _ _ => rfl) entries
      rw [content, entryContents_eq_map, hmerge, parts, Content.parts]
      simp [Function.comp_def]
    case derived d t =>
      rw [content, parts, ← ih t (List.mem_singleton_self t)]
      cases t.content <;> rfl
    all_goals simp [content, plain, Content.parts, parts, text, contents_eq_map]

theorem isComparable_seq_iff {s : Seq Tree} : IsComparable (.seq s) ↔ ∀ c ∈ s.items, IsComparable c := by
  rw [isComparable_iff]
  simp [IsComparableNode, children]

theorem isComparable_str (s : String) : IsComparable (.str s) :=
  isComparable_iff.2 ⟨trivial, by simp [children]⟩

theorem isComparable_text? (s : Option String) : IsComparable (text? s) := by
  cases s with
  | none => exact isComparable_iff.2 ⟨trivial, by simp [text?, children]⟩
  | some s => exact isComparable_str s

theorem isComparable_texts (s : Seq String) : IsComparable (texts s) :=
  isComparable_seq_iff.2 (List.forall_mem_map.2 fun t _ => isComparable_str t)

theorem isComparable_key {k : Key} (h : k.isNaN = false) : IsComparable k.tree := by
  rw [isComparable_iff]
  cases k
  case float => exact ⟨h, by simp [Key.tree, children]⟩
  all_goals exact ⟨trivial, by simp [Key.tree, children]⟩

/-- Where there is no NaN, symbol or unknown thing, there is none among the parts. -/
theorem isComparable_of_mem_parts {t : Tree} (h : IsComparable t) : ∀ p ∈ t.parts, IsComparable p := by
  induction t using induction_on_children with
  | step t ih =>
    obtain ⟨hnode, hchildren⟩ := isComparable_iff.1 h
    cases t
    case seq s => exact hchildren
    case derived d t => exact ih t (List.mem_singleton_self t) (hchildren t (List.mem_singleton_self t))
    case map entries =>
      refine List.forall_mem_map.2 fun e he => isComparable_seq_iff.2 ?_
      obtain ⟨⟨v, hv⟩, k, hk⟩ := mem_mergeEntries he
      have hkey : IsComparable e.1.tree := isComparable_key (hnode (e.1, v) hv)
      have hvalue : IsComparable e.2 := hchildren e.2 (List.mem_map.2 ⟨_, hk, rfl⟩)
      simp [hkey, hvalue]
    all_goals
      simp only [children, List.forall_mem_append, List.forall_mem_cons] at hchildren
      simp_all [parts, isComparable_seq_iff, isComparable_str, isComparable_text?, isComparable_texts]

/-! ## Replacing a part -/

/-- What comes from a tree by putting `b` in the place of one `a` in it, however deep. -/
inductive Replaced (a b : Tree) : Tree → Tree → Prop
  | self : Replaced a b a b
  | part {t u x y : Tree} (before after : List Tree) (hbare : t.content.bare = u.content.bare)
      (ht : t.parts = before ++ x :: after) (hu : u.parts = before ++ y :: after) (h : Replaced a b x y) :
      Replaced a b t u

/-- A tree that differs from another one in one part is equal to it if the parts are equal. -/
theorem same_iff_of_part {t u x y : Tree} {before after : List Tree} (hcomparable : IsComparable t)
    (hbare : t.content.bare = u.content.bare) (ht : t.parts = before ++ x :: after)
    (hu : u.parts = before ++ y :: after) : t.same u = true ↔ x.same y = true := by
  have hself : ∀ p ∈ before ++ after, p.same p = true := by
    intro p hp
    refine same_self (isComparable_of_mem_parts hcomparable p ?_)
    rw [ht]
    simp only [List.mem_append, List.mem_cons] at hp ⊢
    tauto
  have hcontents : ∀ p ∈ before.map content ++ after.map content, Content.same p p = true := by
    rw [← List.map_append]
    exact List.forall_mem_map.2 hself
  refine Content.same_replaced t.isProper_content u.isProper_content hbare ?_ ?_ hcontents
  · rw [parts_content, ht, List.map_append, List.map_cons]
  · rw [parts_content, hu, List.map_append, List.map_cons]

/-- Replacing one part by another gives an equal tree if the two are equal, and an unequal one if they are not. -/
theorem same_iff_of_replaced {a b t u : Tree} (hcomparable : IsComparable t) (h : Replaced a b t u) :
    t.same u = true ↔ a.same b = true := by
  induction h with
  | self => rfl
  | part _ _ hbare ht hu _ ih =>
    rw [same_iff_of_part hcomparable hbare ht hu]
    exact ih (isComparable_of_mem_parts hcomparable _ (by rw [ht]; simp))

/-- Equality is an equivalence of trees without a NaN, a symbol or an unknown thing, and it sees every part of them:
a tree with another one in the place of a part is equal to what it was if the two are equal, and unequal if not. -/
theorem same_equivalence_and_congruence :
    (Equivalence fun t u : {t : Tree // IsComparable t} => t.1.same u.1 = true) ∧
      ∀ a b t u : Tree, IsComparable t → Replaced a b t u → (t.same u = true ↔ a.same b = true) :=
  ⟨equivalence_same, fun _ _ _ _ => same_iff_of_replaced⟩

/-- Deep inside, an integer that no double can hold still differs from the double next to it. -/
theorem same_nextDouble_eq_false :
    (Tree.argument "n" (.map [(.bool true, .int 9007199254740993)])).same
      (.argument "n" (.map [(.bool true, .float ⟨4845873199050653696⟩)])) = false := by
  have hcomparable : IsComparable (.argument "n" (.map [(.bool true, .int 9007199254740993)])) := by
    simp [IsComparable, nodes_eq, children, IsComparableNode, Key.isNaN]
  have hreplaced : Replaced (.int 9007199254740993) (.float ⟨4845873199050653696⟩)
      (.argument "n" (.map [(.bool true, .int 9007199254740993)]))
      (.argument "n" (.map [(.bool true, .float ⟨4845873199050653696⟩)])) := by
    -- the argument holds the map, the map its entry, and the entry its value
    refine .part [.str "n"] [] rfl rfl rfl ?_
    refine .part [] [] rfl rfl rfl ?_
    exact .part [.bool true] [] rfl rfl rfl .self
  have hiff := same_equivalence_and_congruence.2 _ _ _ _ hcomparable hreplaced
  rw [Bool.eq_false_iff, Ne, hiff]
  decide +kernel

end Tree

end GraphDoc
