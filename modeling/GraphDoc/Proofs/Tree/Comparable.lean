import GraphDoc.Proofs.Tree.Contents

/-!
# Trees that are equal to themselves

A NaN, a symbol and an unknown thing are equal to nothing. A tree is equal to itself if it holds none of them, neither
as a value nor, in the case of a NaN, as a key.
-/

namespace GraphDoc

/-- Whether a key is not a number at all. -/
def Key.isNaN : Key → Bool
  | .float x => x.isNaN
  | _ => false

/-- A number equals itself unless it is not a number. -/
theorem Number.same_self {a : Number} (h : a ≠ .nan) : a.same a = true := by
  simp [Number.same, h]

/-- A float other than `nan` stands for a number. -/
theorem Number.ofBinary64_ne_nan {x : Binary64} (h : x.isNaN = false) : Number.ofBinary64 x ≠ .nan := by
  unfold Number.ofBinary64
  split
  · simp
  · simp [h]

/-- A key equals itself unless it is `nan`. -/
theorem Key.same_self {k : Key} (h : k.isNaN = false) : k.atom.same k.atom = true := by
  cases k with
  | none => rfl
  | bool b => exact Number.same_self (by simp [Number.ofBool])
  | int n => exact Number.same_self (by simp [Number.ofInt])
  | float x => exact Number.same_self (Number.ofBinary64_ne_nan h)
  | str s => simp [Key.atom, Atom.same]

namespace Content

/-- Among entries with distinct keys, each is found by its key. -/
theorem find?_eq_some {entries : List (Atom × Content)} (hdistinct : DistinctKeys Atom.same entries)
    {e : Atom × Content} (he : e ∈ entries) (hkey : e.1.same e.1 = true) : find? e.1 entries = some e.2 := by
  induction entries with
  | nil => cases he
  | cons first rest ih =>
    obtain ⟨hfirst, hrest⟩ := List.pairwise_cons.1 hdistinct
    rcases List.mem_cons.1 he with rfl | he
    · simp [find?, hkey]
    · have hother : e.1.same first.1 = false := by
        rw [Bool.eq_false_iff]
        intro hsame
        have hfalse := hfirst e he
        rw [← eq_of_same_atom hsame, hkey] at hfalse
        cases hfalse
      rw [find?, List.find?_cons_of_neg (by simp [hother])]
      exact ih hrest he

/-- Entries agree with others when each finds its key there with an equal value. -/
theorem sameEntries_iff {entries others : List (Atom × Content)} :
    sameEntries entries others = true ↔ ∀ e ∈ entries, ∃ other, find? e.1 others = some other ∧ same e.2 other = true := by
  induction entries with
  | nil => simp [sameEntries]
  | cons e rest ih =>
    rw [sameEntries, Bool.and_eq_true, List.forall_mem_cons, ih]
    refine and_congr_left fun _ => ?_
    cases find? e.1 others <;> simp

/-- A map without repeated keys equals itself when its entries do. -/
theorem same_map_self {entries : List (Atom × Content)} (hdistinct : DistinctKeys Atom.same entries)
    (h : ∀ e ∈ entries, e.1.same e.1 = true ∧ same e.2 e.2 = true) : same (.map entries) (.map entries) = true := by
  rw [same, Bool.and_eq_true, sameEntries_iff]
  exact ⟨by simp, fun e he => ⟨e.2, find?_eq_some hdistinct he (h e he).1, (h e he).2⟩⟩

/-- A derived class keeps the content equal to itself. -/
theorem same_derive {c : Content} (h : same c c = true) (d : Derivation) :
    same (derive d c) (derive d c) = true := by
  cases c
  case node kind parts =>
    rw [same, Bool.and_eq_true] at h
    simp [derive, same, h.2]
  all_goals exact h

end Content

namespace Tree

open Content

/-- Whether a node is no NaN, symbol or unknown thing, and no key of it is a NaN. -/
def IsComparableNode : Tree → Prop
  | .float x => x.isNaN = false
  | .map entries => ∀ e ∈ entries, e.1.isNaN = false
  | .symbol .. | .foreign .. => False
  | _ => True

/-- Whether a tree holds no NaN, symbol or unknown thing. -/
def IsComparable (t : Tree) : Prop := ∀ n ∈ t.nodes, n.IsComparableNode

/-- A tree is comparable when its node is and its parts are. -/
theorem isComparable_iff {t : Tree} : IsComparable t ↔ t.IsComparableNode ∧ ∀ c ∈ t.children, IsComparable c :=
  forall_mem_nodes

/-- The content of entries is taken entry by entry. -/
theorem entryContents_eq_map (entries : List (Key × Tree)) :
    entryContents entries = entries.map fun e => (e.1.atom, e.2.content) := by
  induction entries with
  | nil => rfl
  | cons e rest ih => rw [entryContents, ih, List.map_cons]

/-- A tree without a NaN, a symbol or an unknown thing is equal to itself. -/
theorem same_self {t : Tree} (h : IsComparable t) : t.same t = true := by
  induction t using induction_on_children with
  | step t ih =>
    obtain ⟨hnode, hchildren⟩ := isComparable_iff.1 h
    have hin : ∀ c ∈ t.children, c.content.same c.content = true := fun c hc => ih c hc (hchildren c hc)
    have hseq : ∀ s : Seq Tree, (∀ c ∈ s.items, c.content.same c.content = true) →
        Content.same (.seq s.form (contents s.items)) (.seq s.form (contents s.items)) = true := by
      intro s hs
      rw [Content.same, beq_self_eq_true, Bool.true_and, sameAll_contents, List.forall₂_same]
      exact hs
    rw [Tree.same]
    cases t
    case symbol | foreign => exact hnode.elim
    case none | nullValue => rfl
    case bool b => exact Key.same_self (k := .bool b) rfl
    case int n => exact Key.same_self (k := .int n) rfl
    case float x => exact Key.same_self (k := .float x) hnode
    case str s => exact same_text s
    case seq s => exact hseq s hin
    case derived d t => exact same_derive (hin t (List.mem_singleton_self t)) d
    case map entries =>
      refine same_map_self (distinctKeys_mergeEntries _) fun e he => ?_
      -- the key and the value of a merged entry may come from two entries
      obtain ⟨⟨v, hv⟩, k, hk⟩ := mem_mergeEntries he
      rw [entryContents_eq_map, List.mem_map] at hv hk
      obtain ⟨f, hf, hkey⟩ := hv
      obtain ⟨g, hg, hvalue⟩ := hk
      rw [← (Prod.ext_iff.1 hkey).1, ← (Prod.ext_iff.1 hvalue).2]
      exact ⟨Key.same_self (hnode f hf), hin g.2 (List.mem_map_of_mem hg)⟩
    all_goals
      simp only [children, List.forall_mem_append, List.forall_mem_cons] at hin
      simp_all [content, sameAll]

end Tree

end GraphDoc
